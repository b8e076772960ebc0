import VmodCfg.File.Dump

/-!
# `dump_variables` and the reservation

The code of a dump, over any way to put a character, is a sequence of
characters; `dumpText` is that sequence. With `storeChar` every store through
`end` is kept, with its offset from `result`. `DUMP_CHAR` stores the character
before it looks at `free_ws`, and the terminator is stored without a look: the
dump stays in the reservation when it is streamed, or there is room for it and
its terminator, or there is no room at all.
-/

namespace VmodCfg.File

/-! ## The code, over any `DUMP_CHAR` -/

section Sink

variable {σ : Type} (put : UInt8 → σ → Except σ σ)

def byteTo (c : UInt8) : σ → Except σ σ :=
  if 31 < c.toInt8 ∧ c.toInt8 < 127 ∧ c ≠ 34 ∧ c ≠ 92 then put c
  else
    put 92 >=> match c with
      | 92 => put 92
      | 34 => put 34
      | 8 => put 98
      | 12 => put 102
      | 10 => put 110
      | 13 => put 114
      | 9 => put 116
      | _ =>
        put 117 >=> put 48 >=> put 48 >=> put (jsonHexChar (c.toInt8.toInt32 >>> 4)) >=>
          put (jsonHexChar c.toInt8.toInt32)

def bytesTo : List UInt8 → σ → Except σ σ
  | [] => pure
  | c :: cs => byteTo put c >=> bytesTo cs

def stringTo (value : CString) : σ → Except σ σ := put 34 >=> bytesTo put value.bytes >=> put 34

def membersTo (pre : Option CString) : List (CString × CString) → UInt32 → σ → Except σ σ
  | [], _ => pure
  | (name, value) :: rest, i =>
    if dumpSkips pre name then membersTo pre rest i
    else
      (if 0 < i then put 44 else pure) >=> stringTo put name >=> put 58 >=>
        stringTo put value >=> membersTo pre rest (i + 1)

def putAll : List UInt8 → σ → Except σ σ
  | [] => pure
  | c :: cs => put c >=> putAll cs

end Sink

/-- Where a dump stands, with every byte that was stored through `end` and its offset from
`result`; `fin` is the offset of `end`. -/
structure Reserved where
  vsb : Option (List UInt8)
  writes : List (UInt8 × Nat)
  fin : Nat
  freeWs : Nat
  deriving DecidableEq

/-- `DUMP_CHAR`: `*end = value` comes before the test of `free_ws`. -/
def storeChar (c : UInt8) (s : Reserved) : Except Reserved Reserved :=
  match s.vsb with
  | some body => .ok { s with vsb := some (body ++ [c]) }
  | none =>
    let s := { s with writes := s.writes ++ [(c, s.fin)] }
    if s.freeWs = 0 then .error s else .ok { s with fin := s.fin + 1, freeWs := s.freeWs - 1 }

/-- How `dump_variables` ends: does it return `result`, the body, the stores, and the size passed to
`WS_Release`. -/
structure Released where
  returned : Bool
  body : List UInt8
  writes : List (UInt8 × Nat)
  size : Nat
  deriving DecidableEq

def dumpReserved (vars : Variables) (ctx : DumpCtx) (stream : Bool) (pre : Option CString) :
    Released :=
  let vsb := if stream && ctx.synth then some ctx.body else none
  if ctx.freeWs = 0 then ⟨false, ctx.body, [], 0⟩
  else
    match (storeChar 123 >=> membersTo storeChar pre vars.toList 0 >=> storeChar 125)
        ⟨vsb, [], 0, ctx.freeWs⟩ with
    | .error s => ⟨false, s.vsb.getD ctx.body, s.writes, 0⟩
    | .ok s => ⟨true, s.vsb.getD ctx.body, s.writes ++ [(0, s.fin)], s.fin + 1⟩

/-! ## The text of a dump -/

def stringText (value : CString) : List UInt8 := 34 :: (value.bytes.flatMap byteText ++ [34])

def membersText (pre : Option CString) : List (CString × CString) → UInt32 → List UInt8
  | [], _ => []
  | (name, value) :: rest, i =>
    if dumpSkips pre name then membersText pre rest i
    else
      comma i ++ (stringText name ++ (58 :: (stringText value ++ membersText pre rest (i + 1))))

def dumpText (vars : Variables) (pre : Option CString) : List UInt8 :=
  123 :: (membersText pre vars.toList 0 ++ [125])

section Sink

variable {σ : Type} (put : UInt8 → σ → Except σ σ)

theorem putAll_append (t u : List UInt8) :
    putAll put (t ++ u) = (putAll put t >=> putAll put u) := by
  induction t with
  | nil => exact (pure_kleisli (putAll put u)).symm
  | cons c t ih =>
    show (put c >=> putAll put (t ++ u)) = ((put c >=> putAll put t) >=> putAll put u)
    rw [ih, kleisli_assoc]

theorem putAll_one (c : UInt8) : putAll put [c] = put c := kleisli_pure (put c)

theorem byteTo_eq (c : UInt8) : byteTo put c = putAll put (byteText c) := by
  unfold byteTo byteText
  split
  · exact (putAll_one put c).symm
  · show _ = (put 92 >=> putAll put _)
    congr 1
    split
    all_goals simp only [putAll, kleisli_pure]

theorem bytesTo_eq (l : List UInt8) : bytesTo put l = putAll put (l.flatMap byteText) := by
  induction l with
  | nil => rfl
  | cons c l ih =>
    rw [List.flatMap_cons, putAll_append, ← byteTo_eq, ← ih]
    rfl

theorem stringTo_eq (value : CString) : stringTo put value = putAll put (stringText value) := by
  show (put 34 >=> (bytesTo put value.bytes >=> put 34)) =
    (put 34 >=> putAll put (value.bytes.flatMap byteText ++ [34]))
  rw [putAll_append, putAll_one, bytesTo_eq]

theorem membersTo_eq (pre : Option CString) (l : List (CString × CString)) (i : UInt32) :
    membersTo put pre l i = putAll put (membersText pre l i) := by
  induction l generalizing i with
  | nil => rfl
  | cons x l ih =>
    obtain ⟨name, value⟩ := x
    have hcomma : (if 0 < i then put 44 else pure : σ → Except σ σ) = putAll put (comma i) := by
      unfold comma
      split
      · exact (putAll_one put 44).symm
      · rfl
    unfold membersTo membersText
    split
    · exact ih i
    · rw [hcomma, stringTo_eq, stringTo_eq, ih (i + 1), putAll_append, putAll_append]
      show _ = (putAll put (comma i) >=> (putAll put (stringText name) >=>
        (put 58 >=> putAll put (stringText value ++ membersText pre l (i + 1)))))
      rw [putAll_append]

theorem dumpTo_eq (vars : Variables) (pre : Option CString) :
    (put 123 >=> membersTo put pre vars.toList 0 >=> put 125) = putAll put (dumpText vars pre) := by
  show (put 123 >=> (membersTo put pre vars.toList 0 >=> put 125)) =
    (put 123 >=> putAll put (membersText pre vars.toList 0 ++ [125]))
  rw [putAll_append, putAll_one, membersTo_eq]

end Sink

/-! ## The two sinks -/

theorem bytesTo_dumpChar (l : List UInt8) : bytesTo dumpChar l = dumpBytes l := by
  induction l with
  | nil => rfl
  | cons c l ih =>
    rw [bytesTo, dumpBytes, ih]
    rfl

theorem stringTo_dumpChar (value : CString) : stringTo dumpChar value = dumpString value := by
  rw [stringTo, dumpString, bytesTo_dumpChar]

theorem membersTo_dumpChar (pre : Option CString) (l : List (CString × CString)) (i : UInt32) :
    membersTo dumpChar pre l i = dumpMembers pre l i := by
  induction l generalizing i with
  | nil => rfl
  | cons x l ih =>
    obtain ⟨name, value⟩ := x
    rw [membersTo, dumpMembers, ih, ih, stringTo_dumpChar, stringTo_dumpChar]

theorem putAll_dumpChar (t : List UInt8) : putAll dumpChar t = emit t := by
  induction t with
  | nil => rfl
  | cons c t ih =>
    rw [putAll, emit, ih]

theorem putAll_streamed (t : List UInt8) (body : List UInt8) (writes : List (UInt8 × Nat))
    (fin freeWs : Nat) :
    putAll storeChar t ⟨some body, writes, fin, freeWs⟩ =
      .ok ⟨some (body ++ t), writes, fin, freeWs⟩ := by
  induction t generalizing body with
  | nil =>
    rw [List.append_nil]
    rfl
  | cons c t ih =>
    show putAll storeChar t ⟨some (body ++ [c]), writes, fin, freeWs⟩ = _
    rw [ih, List.append_assoc]
    rfl

theorem storeChar_room (c : UInt8) (writes : List (UInt8 × Nat)) (fin freeWs : Nat) :
    storeChar c ⟨none, writes, fin, freeWs + 1⟩ =
      .ok ⟨none, writes ++ [(c, fin)], fin + 1, freeWs⟩ := rfl

theorem putAll_stored (t : List UInt8) (writes : List (UInt8 × Nat)) (fin : Nat) {freeWs : Nat}
    (h : t.length ≤ freeWs) :
    putAll storeChar t ⟨none, writes, fin, freeWs⟩ =
      .ok ⟨none, writes ++ t.zipIdx fin, fin + t.length, freeWs - t.length⟩ := by
  induction t generalizing writes fin freeWs with
  | nil =>
    rw [List.zipIdx_nil, List.append_nil]
    rfl
  | cons c t ih =>
    simp only [List.length_cons] at h
    obtain ⟨n, rfl⟩ : ∃ n, freeWs = n + 1 := ⟨freeWs - 1, by omega⟩
    show (storeChar c ⟨none, writes, fin, n + 1⟩).bind (putAll storeChar t) = _
    rw [storeChar_room]
    show putAll storeChar t ⟨none, writes ++ [(c, fin)], fin + 1, n⟩ = _
    rw [ih _ _ (by omega), List.zipIdx_cons, List.append_assoc, List.length_cons]
    simp only [List.singleton_append]
    congr 2 <;> omega

/-- Where the text does not fit, one character is stored too many. -/
theorem putAll_refused (t : List UInt8) (writes : List (UInt8 × Nat)) (fin : Nat) {freeWs : Nat}
    (h : freeWs < t.length) :
    putAll storeChar t ⟨none, writes, fin, freeWs⟩ =
      .error ⟨none, writes ++ (t.take (freeWs + 1)).zipIdx fin, fin + freeWs, 0⟩ := by
  induction t generalizing writes fin freeWs with
  | nil => exact absurd h (Nat.not_lt_zero _)
  | cons c t ih =>
    cases freeWs with
    | zero => rfl
    | succ n =>
      simp only [List.length_cons] at h
      show (storeChar c ⟨none, writes, fin, n + 1⟩).bind (putAll storeChar t) = _
      rw [storeChar_room]
      show putAll storeChar t ⟨none, writes ++ [(c, fin)], fin + 1, n⟩ = _
      rw [ih _ _ (by omega), List.take_succ_cons, List.zipIdx_cons, List.append_assoc]
      simp only [List.singleton_append]
      congr 2
      omega

/-! ## How a dump ends -/

section Ends

variable (vars : Variables) (ctx : DumpCtx) (stream : Bool) (pre : Option CString)

/-- What goes to the body. -/
def bodyText : List UInt8 := if stream && ctx.synth then dumpText vars pre else []

/-- What goes to the workspace, the terminator apart. -/
def wsText : List UInt8 := if stream && ctx.synth then [] else dumpText vars pre

/-- The stores are in the reservation, the size that is released is, and the dump is returned whole
with its terminator, or releases nothing and fails for want of room. -/
structure RespectsReservation (d : Released) : Prop where
  inside : ∀ w ∈ d.writes, w.2 < ctx.freeWs
  size : d.size ≤ ctx.freeWs
  complete : d.returned = true → d.body = ctx.body ++ bodyText vars ctx stream pre ∧
    d.writes = (wsText vars ctx stream pre ++ [0]).zipIdx ∧
    d.size = (wsText vars ctx stream pre).length + 1
  fails : d.returned = false →
    d.size = 0 ∧ ctx.freeWs < (wsText vars ctx stream pre).length + 1

theorem dumpReserved_empty (h : ctx.freeWs = 0) :
    dumpReserved vars ctx stream pre = ⟨false, ctx.body, [], 0⟩ := if_pos h

theorem dumpReserved_streamed (hfree : ctx.freeWs ≠ 0) (hmode : (stream && ctx.synth) = true) :
    dumpReserved vars ctx stream pre = ⟨true, ctx.body ++ dumpText vars pre, [(0, 0)], 1⟩ := by
  unfold dumpReserved
  simp only [hfree, if_false, hmode, if_true, dumpTo_eq, putAll_streamed]
  rfl

theorem dumpReserved_stored (hfree : ctx.freeWs ≠ 0) (hmode : ¬ (stream && ctx.synth) = true)
    (hfits : (dumpText vars pre).length ≤ ctx.freeWs) :
    dumpReserved vars ctx stream pre =
      ⟨true, ctx.body, (dumpText vars pre ++ [0]).zipIdx, (dumpText vars pre).length + 1⟩ := by
  unfold dumpReserved
  simp only [hfree, if_false, dumpTo_eq]
  rw [if_neg hmode, putAll_stored _ _ _ hfits]
  simp [List.zipIdx_append]

theorem dumpReserved_refused (hfree : ctx.freeWs ≠ 0) (hmode : ¬ (stream && ctx.synth) = true)
    (hlong : ctx.freeWs < (dumpText vars pre).length) :
    dumpReserved vars ctx stream pre =
      ⟨false, ctx.body, ((dumpText vars pre).take (ctx.freeWs + 1)).zipIdx, 0⟩ := by
  unfold dumpReserved
  simp only [hfree, if_false, dumpTo_eq]
  rw [if_neg hmode, putAll_refused _ _ _ hlong]
  simp

/-- The byte at the end of the reservation is stored where one byte is missing. -/
theorem mem_zipIdx_last {t : List UInt8} {n : Nat} (h : n < t.length) : ∃ c, (c, n) ∈ t.zipIdx :=
  ⟨t[n], List.mem_zipIdx_iff_getElem?.mpr (List.getElem?_eq_getElem h)⟩

theorem length_filter_zipIdx (t : List UInt8) (k n : Nat) :
    ((t.zipIdx k).filter fun w => n ≤ w.2).length = t.length - (n - k) := by
  induction t generalizing k with
  | nil => simp
  | cons c t ih =>
    rw [List.zipIdx_cons, List.filter_cons]
    by_cases h : n ≤ k
    · rw [if_pos (by simpa using h), List.length_cons, ih, List.length_cons]
      omega
    · rw [if_neg (by simpa using h), ih, List.length_cons]
      omega

/-- **A dump respects the reservation exactly when** it is streamed, or nothing is free, or there is
room for the text and the terminator: for all variables, every prefix, mode and size. -/
theorem dump_respects_reservation_iff :
    RespectsReservation vars ctx stream pre (dumpReserved vars ctx stream pre) ↔
      (stream && ctx.synth) = true ∨ ctx.freeWs = 0 ∨
        (dumpText vars pre).length + 1 ≤ ctx.freeWs := by
  by_cases hfree : ctx.freeWs = 0
  · rw [dumpReserved_empty vars ctx stream pre hfree]
    refine iff_of_true ⟨?_, ?_, ?_, ?_⟩ (.inr (.inl hfree))
    · intro w hw
      cases hw
    · exact Nat.zero_le _
    · intro h
      cases h
    · intro _
      exact ⟨rfl, by omega⟩
  · by_cases hmode : (stream && ctx.synth) = true
    · rw [dumpReserved_streamed vars ctx stream pre hfree hmode]
      have hpos : 0 < ctx.freeWs := Nat.pos_of_ne_zero hfree
      refine iff_of_true ⟨?_, hpos, ?_, ?_⟩ (.inl hmode)
      · intro w hw
        rw [List.mem_singleton] at hw
        rw [hw]
        exact hpos
      · intro _
        rw [bodyText, wsText, if_pos hmode, if_pos hmode]
        exact ⟨rfl, rfl, rfl⟩
      · intro h
        cases h
    · by_cases hfits : (dumpText vars pre).length ≤ ctx.freeWs
      · rw [dumpReserved_stored vars ctx stream pre hfree hmode hfits]
        simp only [hmode, hfree, Bool.false_eq_true, false_or]
        constructor
        · intro h
          exact h.size
        · intro hroom
          refine ⟨?_, hroom, ?_, ?_⟩
          · intro w hw
            have hlt := List.snd_lt_of_mem_zipIdx hw
            simp only [List.length_append, List.length_singleton] at hlt
            omega
          · intro _
            rw [bodyText, wsText, if_neg hmode, if_neg hmode]
            exact ⟨(List.append_nil _).symm, rfl, rfl⟩
          · intro h
            cases h
      · have hlong : ctx.freeWs < (dumpText vars pre).length := Nat.lt_of_not_le hfits
        rw [dumpReserved_refused vars ctx stream pre hfree hmode hlong]
        refine iff_of_false ?_ ?_
        · intro h
          -- the character that is refused has been stored at `free_ws`
          obtain ⟨c, hc⟩ := mem_zipIdx_last (t := (dumpText vars pre).take (ctx.freeWs + 1))
            (n := ctx.freeWs) (by rw [List.length_take]; omega)
          exact Nat.lt_irrefl _ (h.inside _ hc)
        · rintro (h | h | h)
          · exact hmode h
          · exact hfree h
          · omega

theorem emit_refused (t text : List UInt8) {freeWs : Nat} (stray : Nat) (h : freeWs < t.length) :
    emit t ⟨none, text, freeWs, stray⟩ = .error ⟨none, text ++ t.take freeWs, 0, stray + 1⟩ := by
  induction t generalizing text freeWs with
  | nil => exact absurd h (Nat.not_lt_zero _)
  | cons c t ih =>
    cases freeWs with
    | zero =>
      rw [List.take_zero, List.append_nil]
      rfl
    | succ n =>
      simp only [List.length_cons] at h
      show emit t ⟨none, text ++ [c], n, stray⟩ = _
      rw [ih _ (by omega), List.append_assoc]
      rfl

/-- **`dumpVariables` is the dump store by store**: `stray` counts the stores outside of the
reservation. -/
theorem dumpVariables_eq_reserved :
    dumpVariables vars ctx stream pre =
      let d := dumpReserved vars ctx stream pre
      ⟨if d.returned then some (wsText vars ctx stream pre) else none, d.body,
        (d.writes.filter fun w => ctx.freeWs ≤ w.2).length⟩ := by
  have htext : (dumpChar 123 >=> dumpMembers pre vars.toList 0 >=> dumpChar 125) =
      emit (dumpText vars pre) := by
    rw [← membersTo_dumpChar, dumpTo_eq, putAll_dumpChar]
  by_cases hfree : ctx.freeWs = 0
  · rw [dumpReserved_empty vars ctx stream pre hfree]
    exact if_pos hfree
  · unfold dumpVariables
    simp only [hfree, if_false, htext]
    by_cases hmode : (stream && ctx.synth) = true
    · rw [dumpReserved_streamed vars ctx stream pre hfree hmode, if_pos hmode, emit_streamed, wsText,
        if_pos hmode]
      simp [hfree]
    · rw [if_neg hmode, wsText, if_neg hmode]
      by_cases hfits : (dumpText vars pre).length ≤ ctx.freeWs
      · rw [dumpReserved_stored vars ctx stream pre hfree hmode hfits, emit_workspace _ _ _ hfits]
        have hlen : ((dumpText vars pre ++ [0]).zipIdx.filter
            fun w : UInt8 × Nat => ctx.freeWs ≤ w.2).length =
              (dumpText vars pre).length + 1 - ctx.freeWs := by
          rw [length_filter_zipIdx, List.length_append, List.length_singleton, Nat.sub_zero]
        simp only [hlen, List.nil_append, Option.getD_none, if_true]
        congr 1
        split <;> omega
      · have hlong : ctx.freeWs < (dumpText vars pre).length := Nat.lt_of_not_le hfits
        have hout : min (ctx.freeWs + 1) (dumpText vars pre).length - ctx.freeWs = 1 := by omega
        rw [dumpReserved_refused vars ctx stream pre hfree hmode hlong, emit_refused _ _ _ hlong]
        simp [length_filter_zipIdx, List.length_take, hout]

end Ends

/-- The dump of no variables is `{}`: in 2 bytes the terminator and the size are too large by 1, and
in 1 byte `}` is stored behind the reservation, before the dump fails. -/
theorem dump_leaves_reservation :
    dumpReserved ∅ ⟨false, [], 2⟩ false none = ⟨true, [], [(123, 0), (125, 1), (0, 2)], 3⟩ ∧
    dumpReserved ∅ ⟨false, [], 1⟩ false none = ⟨false, [], [(123, 0), (125, 1)], 0⟩ ∧
    ¬ RespectsReservation ∅ ⟨false, [], 2⟩ false none (dumpReserved ∅ ⟨false, [], 2⟩ false none) := by
  have h2 : dumpReserved ∅ ⟨false, [], 2⟩ false none =
      ⟨true, [], [(123, 0), (125, 1), (0, 2)], 3⟩ := rfl
  refine ⟨h2, rfl, fun h => ?_⟩
  rw [h2] at h
  exact absurd h.size (by decide)

end VmodCfg.File
