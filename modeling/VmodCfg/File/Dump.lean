import VmodCfg.File.Variables
import VmodCfg.Lib.JsonText

/-!
# `dump_variables`

The variables whose name starts with a prefix are printed as a JSON object, either to the body of
the response (streamed) or to the workspace. Both go through `DUMP_CHAR`; `emit` is a sequence of
these, and every part of the dump is shown to be an `emit` of its text.
-/

namespace VmodCfg.File

/-- What `dump_variables` uses of the context: does the method have a body to stream to, the body
so far, and the free bytes of the workspace. -/
structure DumpCtx where
  synth : Bool
  body : List UInt8
  freeWs : Nat

/-- Where the dump stands: `vsb` is the body if it is streamed, `text` is what stands between
`result` and `end`, `stray` counts the bytes written past the end of the reservation. -/
structure Dump where
  vsb : Option (List UInt8)
  text : List UInt8
  freeWs : Nat
  stray : Nat
  deriving DecidableEq

/-- Code that dumps; the error is `FAIL_WS`. -/
abbrev Emit := Dump → Except Dump Dump

def jsonHexChars : List UInt8 :=
  [48, 49, 50, 51, 52, 53, 54, 55, 56, 57, 97, 98, 99, 100, 101, 102]

/-- `json_hex_chars[n & 0xf]`, for an `int` -/
def jsonHexChar (n : Int32) : UInt8 := jsonHexChars.getD (n &&& 0xf).toInt.toNat 0

/-- `DUMP_CHAR`: the byte is written before the free bytes are looked at. -/
def dumpChar (c : UInt8) : Emit := fun s =>
  match s.vsb with
  | some body => .ok { s with vsb := some (body ++ [c]) }
  | none =>
    if s.freeWs = 0 then .error { s with stray := s.stray + 1 }
    else .ok { s with text := s.text ++ [c], freeWs := s.freeWs - 1 }

/-- The body of the loop of `DUMP_STRING`; `char` is signed. -/
def dumpByte (c : UInt8) : Emit :=
  if 31 < c.toInt8 ∧ c.toInt8 < 127 ∧ c ≠ 34 ∧ c ≠ 92 then dumpChar c
  else
    dumpChar 92 >=> match c with
      | 92 => dumpChar 92
      | 34 => dumpChar 34
      | 8 => dumpChar 98
      | 12 => dumpChar 102
      | 10 => dumpChar 110
      | 13 => dumpChar 114
      | 9 => dumpChar 116
      | _ =>
        dumpChar 117 >=> dumpChar 48 >=> dumpChar 48 >=>
          dumpChar (jsonHexChar (c.toInt8.toInt32 >>> 4)) >=>
          dumpChar (jsonHexChar c.toInt8.toInt32)

def dumpBytes : List UInt8 → Emit
  | [] => pure
  | c :: cs => dumpByte c >=> dumpBytes cs

def dumpString (value : CString) : Emit := dumpChar 34 >=> dumpBytes value.bytes >=> dumpChar 34

def dumpSkips (pre : Option CString) (name : CString) : Bool :=
  match pre with
  | some pre => pre.bytes != [] && name.strncmp pre pre.bytes.length != .eq
  | none => false

/-- The loop of `dump_variables`; `i` is an `unsigned`. -/
def dumpMembers (pre : Option CString) : List (CString × CString) → UInt32 → Emit
  | [], _ => pure
  | (name, value) :: rest, i =>
    if dumpSkips pre name then dumpMembers pre rest i
    else
      (if 0 < i then dumpChar 44 else pure) >=> dumpString name >=> dumpChar 58 >=>
        dumpString value >=> dumpMembers pre rest (i + 1)

/-- What `dump_variables` returns, the body afterwards, and the stray writes. -/
structure Dumped where
  result : Option (List UInt8)
  body : List UInt8
  stray : Nat
  deriving DecidableEq

def dumpVariables (vars : Variables) (ctx : DumpCtx) (stream : Bool) (pre : Option CString) :
    Dumped :=
  let vsb := if stream && ctx.synth then some ctx.body else none
  if ctx.freeWs = 0 then ⟨none, ctx.body, 0⟩
  else
    match (dumpChar 123 >=> dumpMembers pre vars.toList 0 >=> dumpChar 125)
        ⟨vsb, [], ctx.freeWs, 0⟩ with
    | .error s => ⟨none, s.vsb.getD ctx.body, s.stray⟩
    | .ok s =>
      -- the terminator
      ⟨some s.text, s.vsb.getD ctx.body, if s.freeWs = 0 then s.stray + 1 else s.stray⟩

/-! ## Sequences of characters -/

def emit : List UInt8 → Emit
  | [] => pure
  | c :: cs => dumpChar c >=> emit cs

section Kleisli

variable {σ : Type} (f g h : σ → Except σ σ)

theorem kleisli_assoc : ((f >=> g) >=> h) = (f >=> (g >=> h)) := by
  funext s
  exact bind_assoc (f s) g h

theorem pure_kleisli : (pure >=> f : σ → Except σ σ) = f := by
  funext s
  exact pure_bind s f

theorem kleisli_pure : (f >=> pure : σ → Except σ σ) = f := by
  funext s
  exact bind_pure (f s)

end Kleisli

theorem emit_append (t u : List UInt8) : emit (t ++ u) = (emit t >=> emit u) := by
  induction t with
  | nil => exact (pure_kleisli (emit u)).symm
  | cons c t ih =>
    show (dumpChar c >=> emit (t ++ u)) = ((dumpChar c >=> emit t) >=> emit u)
    rw [ih, kleisli_assoc]

theorem emit_one (c : UInt8) : emit [c] = dumpChar c := kleisli_pure (dumpChar c)

theorem emit_streamed (t : List UInt8) (body text : List UInt8) (freeWs stray : Nat) :
    emit t ⟨some body, text, freeWs, stray⟩ = .ok ⟨some (body ++ t), text, freeWs, stray⟩ := by
  induction t generalizing body with
  | nil =>
    rw [List.append_nil]
    rfl
  | cons c t ih =>
    show emit t ⟨some (body ++ [c]), text, freeWs, stray⟩ = _
    rw [ih, List.append_assoc]
    rfl

theorem emit_workspace (t : List UInt8) (text : List UInt8) {freeWs : Nat} (stray : Nat)
    (h : t.length ≤ freeWs) :
    emit t ⟨none, text, freeWs, stray⟩ = .ok ⟨none, text ++ t, freeWs - t.length, stray⟩ := by
  induction t generalizing text freeWs with
  | nil =>
    rw [List.append_nil]
    rfl
  | cons c t ih =>
    simp only [List.length_cons] at h
    have hne : freeWs ≠ 0 := by omega
    have hstep : dumpChar c ⟨none, text, freeWs, stray⟩ =
        .ok ⟨none, text ++ [c], freeWs - 1, stray⟩ := by
      simp only [dumpChar, hne, if_false]
    show (dumpChar c ⟨none, text, freeWs, stray⟩).bind (emit t) = _
    rw [hstep]
    show emit t ⟨none, text ++ [c], freeWs - 1, stray⟩ = _
    rw [ih (text ++ [c]) (by omega), List.append_assoc, List.length_cons]
    simp only [List.singleton_append]
    congr 2
    omega

/-! ## The text of a byte, of a string and of the members -/

def Printable (t : List UInt8) : Prop := ∀ b ∈ t, 32 ≤ b ∧ b ≤ 126

instance (t : List UInt8) : Decidable (Printable t) := List.decidableBAll _ t

theorem Printable.append {t u : List UInt8} (h : Printable t) (h' : Printable u) :
    Printable (t ++ u) := by
  intro b hb
  rcases List.mem_append.mp hb with hb | hb
  · exact h b hb
  · exact h' b hb

theorem Printable.cons {c : UInt8} {t : List UInt8} (hc : 32 ≤ c ∧ c ≤ 126) (h : Printable t) :
    Printable (c :: t) := by
  intro b hb
  rcases List.mem_cons.mp hb with rfl | hb
  · exact hc
  · exact h b hb

/-- What is dumped for one byte of a string. -/
def byteText (c : UInt8) : List UInt8 :=
  if 31 < c.toInt8 ∧ c.toInt8 < 127 ∧ c ≠ 34 ∧ c ≠ 92 then [c]
  else
    92 :: match c with
      | 92 => [92]
      | 34 => [34]
      | 8 => [98]
      | 12 => [102]
      | 10 => [110]
      | 13 => [114]
      | 9 => [116]
      | _ =>
        [117, 48, 48, jsonHexChar (c.toInt8.toInt32 >>> 4), jsonHexChar c.toInt8.toInt32]

theorem dumpByte_eq (c : UInt8) : dumpByte c = emit (byteText c) := by
  unfold dumpByte byteText
  split
  · exact (emit_one c).symm
  · show _ = (dumpChar 92 >=> emit _)
    congr 1
    split
    all_goals simp only [emit, kleisli_pure]

/-- The text of a byte is printable, and the decoder reads the byte from it. -/
theorem byteText_decodes (c : UInt8) :
    JsonText.decodeChars (byteText c ++ [34]) = some ([c], []) ∧ Printable (byteText c) := by
  revert c
  apply JsonText.forall_byte
  decide +kernel

theorem byteText_chars (c : UInt8) : JsonText.Chars (byteText c) [c] := by
  obtain ⟨t, ht, heq⟩ := JsonText.decodeChars_sound (byteText_decodes c).1
  rwa [List.append_cancel_right heq]

theorem dumpString_spec (value : CString) :
    ∃ t, dumpString value = emit t ∧ JsonText.Str t value.bytes ∧ Printable t := by
  have hbytes : ∀ l : List UInt8,
      ∃ t, dumpBytes l = emit t ∧ JsonText.Chars t l ∧ Printable t := by
    intro l
    induction l with
    | nil => exact ⟨[], rfl, .nil, fun b hb => by cases hb⟩
    | cons c l ih =>
      obtain ⟨t, hdump, hchars, hprint⟩ := ih
      refine ⟨byteText c ++ t, ?_, (byteText_chars c).append hchars,
        (byteText_decodes c).2.append hprint⟩
      rw [emit_append, ← dumpByte_eq, ← hdump]
      rfl
  obtain ⟨t, hdump, hchars, hprint⟩ := hbytes value.bytes
  refine ⟨34 :: (t ++ [34]), ?_, .mk hchars, ?_⟩
  · show (dumpChar 34 >=> (dumpBytes value.bytes >=> dumpChar 34)) = (dumpChar 34 >=> emit (t ++ [34]))
    rw [emit_append, emit_one, hdump]
  · exact .cons (by decide) (hprint.append (by decide))

def pairBytes (x : CString × CString) : List UInt8 × List UInt8 := (x.1.bytes, x.2.bytes)

def dumped (pre : Option CString) (l : List (CString × CString)) :
    List (List UInt8 × List UInt8) :=
  (l.filter fun x => !dumpSkips pre x.1).map pairBytes

theorem dumped_skip {pre : Option CString} {x : CString × CString}
    {l : List (CString × CString)} (h : dumpSkips pre x.1 = true) :
    dumped pre (x :: l) = dumped pre l := by
  simp [dumped, h]

theorem dumped_member {pre : Option CString} {x : CString × CString}
    {l : List (CString × CString)} (h : ¬ dumpSkips pre x.1 = true) :
    dumped pre (x :: l) = pairBytes x :: dumped pre l := by
  simp [dumped, h]

/-- The separator that the loop puts in front of a member. -/
def comma (i : UInt32) : List UInt8 := if 0 < i then [44] else []

theorem comma_pos {i : UInt32} (h : 0 < i) : comma i = [44] := if_pos h

theorem dumpMembers_member {pre : Option CString} {x : CString × CString}
    (h : ¬ dumpSkips pre x.1 = true) (l : List (CString × CString)) (i : UInt32) :
    ∃ k v, JsonText.Str k x.1.bytes ∧ JsonText.Str v x.2.bytes ∧ Printable k ∧ Printable v ∧
      dumpMembers pre (x :: l) i =
        (emit (comma i ++ (k ++ 58 :: v)) >=> dumpMembers pre l (i + 1)) := by
  obtain ⟨name, value⟩ := x
  obtain ⟨k, hk, hkstr, hkp⟩ := dumpString_spec name
  obtain ⟨v, hv, hvstr, hvp⟩ := dumpString_spec value
  refine ⟨k, v, hkstr, hvstr, hkp, hvp, ?_⟩
  have hcomma : (if 0 < i then dumpChar 44 else pure : Emit) = emit (comma i) := by
    unfold comma
    split
    · exact (emit_one 44).symm
    · rfl
  rw [dumpMembers, if_neg h, hcomma, hk, hv, ← emit_one 58]
  simp only [emit_append, kleisli_assoc, List.append_cons k 58 v]

/-- The loop dumps nothing, or the members; the counter must not wrap before the last one. -/
theorem dumpMembers_spec (pre : Option CString) (l : List (CString × CString)) (i : UInt32)
    (hi : i.toNat + (dumped pre l).length ≤ 2 ^ 32) :
    (dumped pre l = [] ∧ dumpMembers pre l i = emit []) ∨
      ∃ t, JsonText.Members t (dumped pre l) ∧ Printable t ∧
        dumpMembers pre l i = emit (comma i ++ t) := by
  induction l generalizing i with
  | nil => exact .inl ⟨rfl, rfl⟩
  | cons x l ih =>
    by_cases hskip : dumpSkips pre x.1 = true
    · have hdump : dumpMembers pre (x :: l) i = dumpMembers pre l i := by
        rw [dumpMembers, if_pos hskip]
      rw [dumped_skip hskip] at hi ⊢
      rw [hdump]
      exact ih i hi
    · obtain ⟨k, v, hkstr, hvstr, hkp, hvp, hdump⟩ := dumpMembers_member hskip l i
      rw [dumped_member hskip] at hi ⊢
      rw [hdump]
      simp only [List.length_cons] at hi
      refine .inr ?_
      have hcount : (i + 1).toNat = (i.toNat + 1) % 2 ^ 32 := UInt32.toNat_add i 1
      rcases ih (i + 1) (by omega) with ⟨hnil, hrest⟩ | ⟨t, ht, htp, hrest⟩
      · refine ⟨k ++ 58 :: v, ?_, hkp.append (.cons (by decide) hvp), ?_⟩
        · rw [hnil]
          exact .one hkstr hvstr
        · rw [hrest]
          exact kleisli_pure _
      · -- there is another member, so the counter did not wrap
        have hpos : 0 < i + 1 := by
          have hlen : 0 < (dumped pre l).length := ht.length_pos
          rw [UInt32.lt_iff_toNat_lt, hcount]
          show 0 < _
          omega
        refine ⟨k ++ 58 :: (v ++ 44 :: t), .cons hkstr hvstr ht, ?_, ?_⟩
        · exact hkp.append (.cons (by decide) (hvp.append (.cons (by decide) htp)))
        · rw [hrest, comma_pos hpos, ← emit_append]
          simp

/-! ## The dump -/

def StartsWith (pre : Option CString) (name : List UInt8) : Prop :=
  (pre.getD .empty).bytes <+: name

theorem dumpSkips_iff (pre : Option CString) (name : CString) :
    dumpSkips pre name = false ↔ StartsWith pre name.bytes := by
  unfold dumpSkips StartsWith
  cases pre with
  | none => simp [CString.empty]
  | some p =>
    have hcmp : (name.strncmp p p.bytes.length = .eq) ↔ p.bytes <+: name.bytes := by
      rw [CString.strncmp, List.take_length, Std.LawfulEqOrd.compare_eq_iff_eq,
        List.prefix_iff_eq_take, eq_comm]
    by_cases hnil : p.bytes = []
    · simp [hnil]
    · simp [hnil, hcmp]

theorem dump_text (vars : Variables) (pre : Option CString)
    (hcount : (dumped pre vars.toList).length ≤ 2 ^ 32) :
    ∃ text, (dumpChar 123 >=> dumpMembers pre vars.toList 0 >=> dumpChar 125) = emit text ∧
      JsonText.Object text (dumped pre vars.toList) ∧ Printable text := by
  rcases dumpMembers_spec pre vars.toList 0 (by simpa using hcount) with
    ⟨hnil, hdump⟩ | ⟨t, ht, hp, hdump⟩
  · refine ⟨[123, 125], ?_, ?_, by decide⟩
    · rw [hdump, ← emit_one 125]
      exact congrArg (dumpChar 123 >=> ·) (pure_kleisli _)
    · rw [hnil]
      exact .empty
  · refine ⟨123 :: (t ++ [125]), ?_, .members ht, .cons (by decide) (hp.append (by decide))⟩
    rw [hdump, ← emit_one 125]
    show (dumpChar 123 >=> (emit t >=> emit [125])) = (dumpChar 123 >=> emit (t ++ [125]))
    rw [emit_append]

/-- The members of the dump are the variables with the prefix, in ascending order. -/
theorem dumped_spec (vars : Variables) (pre : Option CString) :
    (dumped pre vars.toList).Pairwise (fun a b => compare a.1 b.1 = .lt) ∧
      ∀ name value : CString, (name.bytes, value.bytes) ∈ dumped pre vars.toList ↔
        vars[name]? = some value ∧ StartsWith pre name.bytes := by
  constructor
  · have hord : vars.toList.Pairwise fun a b => CString.strcmp a.1 b.1 = .lt :=
      Std.ExtTreeMap.ordered_keys_toList
    exact List.pairwise_map.mpr (hord.filter _)
  · intro name value
    rw [← Std.ExtTreeMap.mem_toList_iff_getElem?_eq_some, ← dumpSkips_iff]
    simp only [dumped, List.mem_map, List.mem_filter]
    constructor
    · rintro ⟨⟨n, v⟩, ⟨hmem, hskip⟩, heq⟩
      obtain ⟨hn, hv⟩ := Prod.mk.inj heq
      cases CString.ext hn
      cases CString.ext hv
      exact ⟨hmem, by simpa using hskip⟩
    · rintro ⟨hmem, hskip⟩
      exact ⟨(name, value), ⟨hmem, by simpa using hskip⟩, rfl⟩

/-- **The dump is a faithful JSON encoding**: streamed, with a byte of the workspace to spare, or in
the workspace, where it fits, the same text is dumped: a JSON object in printable ASCII whose
members are the variables with the prefix, in ascending order of their names. -/
theorem dump_faithful (vars : Variables) (pre : Option CString)
    (hcount : (dumped pre vars.toList).length ≤ 2 ^ 32) :
    ∃ text pairs,
      (∀ body freeWs, 0 < freeWs →
        dumpVariables vars ⟨true, body, freeWs⟩ true pre = ⟨some [], body ++ text, 0⟩) ∧
      (∀ synth body freeWs stream, (stream && synth) = false → text.length + 1 ≤ freeWs →
        dumpVariables vars ⟨synth, body, freeWs⟩ stream pre = ⟨some text, body, 0⟩) ∧
      JsonText.Object text pairs ∧ JsonText.decode text = some pairs ∧ Printable text ∧
      pairs.Pairwise (fun a b => compare a.1 b.1 = .lt) ∧
      (∀ name value : CString, (name.bytes, value.bytes) ∈ pairs ↔
        vars[name]? = some value ∧ StartsWith pre name.bytes) ∧
      ∀ x ∈ pairs, ∃ name value : CString, x = (name.bytes, value.bytes) := by
  obtain ⟨text, hemit, hobj, hprint⟩ := dump_text vars pre hcount
  obtain ⟨hord, hmem⟩ := dumped_spec vars pre
  refine ⟨text, dumped pre vars.toList, fun body freeWs hfree => ?_,
    fun synth body freeWs stream hmode hfree => ?_, hobj, JsonText.decode_iff.2 hobj, hprint, hord,
    hmem, fun x hx => ?_⟩
  · have hne : freeWs ≠ 0 := by omega
    unfold dumpVariables
    simp only [hne, if_false, hemit, Bool.and_self, if_true, emit_streamed]
    rfl
  · have hne : freeWs ≠ 0 := by omega
    have hleft : freeWs - text.length ≠ 0 := by omega
    unfold dumpVariables
    simp only [hne, if_false, hemit, hmode]
    rw [if_neg (by simp), emit_workspace text [] 0 (by omega)]
    simp only [hleft, if_false]
    rfl
  · obtain ⟨⟨name, value⟩, -, rfl⟩ := List.mem_map.mp hx
    exact ⟨name, value, rfl⟩

/-- Two variables, one of them with the prefix `v`; the value has a quote, a line feed and a byte
that is no ASCII. -/
theorem dump_faithful_example :
    let vars : Variables := .ofList
      [(.ofBytes [118, 97, 114], .ofBytes [34, 10, 195]), (.ofBytes [97], .ofBytes [98])] _
    let pre := some (CString.ofBytes [118])
    (dumped pre vars.toList).length ≤ 2 ^ 32 ∧
    ∃ text pairs,
      (∀ body freeWs, 0 < freeWs →
        dumpVariables vars ⟨true, body, freeWs⟩ true pre = ⟨some [], body ++ text, 0⟩) ∧
      (∀ synth body freeWs stream, (stream && synth) = false → text.length + 1 ≤ freeWs →
        dumpVariables vars ⟨synth, body, freeWs⟩ stream pre = ⟨some text, body, 0⟩) ∧
      JsonText.Object text pairs ∧ JsonText.decode text = some pairs ∧ Printable text ∧
      pairs.Pairwise (fun a b => compare a.1 b.1 = .lt) ∧
      (∀ name value : CString, (name.bytes, value.bytes) ∈ pairs ↔
        vars[name]? = some value ∧ StartsWith pre name.bytes) ∧
      ∀ x ∈ pairs, ∃ name value : CString, x = (name.bytes, value.bytes) := by
  intro vars pre
  have hcount : (dumped pre vars.toList).length ≤ 2 ^ 32 := by decide
  exact ⟨hcount, dump_faithful vars pre hcount⟩

/-! ## Where the dump is not faithful -/

section Unfaithful

/-- Whatever the counter does, the loop dumps some text; the first member that is dumped at a
counter of 0 has no separator. -/
theorem dumpMembers_emits (pre : Option CString) (l : List (CString × CString)) (i : UInt32) :
    ∃ t, dumpMembers pre l i = emit t ∧
      (i = 0 → dumped pre l ≠ [] → ∃ t', t = 34 :: t') := by
  induction l generalizing i with
  | nil => exact ⟨[], rfl, fun _ hne => absurd rfl hne⟩
  | cons x l ih =>
    by_cases hskip : dumpSkips pre x.1 = true
    · obtain ⟨t, ht, hhead⟩ := ih i
      refine ⟨t, ?_, fun hi hne => hhead hi ?_⟩
      · rw [dumpMembers, if_pos hskip, ht]
      · rwa [dumped_skip hskip] at hne
    · obtain ⟨k, v, ⟨_⟩, -, -, -, hdump⟩ := dumpMembers_member hskip l i
      obtain ⟨t, ht, -⟩ := ih (i + 1)
      refine ⟨_, by rw [hdump, ht, ← emit_append], ?_⟩
      rintro rfl -
      exact ⟨_, rfl⟩

/-- Once the counter has wrapped, a member follows another one without a separator. -/
theorem dumpMembers_wraps (pre : Option CString) (l : List (CString × CString)) (i : UInt32)
    (hi : 2 ^ 32 < i.toNat + (dumped pre l).length) (hne : dumped pre l ≠ []) :
    ∃ t ps r, JsonText.Members t ps ∧
      dumpMembers pre l i = emit (comma i ++ (t ++ 34 :: r)) := by
  induction l generalizing i with
  | nil => exact absurd rfl hne
  | cons x l ih =>
    by_cases hskip : dumpSkips pre x.1 = true
    · have hdump : dumpMembers pre (x :: l) i = dumpMembers pre l i := by
        rw [dumpMembers, if_pos hskip]
      rw [dumped_skip hskip] at hi hne
      rw [hdump]
      exact ih i hi hne
    · obtain ⟨k, v, hkstr, hvstr, -, -, hdump⟩ := dumpMembers_member hskip l i
      have hcount : (i + 1).toNat = (i.toNat + 1) % 2 ^ 32 := UInt32.toNat_add i 1
      have hlt := i.toNat_lt
      rw [dumped_member hskip] at hi
      simp only [List.length_cons] at hi
      have hrest : dumped pre l ≠ [] := by
        intro hnil
        rw [hnil] at hi
        simp only [List.length_nil] at hi
        omega
      rw [hdump]
      by_cases hwrap : i + 1 = 0
      · obtain ⟨t, ht, hhead⟩ := dumpMembers_emits pre l (i + 1)
        obtain ⟨r, rfl⟩ := hhead hwrap hrest
        refine ⟨k ++ 58 :: v, _, r, .one hkstr hvstr, ?_⟩
        rw [ht, ← emit_append, List.append_assoc]
      · have hpos : 0 < i + 1 := by
          rw [UInt32.lt_iff_toNat_lt]
          show 0 < _
          rcases Nat.eq_zero_or_pos (i + 1).toNat with h0 | h0
          · exact absurd (UInt32.toNat_inj.mp h0) hwrap
          · exact h0
        have hnowrap : (i + 1).toNat = i.toNat + 1 := by
          rw [UInt32.lt_iff_toNat_lt, hcount] at hpos
          have hpos' : 0 < (i.toNat + 1) % 2 ^ 32 := hpos
          omega
        obtain ⟨t, ps, r, ht, hdump'⟩ := ih (i + 1) (by omega) hrest
        refine ⟨k ++ 58 :: (v ++ 44 :: t), _, r, .cons hkstr hvstr ht, ?_⟩
        rw [hdump', comma_pos hpos, ← emit_append]
        simp

/-- A dump of more than 2^32 variables is not a JSON object. -/
theorem dump_of_too_many (vars : Variables) (pre : Option CString)
    (hmany : 2 ^ 32 < (dumped pre vars.toList).length) (body : List UInt8) {freeWs : Nat}
    (hfree : 0 < freeWs) : ∃ text,
      dumpVariables vars ⟨true, body, freeWs⟩ true pre = ⟨some [], body ++ text, 0⟩ ∧
      ∀ pairs, ¬ JsonText.Object text pairs := by
  have hne : dumped pre vars.toList ≠ [] := by
    intro hnil
    rw [hnil] at hmany
    simp at hmany
  obtain ⟨t, ps, r, ht, hdump⟩ := dumpMembers_wraps pre vars.toList 0 (by simpa using hmany) hne
  refine ⟨123 :: (t ++ 34 :: r ++ [125]), ?_, fun pairs hobj => ?_⟩
  · have hemit : (dumpChar 123 >=> dumpMembers pre vars.toList 0 >=> dumpChar 125) =
        emit (123 :: (t ++ 34 :: r ++ [125])) := by
      rw [hdump, ← emit_one 125]
      show (dumpChar 123 >=> (emit (t ++ 34 :: r) >=> emit [125])) =
        (dumpChar 123 >=> emit (t ++ 34 :: r ++ [125]))
      rw [emit_append (t ++ 34 :: r)]
    have hnz : freeWs ≠ 0 := by omega
    unfold dumpVariables
    simp only [hnz, if_false, hemit, Bool.and_self, if_true, emit_streamed]
    rfl
  · exact ht.not_object (by decide) hobj

def manyVariables (n : Nat) : Variables :=
  .ofList ((List.range n).map fun k => (CString.binary k, CString.empty)) _

theorem manyVariables_dumped {n : Nat} (hn : n ≤ 2 ^ 64) :
    (dumped none (manyVariables n).toList).length = n := by
  have hall : dumped none (manyVariables n).toList = (manyVariables n).toList.map pairBytes := by
    simp [dumped, dumpSkips]
  rw [hall, List.length_map, Std.ExtTreeMap.length_toList, manyVariables,
    Std.ExtTreeMap.size_ofList, List.length_map, List.length_range]
  rw [List.pairwise_map]
  refine List.Pairwise.imp_of_mem ?_ List.nodup_range
  intro a b ha hb hne heq
  have hab : CString.binary a = CString.binary b := Std.LawfulEqCmp.eq_of_compare heq
  rw [List.mem_range] at ha hb
  exact hne (CString.binary_injective (by omega) (by omega) hab)

/-- Nothing is streamed when no byte of the workspace is free, and what is streamed of 2^32 + 1
variables is not JSON. -/
theorem dump_unfaithful :
    dumpVariables (manyVariables 1) ⟨true, [], 0⟩ true none = ⟨none, [], 0⟩ ∧
    (∀ pairs, ¬ JsonText.Object [] pairs) ∧
    ∃ text, dumpVariables (manyVariables (2 ^ 32 + 1)) ⟨true, [], 1⟩ true none =
        ⟨some [], text, 0⟩ ∧
      ∀ pairs, ¬ JsonText.Object text pairs := by
  refine ⟨rfl, nofun, ?_⟩
  have hmany : 2 ^ 32 < (dumped none (manyVariables (2 ^ 32 + 1)).toList).length := by
    rw [manyVariables_dumped (by omega)]
    omega
  exact dump_of_too_many (manyVariables (2 ^ 32 + 1)) none hmany [] (by decide)

end Unfaithful

end VmodCfg.File
