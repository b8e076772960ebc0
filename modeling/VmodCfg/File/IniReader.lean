import VmodCfg.File.Ini

/-!
# The reader of `file_parse_ini`

`file_ini_stream_reader` over the memory of the contents: a pointer, and the number of bytes that
are left. Every access that is not inside of the contents, or of the buffer of the caller, is a
fault. The reader is shown to hand out the lines that `streamReader` says, and what is lost on
the way.
-/

namespace VmodCfg.File.Ini

structure StreamCtx where
  ptr : Nat
  left : Int
  deriving DecidableEq

section Defs

variable (mem : Buffer)

/-- The loop of `file_ini_stream_reader`, from `idx` on and for at most `n` bytes: where it ends,
and `newline`. -/
def scan (ctx : StreamCtx) : Nat → Nat → Option (Nat × UInt8)
  | 0, idx => some (idx, 0)
  | n + 1, idx =>
    if (idx : Int) = ctx.left then some (idx, 0)
    else
      match mem[ctx.ptr + idx]? with
      | none => none
      | some c =>
        if c = 10 then some (idx, 10)
        else if c = 13 then some (idx, 13)
        else scan ctx n (idx + 1)

/-- `memcpy(str, ctx->ptr, idx)`, and the terminator, to a buffer of `size` bytes. -/
def copyOut (size ptr idx : Nat) : Option (List UInt8) :=
  if ptr + idx ≤ mem.length ∧ idx < size then some ((mem.drop ptr).take idx) else none

def skipDoubled (newline : UInt8) (ctx : StreamCtx) : Option StreamCtx :=
  if newline ≠ 0 ∧ 0 < ctx.left then
    match mem[ctx.ptr]? with
    | none => none
    | some c => some (if c = newline then ⟨ctx.ptr + 1, ctx.left - 1⟩ else ctx)
  else some ctx

/-- `file_ini_stream_reader`: NULL, or the string and the context that are left behind; `none` is a
fault. -/
def fileIniStreamReader (size : Nat) (ctx : StreamCtx) :
    Option (Option (List UInt8 × StreamCtx)) :=
  if ctx.left ≤ 0 then some none
  else do
    let (idx, newline) ← scan mem ctx (size - 1) 0
    let str ← copyOut mem size ctx.ptr idx
    let ctx ← skipDoubled mem newline ⟨ctx.ptr + (idx + 1), ctx.left - (idx + 1)⟩
    return some (str, ctx)

/-- The strings that the reader returns, call after call, until it returns NULL. -/
inductive Drains (size : Nat) : StreamCtx → List (List UInt8) → Prop
  | eof {ctx} (h : fileIniStreamReader mem size ctx = some none) : Drains size ctx []
  | line {ctx ctx' str strs} (h : fileIniStreamReader mem size ctx = some (some (str, ctx')))
      (hs : Drains size ctx' strs) : Drains size ctx (str :: strs)

/-- The context that `file_parse_ini` starts with. -/
def StreamCtx.init (contents : CString) : StreamCtx :=
  ⟨0, (Int32.ofNat contents.bytes.length).toInt⟩

/-- The lines that `streamReader` hands out, at most `fuel` of them. -/
def readLines (size : Nat) : Nat → List UInt8 → List (List UInt8)
  | 0, _ => []
  | fuel + 1, rest =>
    match streamReader size rest with
    | none => []
    | some (line, rest) => line :: readLines size fuel rest

inductive Reads (size : Nat) : List UInt8 → List (List UInt8) → Prop
  | eof : Reads size [] []
  | line {rest left str strs} (h : streamReader size rest = some (str, left))
      (hs : Reads size left strs) : Reads size rest (str :: strs)

end Defs

/-! ## What is left of the stream -/

section Stream

variable {mem : Buffer} {size : Nat} {ctx : StreamCtx}

def StreamCtx.rest (mem : Buffer) (ctx : StreamCtx) : List UInt8 :=
  (mem.drop ctx.ptr).take ctx.left.toNat

/-- They lie in the contents. -/
def StreamCtx.Valid (mem : Buffer) (ctx : StreamCtx) : Prop :=
  0 < ctx.left → ctx.ptr + ctx.left.toNat ≤ mem.length

theorem StreamCtx.rest_getElem? {i : Nat} (hi : i < ctx.left.toNat) :
    (ctx.rest mem)[i]? = mem[ctx.ptr + i]? := by
  rw [StreamCtx.rest, List.getElem?_take_of_lt hi, List.getElem?_drop]

theorem StreamCtx.Valid.length_rest (hv : ctx.Valid mem) (hleft : 0 < ctx.left) :
    (ctx.rest mem).length = ctx.left.toNat := by
  have := hv hleft
  simp only [StreamCtx.rest, List.length_take, List.length_drop]
  omega

def lineOf (n : Nat) (l : List UInt8) : List UInt8 := (l.take n).takeWhile fun c => !isNewline c

theorem lineOf_cons_newline {n : Nat} {c : UInt8} (hc : isNewline c = true) (l : List UInt8) :
    lineOf n (c :: l) = [] := by
  cases n with
  | zero => rfl
  | succ n => simp [lineOf, hc]

theorem lineOf_cons {n : Nat} {c : UInt8} (hc : isNewline c = false) (l : List UInt8) :
    lineOf (n + 1) (c :: l) = c :: lineOf n l := by
  simp [lineOf, hc]

theorem lineOf_length_le (n : Nat) (l : List UInt8) : (lineOf n l).length ≤ min n l.length := by
  refine (List.takeWhile_prefix _).length_le.trans ?_
  rw [List.length_take]

theorem lineOf_isPrefix (n : Nat) (l : List UInt8) : lineOf n l <+: l :=
  (List.takeWhile_prefix _).trans (List.take_prefix n l)

theorem scan_spec (hv : ctx.Valid mem) (hleft : 0 < ctx.left) (n i : Nat)
    (hi : i ≤ ctx.left.toNat) :
    scan mem ctx n i = some (i + (lineOf n ((ctx.rest mem).drop i)).length,
      if (lineOf n ((ctx.rest mem).drop i)).length < n then
        (ctx.rest mem)[i + (lineOf n ((ctx.rest mem).drop i)).length]?.getD 0
      else 0) := by
  have hlen := hv.length_rest hleft
  induction n generalizing i with
  | zero => simp [scan, lineOf]
  | succ n ih =>
    unfold scan
    by_cases hend : (i : Int) = ctx.left
    · have hi' : i = (ctx.rest mem).length := by omega
      rw [if_pos hend, List.drop_eq_nil_of_le (Nat.le_of_eq hi'.symm),
        List.getElem?_eq_none (by omega)]
      simp [lineOf]
    · have hlt : i < (ctx.rest mem).length := by omega
      have hget : mem[ctx.ptr + i]? = some (ctx.rest mem)[i] := by
        rw [← StreamCtx.rest_getElem? (by omega)]
        exact List.getElem?_eq_getElem hlt
      rw [if_neg hend, hget, List.drop_eq_getElem_cons hlt]
      simp only
      generalize hc : (ctx.rest mem)[i] = c
      have hc' : (ctx.rest mem)[i]? = some c := by rw [List.getElem?_eq_getElem hlt, hc]
      split
      · rename_i h10
        subst h10
        simp [lineOf_cons_newline, isNewline, hc']
      · split
        · rename_i h13
          subst h13
          simp [lineOf_cons_newline, isNewline, hc']
        · rename_i h10 h13
          have hnl : isNewline c = false := by simp [isNewline, h10, h13]
          rw [ih (i + 1) (by omega), lineOf_cons hnl]
          simp only [List.length_cons, Nat.add_lt_add_iff_right, Nat.add_assoc, Nat.add_comm 1]

theorem stop_isNewline {n : Nat} {l : List UInt8} {c : UInt8} (h : (lineOf n l).length < n)
    (hc : l[(lineOf n l).length]? = some c) : isNewline c = true := by
  induction n generalizing l with
  | zero => exact absurd h (Nat.not_lt_zero _)
  | succ n ih =>
    cases l with
    | nil => simp at hc
    | cons d l =>
      cases hd : isNewline d with
      | true =>
        rw [lineOf_cons_newline hd] at hc
        cases hc
        exact hd
      | false =>
        rw [lineOf_cons hd] at h hc
        exact ih (Nat.lt_of_succ_lt_succ h) hc

/-- The newline that ends the line, if the loop got there. -/
def newlineOf (n : Nat) (l : List UInt8) : Option UInt8 :=
  if (lineOf n l).length < n then l[(lineOf n l).length]? else none

theorem newlineOf_isNewline {n : Nat} {l : List UInt8} {c : UInt8} (h : newlineOf n l = some c) :
    isNewline c = true := by
  unfold newlineOf at h
  split at h
  · rename_i hlt
    exact stop_isNewline hlt h
  · cases h

/-- The bytes that the next call starts with. -/
def leftOf (n : Nat) (l : List UInt8) : List UInt8 :=
  let left := l.drop ((lineOf n l).length + 1)
  if (newlineOf n l).isSome && left.head? == newlineOf n l then left.tail else left

theorem streamReader_eq {rest : List UInt8} (hne : rest ≠ []) :
    streamReader size rest = some (lineOf (size - 1) rest, leftOf (size - 1) rest) := by
  rw [streamReader, if_neg hne]
  rfl

theorem rest_skip (k : Nat) :
    (StreamCtx.mk (ctx.ptr + k) (ctx.left - k)).rest mem = (ctx.rest mem).drop k := by
  have hleft : (ctx.left - k).toNat = ctx.left.toNat - k := by omega
  rw [StreamCtx.rest, StreamCtx.rest, List.drop_take, List.drop_drop, hleft]

theorem StreamCtx.Valid.skip (hv : ctx.Valid mem) (k : Nat) :
    (StreamCtx.mk (ctx.ptr + k) (ctx.left - k)).Valid mem := by
  intro hpos
  have hleft : (0 : Int) < ctx.left - k := hpos
  have := hv (by omega)
  show ctx.ptr + k + (ctx.left - k).toNat ≤ mem.length
  omega

theorem copyOut_spec (hv : ctx.Valid mem) (hleft : 0 < ctx.left) {str : List UInt8}
    (hpre : str <+: ctx.rest mem) (hsize : str.length < size) :
    copyOut mem size ctx.ptr str.length = some str := by
  have hlen := hv.length_rest hleft
  have hv' := hv hleft
  have hle := hpre.length_le
  have hstr : (mem.drop ctx.ptr).take str.length = str := by
    rw [List.prefix_iff_eq_take.mp (hpre.trans (List.take_prefix _ _)), List.length_take,
      List.length_drop]
    congr 1
    omega
  rw [copyOut, if_pos ⟨by omega, hsize⟩, hstr]

theorem skipDoubled_spec (hv : ctx.Valid mem) {newline : Option UInt8} (hnl : newline ≠ some 0) :
    ∃ ctx', skipDoubled mem (newline.getD 0) ctx = some ctx' ∧ ctx'.Valid mem ∧
      ctx'.rest mem = if newline.isSome && (ctx.rest mem).head? == newline then (ctx.rest mem).tail
        else ctx.rest mem := by
  unfold skipDoubled
  cases newline with
  | none => exact ⟨ctx, by simp, hv, by simp⟩
  | some c =>
    have hc : c ≠ 0 := fun h => hnl (by rw [h])
    by_cases hleft : 0 < ctx.left
    · have hlen := hv.length_rest hleft
      have hhead : (ctx.rest mem).head? = mem[ctx.ptr]? := by
        rw [List.head?_eq_getElem?, StreamCtx.rest_getElem? (by omega), Nat.add_zero]
      have hlt : ctx.ptr < mem.length := by
        have := hv hleft
        omega
      rw [hhead, if_pos ⟨hc, hleft⟩, List.getElem?_eq_getElem hlt]
      refine ⟨_, rfl, ?_⟩
      by_cases heq : mem[ctx.ptr] = c
      · simp only [heq, if_true, Option.isSome_some, Option.getD_some, Bool.true_and,
          beq_self_eq_true]
        refine ⟨hv.skip 1, ?_⟩
        rw [← List.drop_one]
        exact rest_skip 1
      · simpa [heq] using hv
    · have hnil : ctx.rest mem = [] := by
        rw [StreamCtx.rest, show ctx.left.toNat = 0 by omega, List.take_zero]
      exact ⟨ctx, by simp [hleft], hv, by simp [hnil]⟩

/-- **The reader hands out the lines of the stream**, and stays inside of the contents and of the
buffer. -/
theorem fileIniStreamReader_spec (hv : ctx.Valid mem) (hsize : 0 < size) (hleft : 0 < ctx.left) :
    ∃ str ctx', fileIniStreamReader mem size ctx = some (some (str, ctx')) ∧ ctx'.Valid mem ∧
      streamReader size (ctx.rest mem) = some (str, ctx'.rest mem) := by
  have hlen := hv.length_rest hleft
  let str := lineOf (size - 1) (ctx.rest mem)
  let newline := newlineOf (size - 1) (ctx.rest mem)
  have hle : str.length ≤ min (size - 1) (ctx.rest mem).length := lineOf_length_le _ _
  have hne : ctx.rest mem ≠ [] := by
    intro hnil
    rw [hnil, List.length_nil] at hlen
    omega
  have hscan : scan mem ctx (size - 1) 0 = some (str.length, newline.getD 0) := by
    have h := scan_spec hv hleft (size - 1) 0 (Nat.zero_le _)
    rw [List.drop_zero, Nat.zero_add] at h
    rw [h]
    simp only [newline, newlineOf]
    split <;> rfl
  have hnl : newline ≠ some 0 := fun h => absurd (newlineOf_isNewline h) (by decide)
  obtain ⟨ctx', hskip, hv', hrest⟩ := skipDoubled_spec (hv.skip (str.length + 1)) hnl
  refine ⟨str, ctx', ?_, hv', ?_⟩
  · rw [fileIniStreamReader, if_neg (by omega), hscan]
    show (do
      let s ← copyOut mem size ctx.ptr str.length
      let c ← skipDoubled mem (newline.getD 0) ⟨ctx.ptr + (str.length + 1), _⟩
      return some (s, c)) = _
    rw [copyOut_spec hv hleft (lineOf_isPrefix _ _) (show str.length < size by omega)]
    simp only [Option.bind_eq_bind, Option.bind_some]
    rw [show (str.length : Int) + 1 = ((str.length + 1 : Nat) : Int) by push_cast; rfl, hskip]
    rfl
  · rw [streamReader_eq hne, hrest, rest_skip]
    rfl

end Stream

/-! ## What is lost -/

section Lossless

variable {size : Nat}

/-- The bytes that are no newlines. -/
def text (l : List UInt8) : List UInt8 := l.filter fun c => !isNewline c

/-- Among any `size` bytes in a row there is a newline. -/
def ShortLines (size : Nat) (l : List UInt8) : Prop :=
  ∀ run, run <:+: l → run.length = size → ∃ c ∈ run, isNewline c = true

/-- What one call makes of the bytes that are left. -/
inductive Cut (size : Nat) : List UInt8 → List UInt8 → List UInt8 → Prop
  | last {line} (hline : text line = line) (hlen : line.length < size) : Cut size line line []
  | newline {line left left'} {c : UInt8} (hline : text line = line) (hlen : line.length < size)
      (hc : isNewline c = true) (hleft : left' = left ∨ left = c :: left') :
      Cut size (line ++ c :: left) line left'
  | full {line left} {c : UInt8} (hline : text line = line) (hlen : line.length + 1 = size)
      (hc : isNewline c = false) : Cut size (line ++ c :: left) line left

theorem text_lineOf (n : Nat) (l : List UInt8) : text (lineOf n l) = lineOf n l := by
  rw [text, List.filter_eq_self]
  intro c hc
  exact List.mem_takeWhile_imp (p := fun c => !isNewline c) hc

theorem streamReader_cut (hsize : 0 < size) {rest str left : List UInt8}
    (h : streamReader size rest = some (str, left)) : Cut size rest str left := by
  have hne : rest ≠ [] := by
    rintro rfl
    cases h
  rw [streamReader_eq hne] at h
  obtain ⟨rfl, rfl⟩ := Prod.mk.inj (Option.some.inj h)
  have hline := text_lineOf (size - 1) rest
  have hlen := (lineOf_length_le (size - 1) rest).trans (Nat.min_le_left _ _)
  obtain ⟨tail, htail⟩ := lineOf_isPrefix (size - 1) rest
  have hnl := fun c => newlineOf_isNewline (n := size - 1) (l := rest) (c := c)
  unfold leftOf newlineOf at *
  generalize lineOf (size - 1) rest = line at *
  subst htail
  cases tail with
  | nil =>
    simp only [List.append_nil, List.getElem?_eq_none (Nat.le_refl _), ite_self, Option.isSome_none,
      Bool.false_and, Bool.false_eq_true, if_false, List.drop_eq_nil_of_le (Nat.le_succ _)]
    exact .last hline (by omega)
  | cons c tail =>
    have hget : (line ++ c :: tail)[line.length]? = some c := by simp
    have hdrop : (line ++ c :: tail).drop (line.length + 1) = tail := by simp
    rw [hget] at hnl
    rw [hget, hdrop]
    by_cases hlt : line.length < size - 1
    · simp only [if_pos hlt, Option.isSome_some, Bool.true_and] at hnl ⊢
      refine .newline hline (by omega) (hnl c rfl) ?_
      cases tail with
      | nil => exact .inl rfl
      | cons d tail =>
        by_cases hd : d = c
        · subst hd
          simp
        · simp [hd]
    · simp only [if_neg hlt, Option.isSome_none, Bool.false_and, Bool.false_eq_true, if_false]
      cases hc : isNewline c with
      | true => exact .newline hline (by omega) hc (.inl rfl)
      | false => exact .full hline (by omega) hc

theorem reads_readLines {fuel : Nat} {rest : List UInt8} (hfuel : rest.length < fuel) :
    Reads size rest (readLines size fuel rest) := by
  induction fuel generalizing rest with
  | zero => exact absurd hfuel (Nat.not_lt_zero _)
  | succ fuel ih =>
    unfold readLines
    cases hread : streamReader size rest with
    | none =>
      have hnil : rest = [] := by
        by_contra hne
        rw [streamReader_eq hne] at hread
        cases hread
      rw [hnil]
      exact .eof
    | some x =>
      obtain ⟨line, left⟩ := x
      have hlt := streamReader_length hread
      exact .line hread (ih (by omega))

theorem text_append (l l' : List UInt8) : text (l ++ l') = text l ++ text l' :=
  List.filter_append ..

theorem text_newline {c : UInt8} (hc : isNewline c = true) (l : List UInt8) :
    text (c :: l) = text l := by
  simp [text, hc]

theorem text_other {c : UInt8} (hc : isNewline c = false) (l : List UInt8) :
    text (c :: l) = c :: text l := by
  simp [text, hc]

/-- The strings hold nothing but bytes of the contents, in their order. -/
theorem Reads.sublist (hsize : 0 < size) {rest : List UInt8} {strs : List (List UInt8)}
    (h : Reads size rest strs) : strs.flatten.Sublist (text rest) := by
  induction h with
  | eof => exact .slnil
  | @line rest left str strs hread hs ih =>
    rw [List.flatten_cons]
    cases streamReader_cut hsize hread with
    | last hline hlen =>
      rw [hline]
      cases hs with
      | eof =>
        exact (List.append_nil rest).symm ▸ .refl rest
      | line hread' => cases hread'
    | @newline _ left _ c hline hlen hc hleft =>
      rw [text_append, hline, text_newline hc]
      refine (List.Sublist.refl str).append (ih.trans ?_)
      rcases hleft with rfl | rfl
      · exact .refl _
      · exact text_newline hc left ▸ .refl _
    | @full _ _ c hline hlen hc =>
      rw [text_append, hline, text_other hc]
      exact (List.Sublist.refl str).append (ih.trans (List.sublist_cons_self ..))

theorem Reads.fits (hsize : 0 < size) {rest : List UInt8} {strs : List (List UInt8)}
    (h : Reads size rest strs) : ∀ str ∈ strs, str.length < size := by
  induction h with
  | eof => exact nofun
  | line hread hs ih =>
    intro str hstr
    rcases List.mem_cons.mp hstr with rfl | hstr
    · cases streamReader_cut hsize hread with
      | last hline hlen => exact hlen
      | newline hline hlen hc hleft => exact hlen
      | full hline hlen hc => omega
    · exact ih str hstr

theorem infix_split {run l l' : List UInt8} {c : UInt8} (h : run <:+: l ++ c :: l')
    (hc : c ∉ run) : run <:+: l ∨ run <:+: l' := by
  obtain h | h | ⟨l₁, l₂, rfl, hl₁, hl₂⟩ := List.infix_append_iff.mp h
  · exact .inl h
  · rcases List.infix_cons_iff.mp h with h | h
    · cases run with
      | nil => exact .inl List.nil_infix
      | cons d run =>
        obtain ⟨rfl, -⟩ := List.cons_prefix_cons.mp h
        exact absurd List.mem_cons_self hc
    · exact .inr h
  · cases l₂ with
    | nil =>
      rw [List.append_nil]
      exact .inl hl₁.isInfix
    | cons d l₂ =>
      obtain ⟨rfl, -⟩ := List.cons_prefix_cons.mp hl₂
      exact absurd (List.mem_append_right _ List.mem_cons_self) hc

theorem shortLines_newline {l left : List UInt8} {c : UInt8} (hlen : l.length < size)
    (hc : isNewline c = true) : ShortLines size (l ++ c :: left) ↔ ShortLines size left := by
  constructor
  · intro h run hrun
    refine h run (hrun.trans ?_)
    exact (List.suffix_append_of_suffix (List.suffix_cons c left)).isInfix
  · intro h run hrun hsize
    by_cases hmem : c ∈ run
    · exact ⟨c, hmem, hc⟩
    · rcases infix_split hrun hmem with hline | hleft
      · have := hline.length_le
        omega
      · exact h run hleft hsize

/-- **Nothing is lost exactly where no line is longer than the buffer.** -/
theorem Reads.lossless_iff (hsize : 0 < size) {rest : List UInt8} {strs : List (List UInt8)}
    (h : Reads size rest strs) : strs.flatten = text rest ↔ ShortLines size rest := by
  induction h with
  | eof =>
    refine ⟨fun _ run hrun hlen => ?_, fun _ => rfl⟩
    rw [List.infix_nil.mp hrun] at hlen
    exact absurd hlen (Nat.ne_of_lt hsize)
  | @line rest left str strs hread hs ih =>
    rw [List.flatten_cons]
    cases streamReader_cut hsize hread with
    | last hline hlen =>
      cases hs with
      | eof =>
        rw [hline, List.flatten_nil, List.append_nil]
        refine ⟨fun _ run hrun hrlen => ?_, fun _ => rfl⟩
        have := hrun.length_le
        omega
      | line hread' => cases hread'
    | @newline _ left _ c hline hlen hc hleft =>
      rw [text_append, hline, text_newline hc, List.append_cancel_left_eq,
        shortLines_newline hlen hc]
      rcases hleft with rfl | rfl
      · exact ih
      · rw [text_newline hc, ih]
        exact (shortLines_newline (l := []) hsize hc).symm
    | @full _ _ c hline hlen hc =>
      -- the byte at the cut is lost
      have hle := (hs.sublist hsize).length_le
      rw [text_append, hline, text_other hc, List.append_cancel_left_eq]
      constructor
      · intro heq
        rw [heq, List.length_cons] at hle
        omega
      · intro hshort
        obtain ⟨d, hd, hnl⟩ := hshort (str ++ [c]) ⟨[], left, by simp⟩ (by simpa using hlen)
        rcases List.mem_append.mp hd with hd | hd
        · rw [← hline] at hd
          simp [text, hnl] at hd
        · rw [List.mem_singleton.mp hd, hc] at hnl
          cases hnl

end Lossless

/-! ## The reader over the whole contents -/

section Drain

variable {mem : Buffer} {size : Nat} {ctx : StreamCtx}

theorem rest_of_left_le (h : ctx.left ≤ 0) : ctx.rest mem = [] := by
  rw [StreamCtx.rest, Int.toNat_of_nonpos h, List.take_zero]

theorem Drains.reads (hv : ctx.Valid mem) (hsize : 0 < size) {strs : List (List UInt8)}
    (h : Drains mem size ctx strs) : Reads size (ctx.rest mem) strs := by
  induction h with
  | @eof ctx h =>
    by_cases hleft : 0 < ctx.left
    · obtain ⟨str, ctx', hread, -⟩ := fileIniStreamReader_spec hv hsize hleft
      rw [h] at hread
      cases hread
    · rw [rest_of_left_le (by omega)]
      exact .eof
  | @line ctx ctx' str strs h hs ih =>
    have hleft : 0 < ctx.left := by
      by_contra hle
      rw [fileIniStreamReader, if_pos (by omega)] at h
      cases h
    obtain ⟨str', ctx'', hread, hv', hstream⟩ := fileIniStreamReader_spec hv hsize hleft
    rw [h] at hread
    cases hread
    exact .line hstream (ih hv')

theorem Reads.drains (hv : ctx.Valid mem) (hsize : 0 < size) {strs : List (List UInt8)}
    (h : Reads size (ctx.rest mem) strs) : Drains mem size ctx strs := by
  generalize hrest : ctx.rest mem = rest at h
  induction h generalizing ctx with
  | eof =>
    refine .eof ?_
    by_cases hleft : 0 < ctx.left
    · have hlen := hv.length_rest hleft
      rw [hrest, List.length_nil] at hlen
      omega
    · rw [fileIniStreamReader, if_pos (by omega)]
  | @line rest left str strs h hs ih =>
    have hleft : 0 < ctx.left := by
      by_contra hle
      rw [← hrest, rest_of_left_le (by omega)] at h
      cases h
    obtain ⟨str', ctx', hread, hv', hstream⟩ := fileIniStreamReader_spec hv hsize hleft
    rw [hrest, h] at hstream
    obtain ⟨rfl, hleft'⟩ := Prod.mk.inj (Option.some.inj hstream)
    exact .line hread (ih hv' hleft'.symm)

theorem valid_init (contents : CString) : (StreamCtx.init contents).Valid contents.bytes := by
  intro hpos
  have hle : (Int32.ofNat contents.bytes.length).toInt ≤ contents.bytes.length := by
    rw [Int32.toInt_ofNat', Int.bmod_def, show Int32.size = 2 ^ 32 from rfl]
    push_cast
    split <;> omega
  show 0 + (Int32.ofNat contents.bytes.length).toInt.toNat ≤ contents.bytes.length
  omega

theorem rest_init (contents : CString) :
    (StreamCtx.init contents).rest contents.bytes = contents.bytes.take (streamLeft contents) := rfl

theorem text_take_drop (n : Nat) (l strs : List UInt8) (h : strs.Sublist (text (l.take n))) :
    strs = text l ↔ strs = text (l.take n) ∧ ∀ c ∈ l.drop n, isNewline c = true := by
  have hsplit : text l = text (l.take n) ++ text (l.drop n) := by
    rw [← text_append, List.take_append_drop]
  have hnil : text (l.drop n) = [] ↔ ∀ c ∈ l.drop n, isNewline c = true := by
    simp [text]
  rw [hsplit, ← hnil]
  constructor
  · intro heq
    have hlen := h.length_le
    rw [heq, List.length_append] at hlen
    have hdrop : text (l.drop n) = [] := List.eq_nil_of_length_eq_zero (by omega)
    exact ⟨by rw [heq, hdrop, List.append_nil], hdrop⟩
  · rintro ⟨heq, hdrop⟩
    rw [hdrop, List.append_nil, heq]

end Drain

/-- `strlen` is an `int` here, and no line is longer than the buffer. -/
def ReadsWhole (contents : CString) : Prop :=
  ShortLines maxLine (contents.bytes.take (streamLeft contents)) ∧
    ∀ c ∈ contents.bytes.drop (streamLeft contents), isNewline c = true

/-- **The INI reader**: on every contents it comes to its end without an access outside of the
contents or of the buffer, the strings fit the buffer, and they are the contents without the
newlines exactly where `ReadsWhole` holds. -/
theorem reader_keeps_text_iff (contents : CString) :
    (∃ strs, Drains contents.bytes maxLine (.init contents) strs) ∧
      ∀ strs, Drains contents.bytes maxLine (.init contents) strs →
        (∀ str ∈ strs, str.length < maxLine) ∧
          (strs.flatten = text contents.bytes ↔ ReadsWhole contents) := by
  have hsize : 0 < maxLine := by decide
  have hv := valid_init contents
  constructor
  · exact ⟨_, (reads_readLines (Nat.lt_succ_self _)).drains hv hsize⟩
  · intro strs h
    have hs := h.reads hv hsize
    refine ⟨hs.fits hsize, ?_⟩
    rw [text_take_drop (streamLeft contents) contents.bytes _ (hs.sublist hsize), ReadsWhole]
    exact and_congr_left fun _ => hs.lossless_iff hsize

theorem long_line_loses {contents : CString} (hlen : contents.bytes.length = maxLine)
    (hline : ∀ c ∈ contents.bytes, isNewline c = false) :
    ∃ strs, Drains contents.bytes maxLine (.init contents) strs ∧
      strs.flatten ≠ text contents.bytes := by
  have hsize : 0 < maxLine := by decide
  have hleft : streamLeft contents = maxLine := by
    rw [streamLeft, hlen, Int32.toInt_ofNat_of_lt (by decide)]
    rfl
  have hrest : (StreamCtx.init contents).rest contents.bytes = contents.bytes := by
    rw [rest_init, hleft]
    exact List.take_of_length_le (Nat.le_of_eq hlen)
  have hs : Reads maxLine _ _ :=
    reads_readLines (Nat.lt_succ_self ((StreamCtx.init contents).rest contents.bytes).length)
  refine ⟨_, hs.drains (valid_init contents) hsize, fun heq => ?_⟩
  rw [hrest] at hs heq
  obtain ⟨c, hc, hnl⟩ := (hs.lossless_iff hsize).1 heq contents.bytes (List.infix_refl _) hlen
  rw [hline c hc] at hnl
  cases hnl

/-- A line of `INI_MAX_LINE` letters. -/
def longLine : CString := ⟨List.replicate maxLine 97, by simp [List.mem_replicate]⟩

/-- **A byte of a long line is lost.** -/
theorem longLine_loses_byte :
    ∃ strs, Drains longLine.bytes maxLine (.init longLine) strs ∧
      strs.flatten ≠ text longLine.bytes := by
  refine long_line_loses List.length_replicate fun c hc => ?_
  rw [List.eq_of_mem_replicate hc]
  decide

end VmodCfg.File.Ini
