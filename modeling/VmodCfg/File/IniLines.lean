import VmodCfg.File.IniSafety

/-!
# The lines of a text, and the lines that are read

In `textLines` every newline byte ends a line. Where the lines fit the buffer, what the reader hands
out are these lines, but for empty ones: a newline that is doubled ends one line.
-/

namespace VmodCfg.File.Ini

def NoNewline (line : List UInt8) : Prop := ∀ c ∈ line, isNewline c = false

/-- The lines of a text, where every newline byte ends one. -/
def textLines (t : List UInt8) : List (List UInt8) := t.splitOnP isNewline

theorem textLines_line {line : List UInt8} (h : NoNewline line) : textLines line = [line] :=
  List.splitOnP_eq_singleton h

theorem textLines_newline {line : List UInt8} (h : NoNewline line) {c : UInt8}
    (hc : isNewline c = true) (left : List UInt8) :
    textLines (line ++ c :: left) = line :: textLines left :=
  List.splitOnP_append_cons_of_forall_mem h c hc left

theorem exists_line (t : List UInt8) :
    NoNewline t ∨ ∃ line c left, t = line ++ c :: left ∧ NoNewline line ∧ isNewline c = true := by
  induction t with
  | nil => exact .inl (List.forall_mem_nil _)
  | cons d t ih =>
    cases hd : isNewline d with
    | true => exact .inr ⟨[], d, t, rfl, List.forall_mem_nil _, hd⟩
    | false =>
      rcases ih with h | ⟨line, c, left, rfl, hline, hc⟩
      · exact .inl (List.forall_mem_cons.mpr ⟨hd, h⟩)
      · exact .inr ⟨d :: line, c, left, rfl, List.forall_mem_cons.mpr ⟨hd, hline⟩, hc⟩

/-- One call of the reader: the last line, a line with its newline, or a line with its newline
doubled, which is not noticed where the line fills the buffer. -/
inductive ReadStep (size : Nat) : List UInt8 → List UInt8 → List UInt8 → Prop
  | last {line} (hline : NoNewline line) : ReadStep size line line []
  | one {line left} {c : UInt8} (hline : NoNewline line) (hc : isNewline c = true)
      (hleft : line.length < size - 1 → left.head? ≠ some c) :
      ReadStep size (line ++ c :: left) line left
  | doubled {line left} {c : UInt8} (hline : NoNewline line) (hc : isNewline c = true)
      (hlen : line.length < size - 1) : ReadStep size (line ++ c :: c :: left) line left

theorem noNewline_lineOf (n : Nat) (l : List UInt8) : NoNewline (lineOf n l) := by
  intro c hc
  simpa using List.mem_takeWhile_imp (p := fun c => !isNewline c) hc

theorem readStep_of_streamReader {size : Nat} (hsize : 0 < size) {rest str left : List UInt8}
    (hshort : ShortLines size rest) (h : streamReader size rest = some (str, left)) :
    ReadStep size rest str left := by
  have hne : rest ≠ [] := by
    rintro rfl
    cases h
  rw [streamReader_eq hne] at h
  obtain ⟨rfl, rfl⟩ := Prod.mk.inj (Option.some.inj h)
  have hline := noNewline_lineOf (size - 1) rest
  have hlen := (lineOf_length_le (size - 1) rest).trans (Nat.min_le_left _ _)
  obtain ⟨tail, htail⟩ := lineOf_isPrefix (size - 1) rest
  have hnl := fun c => newlineOf_isNewline (n := size - 1) (l := rest) (c := c)
  unfold leftOf newlineOf at *
  generalize lineOf (size - 1) rest = line at *
  subst htail
  cases tail with
  | nil =>
    simp only [List.append_nil, List.getElem?_eq_none (Nat.le_refl _), ite_self, Option.isSome_none,
      Bool.false_and, Bool.false_eq_true, if_false, List.drop_eq_nil_of_le (Nat.le_succ _)]
    exact .last hline
  | cons c tail =>
    have hget : (line ++ c :: tail)[line.length]? = some c := by simp
    have hdrop : (line ++ c :: tail).drop (line.length + 1) = tail := by simp
    rw [hget] at hnl
    rw [hget, hdrop]
    by_cases hlt : line.length < size - 1
    · simp only [if_pos hlt, Option.isSome_some, Bool.true_and] at hnl ⊢
      by_cases hhead : tail.head? = some c
      · obtain ⟨tail, rfl⟩ := List.head?_eq_some_iff.mp hhead
        simp only [List.head?_cons, beq_self_eq_true, if_true, List.tail_cons]
        exact .doubled hline (hnl c rfl) hlt
      · rw [if_neg (by simpa using hhead)]
        exact .one hline (hnl c rfl) fun _ => hhead
    · simp only [if_neg hlt, Option.isSome_none, Bool.false_and, Bool.false_eq_true, if_false]
      -- the byte at the cut is a newline, as the line is not too long
      obtain ⟨d, hd, hdnl⟩ := hshort (line ++ [c]) ⟨[], tail, by simp⟩ (by simp; omega)
      have hc : isNewline c = true := by
        rcases List.mem_append.mp hd with hd | hd
        · rw [hline d hd] at hdnl
          cases hdnl
        · rwa [← List.mem_singleton.mp hd]
      exact .one hline hc fun hlt' => absurd hlt' hlt

theorem ReadStep.shortLines {size : Nat} {rest str left : List UInt8}
    (h : ReadStep size rest str left) (hshort : ShortLines size rest) : ShortLines size left := by
  have hsuffix : left <:+ rest := by
    cases h with
    | last => exact List.nil_suffix
    | @one line left c => exact List.suffix_append_of_suffix (List.suffix_cons c left)
    | @doubled line left c =>
      exact List.suffix_append_of_suffix ((List.suffix_cons c left).trans (List.suffix_cons c _))
  intro run hrun
  exact hshort run (hrun.trans hsuffix.isInfix)

/-! ## What is read of the contents -/

/-- The bytes that `file_parse_ini` has read: their number is stored in an `int`. -/
def readText (contents : CString) : List UInt8 := contents.bytes.take (streamLeft contents)

theorem readText_of_short {contents : CString} (h : contents.bytes.length < 2 ^ 31) :
    readText contents = contents.bytes := by
  have hint : (Int32.ofNat contents.bytes.length).toInt = contents.bytes.length :=
    Int32.toInt_ofNat_of_lt h
  have hleft : streamLeft contents = contents.bytes.length := by
    rw [streamLeft, hint, Int.toNat_natCast]
  rw [readText, hleft, List.take_length]

theorem shortLines_readText {size : Nat} {contents : CString}
    (h : ShortLines size contents.bytes) : ShortLines size (readText contents) := by
  intro run hrun
  exact h run (hrun.trans (List.take_prefix _ _).isInfix)

/-! ## Empty lines -/

theorem classify_nil (first hasPrev : Bool) : classify first hasPrev [] = .skipped := by
  cases first <;> rfl

end VmodCfg.File.Ini
