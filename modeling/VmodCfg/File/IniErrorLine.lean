import VmodCfg.File.IniLines

/-!
# The number of the line with an error

`ini_parse_stream` counts what the reader hands out. The reader takes a newline that is doubled for
one, and CRLF for two; the number it reports is the number of the line in the text where both
happen equally often before it.
-/

namespace VmodCfg.File

open CString

namespace Ini

/-! ## The first malformed line -/

/-- Is there a previous name, after a line? -/
def prevAfter (hasPrev : Bool) : Line → Bool
  | .header _ => false
  | .pair name _ => (strncpy0 name maxName).bytes != []
  | _ => hasPrev

/-- The lines before the first malformed one, if there is one. -/
def beforeMalformed (first hasPrev : Bool) : List (List UInt8) → Option (List (List UInt8))
  | [] => none
  | line :: lines =>
    if classify first hasPrev line = .malformed then some []
    else
      (beforeMalformed false (prevAfter hasPrev (classify first hasPrev line)) lines).map (line :: ·)

/-- The lines of a text, where a line ends at LF, CRLF or a lone CR. -/
def physicalLines : List UInt8 → List (List UInt8)
  | [] => [[]]
  | 13 :: 10 :: t => [] :: physicalLines t
  | c :: t =>
    if isNewline c then [] :: physicalLines t else (physicalLines t).modifyHead (c :: ·)

def malformedLine (t : List UInt8) : Option Nat :=
  (beforeMalformed true false (physicalLines t)).map fun before => before.length + 1

/-- How many bytes some lines have, with a newline for each. -/
def sizeOfLines (lines : List (List UInt8)) : Nat := (lines.map fun line => line.length + 1).sum

def textBefore (t : List UInt8) : Option (List UInt8) :=
  (beforeMalformed true false (textLines t)).map fun before => t.take (sizeOfLines before)

def crlfPairs : List UInt8 → Nat
  | [] => 0
  | 13 :: 10 :: t => crlfPairs t + 1
  | _ :: t => crlfPairs t

/-- The newlines that are doubled, from the left; the line has `k` bytes so far, and the doubling is
not noticed where it fills the buffer. -/
def doubledNewlines (k : Nat) : List UInt8 → Nat
  | [] => 0
  | [_] => 0
  | c :: d :: t =>
    if isNewline c then
      if d = c ∧ k < maxLine - 1 then doubledNewlines 0 t + 1 else doubledNewlines 0 (d :: t)
    else doubledNewlines (k + 1) (d :: t)

/-! ## Line by line -/

section Lines

variable {first hasPrev : Bool} {line : List UInt8} {lines : List (List UInt8)}

theorem beforeMalformed_cons {before : List (List UInt8)}
    (h : beforeMalformed first hasPrev (line :: lines) = some before) :
    (classify first hasPrev line = .malformed ∧ before = []) ∨
      (classify first hasPrev line ≠ .malformed ∧ ∃ before', before = line :: before' ∧
        beforeMalformed false (prevAfter hasPrev (classify first hasPrev line)) lines =
          some before') := by
  rw [beforeMalformed] at h
  split at h
  · rename_i hline
    exact .inl ⟨hline, (Option.some.inj h).symm⟩
  · rename_i hline
    obtain ⟨before', hbefore, rfl⟩ := Option.map_eq_some_iff.mp h
    exact .inr ⟨hline, before', rfl, hbefore⟩

theorem beforeMalformed_malformed (h : classify first hasPrev line = .malformed) :
    beforeMalformed first hasPrev (line :: lines) = some [] := by
  rw [beforeMalformed, if_pos h]

theorem beforeMalformed_other (h : classify first hasPrev line ≠ .malformed) :
    beforeMalformed first hasPrev (line :: lines) =
      (beforeMalformed false (prevAfter hasPrev (classify first hasPrev line)) lines).map
        (line :: ·) := by
  rw [beforeMalformed, if_neg h]

theorem beforeMalformed_transfer (lines' : List (List UInt8)) {before : List (List UInt8)}
    (h : beforeMalformed first hasPrev (line :: lines) = some before) :
    (before = [] ∧ beforeMalformed first hasPrev (line :: lines') = some []) ∨
      ∃ hasPrev' after, before = line :: after ∧
        beforeMalformed false hasPrev' lines = some after ∧
        ∀ after', beforeMalformed false hasPrev' lines' = some after' →
          beforeMalformed first hasPrev (line :: lines') = some (line :: after') := by
  rcases beforeMalformed_cons h with ⟨hmal, rfl⟩ | ⟨hmal, after, rfl, hafter⟩
  · exact .inl ⟨rfl, beforeMalformed_malformed hmal⟩
  · refine .inr ⟨_, after, rfl, hafter, fun after' hafter' => ?_⟩
    rw [beforeMalformed_other hmal, hafter']
    rfl

theorem beforeMalformed_empty :
    beforeMalformed first hasPrev ([] :: lines) =
      (beforeMalformed false hasPrev lines).map ([] :: ·) := by
  have hne : classify first hasPrev [] ≠ .malformed := by
    rw [classify_nil]
    decide
  rw [beforeMalformed_other hne, classify_nil]
  rfl

@[simp] theorem sizeOfLines_cons :
    sizeOfLines (line :: lines) = line.length + 1 + sizeOfLines lines := rfl

theorem take_sizeOfLines (c : UInt8) (left : List UInt8) :
    (line ++ c :: left).take (sizeOfLines (line :: lines)) =
      line ++ c :: left.take (sizeOfLines lines) := by
  rw [sizeOfLines_cons, Nat.add_assoc, List.take_length_add_append, Nat.add_comm 1]
  rfl

end Lines

/-! ## The lines of the text -/

theorem physicalLines_line {line : List UInt8} (h : NoNewline line) :
    physicalLines line = [line] := by
  induction line with
  | nil => rfl
  | cons c line ih =>
    obtain ⟨hc, hline⟩ := List.forall_mem_cons.mp h
    rw [physicalLines, if_neg (by rw [hc]; decide), ih hline]
    · rfl
    · rintro t rfl
      cases hc

theorem physicalLines_append {line : List UInt8} (h : NoNewline line) (t : List UInt8) :
    physicalLines (line ++ t) = (physicalLines t).modifyHead (line ++ ·) := by
  induction line with
  | nil =>
    rw [List.nil_append]
    cases physicalLines t <;> rfl
  | cons c line ih =>
    obtain ⟨hc, hline⟩ := List.forall_mem_cons.mp h
    rw [List.cons_append, physicalLines, if_neg (by rw [hc]; decide), ih hline]
    · cases physicalLines t <;> rfl
    · rintro t rfl
      cases hc

theorem physicalLines_crlf {line : List UInt8} (h : NoNewline line) (t : List UInt8) :
    physicalLines (line ++ 13 :: 10 :: t) = line :: physicalLines t := by
  rw [physicalLines_append h, physicalLines, List.modifyHead_cons, List.append_nil]

theorem physicalLines_newline {line : List UInt8} (h : NoNewline line) {c : UInt8}
    (hc : isNewline c = true) {t : List UInt8} (hcrlf : c = 13 → t.head? ≠ some 10) :
    physicalLines (line ++ c :: t) = line :: physicalLines t := by
  rw [physicalLines_append h, physicalLines, if_pos hc, List.modifyHead_cons, List.append_nil]
  rintro t rfl rfl
  exact hcrlf rfl rfl

theorem exists_physicalLine (t : List UInt8) :
    NoNewline t ∨ (∃ line left, t = line ++ 13 :: 10 :: left ∧ NoNewline line) ∨
      ∃ line c left, t = line ++ c :: left ∧ NoNewline line ∧ isNewline c = true ∧
        (c = 13 → left.head? ≠ some 10) := by
  rcases exists_line t with hline | ⟨line, c, left, rfl, hline, hc⟩
  · exact .inl hline
  · by_cases hcrlf : c = 13 ∧ left.head? = some 10
    · obtain ⟨rfl, hleft⟩ := hcrlf
      obtain ⟨left, rfl⟩ := List.head?_eq_some_iff.mp hleft
      exact .inr (.inl ⟨line, left, rfl, hline⟩)
    · exact .inr (.inr ⟨line, c, left, rfl, hline, hc, fun hc' hleft => hcrlf ⟨hc', hleft⟩⟩)

theorem crlfPairs_append {line : List UInt8} (h : NoNewline line) (t : List UInt8) :
    crlfPairs (line ++ t) = crlfPairs t := by
  induction line with
  | nil => rfl
  | cons c line ih =>
    obtain ⟨hc, hline⟩ := List.forall_mem_cons.mp h
    rw [List.cons_append, crlfPairs, ih hline]
    rintro t rfl
    cases hc

theorem crlfPairs_newline {c : UInt8} {t : List UInt8} (hcrlf : c = 13 → t.head? ≠ some 10) :
    crlfPairs (c :: t) = crlfPairs t := by
  rw [crlfPairs]
  rintro t rfl rfl
  exact hcrlf rfl rfl

theorem head?_take {t : List UInt8} {c : UInt8} (h : t.head? ≠ some c) (n : Nat) :
    (t.take n).head? ≠ some c := by
  rw [List.head?_take]
  split
  · simp
  · exact h

/-- The first malformed line of the text is the one that is found where every newline byte ends a
line, but for the CRLF pairs before it. -/
theorem beforeMalformed_physicalLines (first hasPrev : Bool) (t : List UInt8)
    {before : List (List UInt8)}
    (h : beforeMalformed first hasPrev (textLines t) = some before) :
    ∃ before', beforeMalformed first hasPrev (physicalLines t) = some before' ∧
      before'.length + crlfPairs (t.take (sizeOfLines before)) = before.length := by
  induction hn : t.length using Nat.strongRecOn generalizing first hasPrev t before with
  | ind n ih =>
    have hshorter : ∀ {line left : List UInt8} {c : UInt8}, t = line ++ c :: left →
        left.length < n := by
      rintro line left c rfl
      rw [← hn, List.length_append, List.length_cons]
      omega
    rcases exists_physicalLine t with
      hline | ⟨line, left, rfl, hline⟩ | ⟨line, c, left, rfl, hline, hc, hone⟩
    · rw [textLines_line hline] at h
      rw [physicalLines_line hline]
      refine ⟨before, h, ?_⟩
      rcases beforeMalformed_cons h with ⟨-, rfl⟩ | ⟨-, before', -, hnone⟩
      · rfl
      · cases hnone
    · -- between the two bytes there is an empty line, which is not one of the text
      rw [textLines_newline hline rfl, ← List.nil_append (10 :: left),
        textLines_newline (List.forall_mem_nil _) rfl] at h
      rw [physicalLines_crlf hline]
      rcases beforeMalformed_transfer (physicalLines left) h with
        ⟨rfl, hnone⟩ | ⟨hasPrev', after, rfl, hafter, hnext⟩
      · exact ⟨[], hnone, rfl⟩
      · rw [beforeMalformed_empty] at hafter
        obtain ⟨after', hafter', rfl⟩ := Option.map_eq_some_iff.mp hafter
        have hlt := hshorter (List.append_cons line 13 (10 :: left))
        obtain ⟨before', hbefore', hlen⟩ := ih left.length hlt _ _ left hafter' rfl
        refine ⟨line :: before', hnext _ hbefore', ?_⟩
        rw [take_sizeOfLines, crlfPairs_append hline, ← List.nil_append (10 :: left),
          take_sizeOfLines]
        simp only [List.nil_append, crlfPairs, List.length_cons]
        omega
    · rw [textLines_newline hline hc] at h
      rw [physicalLines_newline hline hc hone]
      rcases beforeMalformed_transfer (physicalLines left) h with
        ⟨rfl, hnone⟩ | ⟨hasPrev', after, rfl, hafter, hnext⟩
      · exact ⟨[], hnone, rfl⟩
      · obtain ⟨before', hbefore', hlen⟩ := ih left.length (hshorter rfl) _ _ left hafter rfl
        refine ⟨line :: before', hnext _ hbefore', ?_⟩
        rw [take_sizeOfLines, crlfPairs_append hline,
          crlfPairs_newline fun hc' => head?_take (hone hc') _]
        simp only [List.length_cons]
        omega

/-! ## The lines that are read -/

theorem doubledNewlines_append {line : List UInt8} (h : NoNewline line) (k : Nat) (c : UInt8)
    (t : List UInt8) :
    doubledNewlines k (line ++ c :: t) = doubledNewlines (k + line.length) (c :: t) := by
  induction line generalizing k with
  | nil => rfl
  | cons d line ih =>
    obtain ⟨hd, hline⟩ := List.forall_mem_cons.mp h
    have hstep : doubledNewlines k (d :: (line ++ c :: t)) =
        doubledNewlines (k + 1) (line ++ c :: t) := by
      obtain ⟨e, u, hu⟩ := List.exists_cons_of_ne_nil (show line ++ c :: t ≠ [] by simp)
      rw [hu, doubledNewlines, if_neg (by rw [hd]; decide)]
    rw [List.cons_append, hstep, ih hline, List.length_cons, Nat.add_assoc, Nat.add_comm 1]

theorem doubledNewlines_one {c : UInt8} (hc : isNewline c = true) {k : Nat} {t : List UInt8}
    (h : k < maxLine - 1 → t.head? ≠ some c) :
    doubledNewlines k (c :: t) = doubledNewlines 0 t := by
  cases t with
  | nil => rfl
  | cons d t =>
    rw [doubledNewlines, if_pos hc, if_neg]
    rintro ⟨rfl, hk⟩
    exact h hk rfl

theorem doubledNewlines_two {c : UInt8} (hc : isNewline c = true) {k : Nat} (hk : k < maxLine - 1)
    (t : List UInt8) : doubledNewlines k (c :: c :: t) = doubledNewlines 0 t + 1 := by
  rw [doubledNewlines, if_pos hc, if_pos ⟨rfl, hk⟩]

/-- The first malformed line that is read is the one that is found where every newline byte ends a
line, but for the doubled newlines before it. -/
theorem beforeMalformed_reads {rest : List UInt8} {strs : List (List UInt8)}
    (h : Reads maxLine rest strs) (hshort : ShortLines maxLine rest) (first hasPrev : Bool)
    {before : List (List UInt8)} (hstrs : beforeMalformed first hasPrev strs = some before) :
    ∃ before', beforeMalformed first hasPrev (textLines rest) = some before' ∧
      before.length + doubledNewlines 0 (rest.take (sizeOfLines before')) = before'.length := by
  induction h generalizing first hasPrev before with
  | eof => cases hstrs
  | @line rest left str strs hread hs ih =>
    have hstep := readStep_of_streamReader (by decide) hshort hread
    have hleft := hstep.shortLines hshort
    cases hstep with
    | last hline =>
      rw [textLines_line hline]
      rcases beforeMalformed_cons hstrs with ⟨hmal, rfl⟩ | ⟨-, before', -, hnone⟩
      · exact ⟨[], beforeMalformed_malformed hmal, rfl⟩
      · cases hs with
        | eof => cases hnone
        | line hread' => cases hread'
    | @one _ _ c hline hc hone =>
      rw [textLines_newline hline hc]
      rcases beforeMalformed_transfer (textLines left) hstrs with
        ⟨rfl, hnone⟩ | ⟨hasPrev', after, rfl, hafter, hnext⟩
      · exact ⟨[], hnone, rfl⟩
      · obtain ⟨before', hbefore', hlen⟩ := ih hleft _ _ hafter
        refine ⟨str :: before', hnext _ hbefore', ?_⟩
        rw [take_sizeOfLines, doubledNewlines_append hline, Nat.zero_add,
          doubledNewlines_one hc fun hlt => head?_take (hone hlt) _]
        simp only [List.length_cons]
        omega
    | @doubled _ _ c hline hc hlt =>
      rw [textLines_newline hline hc, ← List.nil_append (c :: left),
        textLines_newline (List.forall_mem_nil _) hc]
      rcases beforeMalformed_transfer ([] :: textLines left) hstrs with
        ⟨rfl, hnone⟩ | ⟨hasPrev', after, rfl, hafter, hnext⟩
      · exact ⟨[], hnone, rfl⟩
      · obtain ⟨before', hbefore', hlen⟩ := ih hleft _ _ hafter
        refine ⟨str :: [] :: before', hnext _ ?_, ?_⟩
        · rw [beforeMalformed_empty, hbefore']
          rfl
        · rw [take_sizeOfLines, take_sizeOfLines, List.nil_append, doubledNewlines_append hline,
            Nat.zero_add, doubledNewlines_two hc hlt]
          simp only [List.length_cons]
          omega

/-! ## The error of the parser -/

section Error

variable {cfg : FileCfg} {st : State Variables}

theorem context_next_hasPrev (c : Context) (line : List UInt8) :
    ((c.next line).prevName.bytes != []) =
      prevAfter (c.prevName.bytes != []) (c.classify line) := by
  rw [Context.next]
  cases c.classify line <;> rfl

theorem context_next_lineno (c : Context) (line : List UInt8) :
    (c.next line).lineno = c.lineno + 1 := by
  rw [Context.next]
  split <;> rfl

theorem error_of_parseLines (herr : st.error = 0) {st' : State Variables} (hne : st'.error ≠ 0)
    {fuel : Nat} {rest : List UInt8}
    (h : parseLines (fileParseIniHandler cfg) fuel st rest = some st') :
    ∃ before, beforeMalformed (st.context.lineno + 1 == 1) (st.context.prevName.bytes != [])
        (readLines maxLine fuel rest) = some before ∧
      st'.error = st.context.lineno + before.length + 1 := by
  induction fuel generalizing st rest with
  | zero =>
    cases h
    exact absurd herr hne
  | succ fuel ih =>
    unfold parseLines at h
    unfold readLines
    cases hread : streamReader maxLine rest with
    | none =>
      rw [hread] at h
      cases h
      exact absurd herr hne
    | some x =>
      obtain ⟨line, left⟩ := x
      rw [hread] at h
      simp only at h ⊢
      cases parseLine_step cfg herr line with
      | malformed hline _ =>
        rw [parseLine_malformed herr hline] at h
        cases h
        exact ⟨[], beforeMalformed_malformed hline, rfl⟩
      | read hline _ hst =>
        obtain ⟨st₁, hst₁, hzero, hnext⟩ := hst
        rw [hst₁] at h
        simp only [hzero, ne_eq, not_true, if_false] at h
        obtain ⟨before, hbefore, herror⟩ := ih hzero h
        have hfirst : (st.context.lineno + 1 + 1 == 1) = false := by simp
        rw [hnext, context_next_lineno, hfirst, context_next_hasPrev] at hbefore
        rw [hnext, context_next_lineno] at herror
        refine ⟨line :: before, ?_, ?_⟩
        · rw [beforeMalformed_other hline]
          exact congrArg (Option.map (line :: ·)) hbefore
        · rw [herror, List.length_cons]
          omega
      | panics _ _ hnone =>
        rw [hnone] at h
        cases h

end Error

/-! ## The number that is reported -/

section Number

/-- Before the first malformed line of what is read, there are as many doubled newlines as CRLF
pairs; where not all of the contents are read, this makes up for a line that has another number. -/
def NumbersAgree (contents : CString) : Prop :=
  ∀ before k, textBefore (readText contents) = some before →
    malformedLine (readText contents) = some k →
      ∃ m, malformedLine contents.bytes = some m ∧
        m + doubledNewlines 0 before = k + crlfPairs before

/-- Where the length is an `int`, the condition is about the two numbers. -/
theorem numbersAgree_iff_of_short {contents : CString} (h : contents.bytes.length < 2 ^ 31) :
    NumbersAgree contents ↔
      ∀ before, textBefore contents.bytes = some before →
        doubledNewlines 0 before = crlfPairs before := by
  unfold NumbersAgree
  rw [readText_of_short h]
  constructor
  · intro hagree before hbefore
    obtain ⟨lines, hlines, -⟩ := Option.map_eq_some_iff.mp hbefore
    obtain ⟨lines', hlines', -⟩ := beforeMalformed_physicalLines _ _ _ hlines
    have hk : malformedLine contents.bytes = some (lines'.length + 1) := by
      rw [malformedLine, hlines']
      rfl
    obtain ⟨m, hm, heq⟩ := hagree before _ hbefore hk
    rw [hk] at hm
    cases hm
    omega
  · intro hequal before k hbefore hk
    exact ⟨k, hk, by rw [hequal before hbefore]⟩

theorem error_line_eq {cfg : FileCfg} {contents : CString}
    (hshort : ShortLines maxLine contents.bytes) {n : Nat} {vars : Variables}
    (h : parseStream (fileParseIniHandler cfg) ∅ (readText contents) = some (n, vars))
    (hn : n ≠ 0) :
    ∃ before k, textBefore (readText contents) = some before ∧
      malformedLine (readText contents) = some k ∧
      n + doubledNewlines 0 before = k + crlfPairs before := by
  obtain ⟨st, hparse, heq⟩ := Option.map_eq_some_iff.mp h
  cases heq
  have hread := shortLines_readText hshort
  obtain ⟨strs, hstrs, herror⟩ := error_of_parseLines rfl hn hparse
  obtain ⟨lines, hlines, hdoubled⟩ :=
    beforeMalformed_reads (reads_readLines (Nat.lt_succ_self _)) hread _ _ hstrs
  obtain ⟨lines', hlines', hcrlf⟩ := beforeMalformed_physicalLines _ _ _ hlines
  have hbefore : textBefore (readText contents) =
      some ((readText contents).take (sizeOfLines lines)) := by
    rw [textBefore]
    exact congrArg (Option.map _) hlines
  have hk : malformedLine (readText contents) = some (lines'.length + 1) := by
    rw [malformedLine]
    exact congrArg (Option.map _) hlines'
  have hzero : (State.init (∅ : Variables)).context.lineno = 0 := rfl
  refine ⟨_, _, hbefore, hk, ?_⟩
  omega

/-- **An error points at the right line exactly when** there are as many doubled newlines as CRLF
pairs before that line. -/
theorem error_line_iff (cfg : FileCfg) {contents : CString}
    (hshort : ShortLines maxLine contents.bytes) {n : Nat} {vars : Variables}
    (h : parseStream (fileParseIniHandler cfg) ∅ (readText contents) = some (n, vars))
    (hn : n ≠ 0) :
    malformedLine contents.bytes = some n ↔ NumbersAgree contents := by
  obtain ⟨before, k, hbefore, hk, heq⟩ := error_line_eq hshort h hn
  constructor
  · intro hline before' k' hbefore' hk'
    rw [hbefore] at hbefore'
    rw [hk] at hk'
    cases hbefore'
    cases hk'
    exact ⟨n, hline, heq⟩
  · intro hagree
    obtain ⟨m, hm, hmk⟩ := hagree before k hbefore hk
    rw [hm, show m = n by omega]

theorem error_line_second :
    ShortLines maxLine (CString.ofBytes [97, 61, 49, 10, 98]).bytes ∧
    (malformedLine (CString.ofBytes [97, 61, 49, 10, 98]).bytes = some 2 ↔
      NumbersAgree (.ofBytes [97, 61, 49, 10, 98])) := by
  have hshort : ShortLines maxLine (CString.ofBytes [97, 61, 49, 10, 98]).bytes := by
    intro run hrun hlen
    have hle := hrun.length_le
    rw [hlen] at hle
    exact absurd hle (by decide)
  exact ⟨hshort, @error_line_iff ⟨.ofBytes [58], .ofBytes [59]⟩ _ hshort 2
    (.ofList [(.ofBytes [97], .ofBytes [49])] _) (by decide +kernel) (by decide)⟩

/-- A blank line between LFs is not counted, and a line that ends at CRLF is counted twice. -/
theorem error_line_off :
    (∃ vars, parseStream (fileParseIniHandler ⟨.ofBytes [58], .ofBytes [59]⟩) ∅
        (readText (.ofBytes [97, 61, 49, 10, 10, 98])) = some (2, vars)) ∧
      malformedLine (CString.ofBytes [97, 61, 49, 10, 10, 98]).bytes = some 3 ∧
    (∃ vars, parseStream (fileParseIniHandler ⟨.ofBytes [58], .ofBytes [59]⟩) ∅
        (readText (.ofBytes [97, 61, 49, 13, 10, 98])) = some (3, vars)) ∧
      malformedLine (CString.ofBytes [97, 61, 49, 13, 10, 98]).bytes = some 2 := by
  refine ⟨⟨.ofList [(.ofBytes [97], .ofBytes [49])] _, ?_⟩, ?_,
    ⟨.ofList [(.ofBytes [97], .ofBytes [49])] _, ?_⟩, ?_⟩
  all_goals decide +kernel

end Number

end Ini

end VmodCfg.File
