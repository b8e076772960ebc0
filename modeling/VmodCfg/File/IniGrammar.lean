import VmodCfg.File.IniErrorLine
import VmodCfg.File.IniKeys

/-!
# The grammar of INI files

The lines of an INI file, as they are written: blank ones and comments, headers of sections, names
with a value, and indented lines that go on with the value before them, the latter two with inline
comments. A line is written in one of these ways exactly if the parser does not find it malformed,
and then it says what the parser reads.
-/

namespace VmodCfg.File

open CString

namespace Ini

/-! ## The grammar -/

def Blank (w : List UInt8) : Prop := ∀ c ∈ w, isspace c = true

def Trimmed (t : List UInt8) : Prop :=
  (∀ c ∈ t.head?, isspace c = false) ∧ ∀ c ∈ t.getLast?, isspace c = false

/-- No `;` follows white space. -/
def Uncommented : Bool → List UInt8 → Prop
  | _, [] => True
  | wasSpace, c :: s => ¬ (wasSpace = true ∧ c = 59) ∧ Uncommented (isspace c) s

instance (w : List UInt8) : Decidable (Blank w) := List.decidableBAll _ w

instance (t : List UInt8) : Decidable (Trimmed t) :=
  have := Option.decidableForallMem (p := fun c => isspace c = false) t.head?
  have := Option.decidableForallMem (p := fun c => isspace c = false) t.getLast?
  inferInstanceAs (Decidable (_ ∧ _))

instance (wasSpace : Bool) (t : List UInt8) : Decidable (Uncommented wasSpace t) :=
  match t with
  | [] => isTrue trivial
  | c :: s =>
    have := instDecidableUncommented (isspace c) s
    inferInstanceAs (Decidable (_ ∧ _))

/-- What may follow a value: white space, and an inline comment. -/
inductive Tail : List UInt8 → Prop
  | blank {w} (hw : Blank w) : Tail w
  | comment {w c} (hw : Blank w) (hc : isspace c = true) (s : List UInt8) : Tail (w ++ c :: 59 :: s)

/-- A name: it is split off at the first `=` or `:`, and may be empty. -/
structure Name (t : List UInt8) : Prop where
  trimmed : Trimmed t
  plain : ∀ c ∈ t, c ≠ 61 ∧ c ≠ 58
  uncommented : Uncommented false t
  first : ∀ c ∈ t.head?, c ≠ 59 ∧ c ≠ 35 ∧ c ≠ 91

/-- A value, as it follows white space or not. -/
structure Value (wasSpace : Bool) (t : List UInt8) : Prop where
  trimmed : Trimmed t
  uncommented : Uncommented wasSpace t

/-- How lines are written. After a name with a value, only lines that go on with the value are
indented. -/
inductive Written : Bool → List UInt8 → Line → Prop
  | blank {hasPrev w} (hw : Blank w) : Written hasPrev w .skipped
  | comment {hasPrev w c} (hw : Blank w) (hc : c = 59 ∨ c = 35) (s : List UInt8) :
    Written hasPrev (w ++ c :: s) .skipped
  | header {hasPrev w name} (hw : Blank w) (hprev : hasPrev = true → w = [])
      (hname : 93 ∉ name) (hplain : Uncommented false name) (s : List UInt8) :
    Written hasPrev (w ++ 91 :: (name ++ 93 :: s)) (.header name)
  | pair {hasPrev w name w' d w'' value tail} (hw : Blank w) (hprev : hasPrev = true → w = [])
      (hname : Name name) (hw' : Blank w') (hempty : name = [] → w' = [])
      (hd : d = 61 ∨ d = 58) (hw'' : Blank w'') (hvalue : Value (w'' != []) value) (htail : Tail tail) :
    Written hasPrev (w ++ (name ++ (w' ++ d :: (w'' ++ (value ++ tail))))) (.pair name value)
  | continuation {w value tail} (hw : Blank w) (hne : w ≠ []) (hvalue : Value false value)
      (hfirst : ∃ c s, value = c :: s ∧ c ≠ 59 ∧ c ≠ 35) (htail : Tail tail) :
    Written true (w ++ (value ++ tail)) (.continuation value)

/-- What the lines of a file say, in a section and after a name. -/
inductive Lines : CString → CString → List (List UInt8) → List IniEntry → Prop
  | nil {sect prev} : Lines sect prev [] []
  | skipped {sect prev line lines es} (hline : Written (prev.bytes != []) line .skipped)
      (h : Lines sect prev lines es) : Lines sect prev (line :: lines) es
  | header {sect prev line name lines es} (hline : Written (prev.bytes != []) line (.header name))
      (h : Lines (.ofBytes name) .empty lines es) : Lines sect prev (line :: lines) es
  | pair {sect prev line name value lines es}
      (hline : Written (prev.bytes != []) line (.pair name value))
      (h : Lines sect (.ofBytes name) lines es) :
    Lines sect prev (line :: lines) (⟨sect, .ofBytes name, .ofBytes value, false⟩ :: es)
  | continuation {sect prev line value lines es}
      (hline : Written (prev.bytes != []) line (.continuation value))
      (h : Lines sect prev lines es) :
    Lines sect prev (line :: lines) (⟨sect, prev, .ofBytes value, true⟩ :: es)

/-- The contents of an INI file, maybe with a byte order mark, and their lines with a value. -/
inductive Document : List UInt8 → List IniEntry → Prop
  | mk (marked : Bool) {t es} (hmark : marked = false → ¬ bom <+: t)
      (h : Lines .empty .empty (textLines t) es) :
    Document ((if marked then bom else []) ++ t) es

/-! ## White space -/

theorem lskip_blank {w : List UInt8} (hw : Blank w) (s : List UInt8) :
    lskip (w ++ s) = lskip s := List.dropWhile_append_of_pos hw

theorem rstrip_blank {w : List UInt8} (hw : Blank w) : rstrip w = [] := by
  unfold rstrip
  rw [List.dropWhile_eq_nil_iff.mpr fun c hc => hw c (List.mem_reverse.mp hc)]
  rfl

theorem rstrip_trimmed {t : List UInt8} (ht : Trimmed t) : rstrip t = t := by
  have hlast : t.reverse.dropWhile isspace = t.reverse := by
    cases hrev : t.reverse with
    | nil => rfl
    | cons c s =>
      rw [List.dropWhile_cons_of_neg]
      rw [ht.2 c (by rw [← List.head?_reverse, hrev]; rfl)]
      exact Bool.false_ne_true
  rw [rstrip, hlast, List.reverse_reverse]

/-- What ends with a byte that is no white space keeps its white space. -/
theorem rstrip_concat {c : UInt8} (hc : isspace c = false) (s t : List UInt8) :
    rstrip (s ++ c :: t) = s ++ c :: rstrip t := by
  have hself : rstrip (s ++ [c]) = s ++ [c] := by
    unfold rstrip
    rw [List.reverse_append, List.reverse_singleton, List.singleton_append,
      List.dropWhile_cons_of_neg (by simp [hc])]
    simp
  have happend := rstrip_append hself t
  simpa only [List.append_assoc, List.singleton_append] using happend

theorem strip_around {w v w' : List UInt8} (hw : Blank w) (hv : Trimmed v) (hw' : Blank w') :
    rstrip (lskip (w ++ (v ++ w'))) = v := by
  rw [lskip_blank hw]
  cases v with
  | nil =>
    rw [List.nil_append, lskip, List.dropWhile_eq_nil_iff.mpr hw']
    rfl
  | cons c s =>
    have hskip : lskip (c :: s ++ w') = c :: s ++ w' := by
      rw [List.cons_append, lskip, List.dropWhile_cons_of_neg (by rw [hv.1 c rfl]; simp)]
    rw [hskip, rstrip_append (rstrip_trimmed hv), rstrip_blank hw', List.append_nil]

/-! ## Where the parser stops -/

/-- Was the last byte white space? -/
def spaceAfter (wasSpace : Bool) : List UInt8 → Bool
  | [] => wasSpace
  | c :: s => spaceAfter (isspace c) s

theorem spaceAfter_concat (wasSpace : Bool) (s : List UInt8) (c : UInt8) :
    spaceAfter wasSpace (s ++ [c]) = isspace c := by
  induction s generalizing wasSpace with
  | nil => rfl
  | cons d s ih => exact ih _

theorem spaceAfter_blank {w : List UInt8} (hw : Blank w) :
    spaceAfter false w = (w != []) := by
  rcases List.eq_nil_or_concat w with rfl | ⟨s, c, rfl⟩
  · rfl
  · rw [List.concat_eq_append] at hw ⊢
    rw [spaceAfter_concat, hw c (by simp)]
    simp

theorem Uncommented.append {wasSpace : Bool} {s t : List UInt8} (hs : Uncommented wasSpace s)
    (ht : Uncommented (spaceAfter wasSpace s) t) : Uncommented wasSpace (s ++ t) := by
  induction s generalizing wasSpace with
  | nil => exact ht
  | cons c s ih => exact ⟨hs.1, ih hs.2 ht⟩

theorem uncommented_blank {w : List UInt8} (hw : Blank w) (wasSpace : Bool) :
    Uncommented wasSpace w := by
  induction w generalizing wasSpace with
  | nil => trivial
  | cons c w ih =>
    rw [Blank, List.forall_mem_cons] at hw
    refine ⟨fun h => ?_, ih hw.2 _⟩
    rw [h.2] at hw
    exact absurd hw.1 (by decide)

theorem find_stop {chars : List UInt8} {wasSpace : Bool} {s : List UInt8} {d : UInt8}
    (hs : ∀ c ∈ s, c ∉ chars) (hplain : Uncommented wasSpace s)
    (hd : d ∈ chars ∨ (spaceAfter wasSpace s = true ∧ d = 59)) (rest : List UInt8) :
    findCharsOrComment chars wasSpace (s ++ d :: rest) = s.length := by
  induction s generalizing wasSpace with
  | nil => exact if_pos hd
  | cons c s ih =>
    rw [List.forall_mem_cons] at hs
    rw [List.cons_append, findCharsOrComment, if_neg (not_or.mpr ⟨hs.1, hplain.1⟩),
      ih hs.2 hplain.2 hd]
    rfl

theorem find_end {wasSpace : Bool} {s : List UInt8} (hplain : Uncommented wasSpace s) :
    findCharsOrComment [] wasSpace s = s.length := by
  induction s generalizing wasSpace with
  | nil => rfl
  | cons c s ih =>
    rw [findCharsOrComment, if_neg (not_or.mpr ⟨List.not_mem_nil, hplain.1⟩), ih hplain.2]
    rfl

theorem cut_tail {w v tail : List UInt8} (hw : Blank w) (hv : Value (w != []) v)
    (htail : Tail tail) : ∃ a b, Blank a ∧ Blank b ∧ (v ≠ [] → a = w) ∧
      (rstrip (w ++ (v ++ tail))).take
        (findCharsOrComment [] false (rstrip (w ++ (v ++ tail)))) = a ++ (v ++ b) := by
  have hplain : Uncommented false (w ++ v) := by
    refine (uncommented_blank hw false).append ?_
    rw [spaceAfter_blank hw]
    exact hv.uncommented
  cases htail with
  | blank ht =>
    by_cases hne : v = []
    · subst hne
      have hall : Blank (w ++ ([] ++ tail)) := by
        intro c hc
        rcases List.mem_append.mp hc with hc | hc
        · exact hw c hc
        · exact ht c hc
      refine ⟨[], [], List.forall_mem_nil _, List.forall_mem_nil _, fun h => absurd rfl h, ?_⟩
      rw [rstrip_blank hall]
      rfl
    · obtain ⟨s, c, rfl⟩ := (List.eq_nil_or_concat v).resolve_left hne
      rw [List.concat_eq_append] at *
      have hc : isspace c = false := hv.trimmed.2 c (by simp)
      have hstrip : rstrip (w ++ (s ++ [c] ++ tail)) = w ++ (s ++ [c]) := by
        have hconcat := rstrip_concat hc (w ++ s) tail
        rw [rstrip_blank ht] at hconcat
        simpa using hconcat
      refine ⟨w, [], hw, List.forall_mem_nil _, fun _ => rfl, ?_⟩
      rw [hstrip, find_end hplain, List.take_length, List.append_nil]
  | @comment w' c hw' hc s =>
    have hsemi : isspace 59 = false := by decide
    have hstrip : rstrip (w ++ (v ++ (w' ++ c :: 59 :: s))) =
        (w ++ (v ++ (w' ++ [c]))) ++ 59 :: rstrip s := by
      have hconcat := rstrip_concat hsemi (w ++ (v ++ (w' ++ [c]))) s
      simpa using hconcat
    have hblank : Blank (w' ++ [c]) := by
      intro b hb
      rcases List.mem_append.mp hb with hb | hb
      · exact hw' b hb
      · rwa [List.mem_singleton.mp hb]
    have hbefore : Uncommented false (w ++ (v ++ (w' ++ [c]))) := by
      rw [← List.append_assoc]
      exact hplain.append (uncommented_blank hblank _)
    have hspace : spaceAfter false (w ++ (v ++ (w' ++ [c]))) = true := by
      rw [← List.append_assoc, ← List.append_assoc, spaceAfter_concat, hc]
    refine ⟨w, w' ++ [c], hw, hblank, fun _ => rfl, ?_⟩
    rw [hstrip, find_stop (fun _ _ => List.not_mem_nil) hbefore (.inr ⟨hspace, rfl⟩), List.take_left]

/-! ## What lines say -/

theorem classifyText_body {bomFound hasPrev : Bool} {w : List UInt8} (hw : Blank w) {c : UInt8}
    (hc : isspace c = false) (s : List UInt8) :
    classifyText bomFound hasPrev (w ++ c :: s) =
      if c = 59 ∨ c = 35 then .skipped
      else if hasPrev && (bomFound || w != []) then
        .continuation (rstrip ((c :: rstrip s).take (findCharsOrComment [] false (c :: rstrip s))))
      else if c = 91 then
        if (rstrip s)[findCharsOrComment [93] false (rstrip s)]? = some 93 then
          .header ((rstrip s).take (findCharsOrComment [93] false (rstrip s)))
        else .malformed
      else
        let start := c :: rstrip s
        let e := findCharsOrComment [61, 58] false start
        if start[e]? = some 61 ∨ start[e]? = some 58 then
          let value := start.drop (e + 1)
          let value := value.take (findCharsOrComment [] false value)
          .pair (rstrip (start.take e)) (rstrip (lskip value))
        else .malformed := by
  have hstripped : rstrip (w ++ c :: s) = w ++ c :: rstrip s := rstrip_concat hc w s
  have hstart : lskip (w ++ c :: rstrip s) = c :: rstrip s := by
    rw [lskip_blank hw, lskip, List.dropWhile_cons_of_neg (by simp [hc])]
  have hindented : decide ((c :: rstrip s).length < (w ++ c :: rstrip s).length) = (w != []) := by
    cases w with
    | nil => simp
    | cons d w =>
      rw [decide_eq_true (by simp only [List.length_append, List.length_cons]; omega)]
      rfl
  unfold classifyText
  simp only [hstripped, hstart, hindented]

/-- **A line says what it is written to say.** -/
theorem classifyText_written {bomFound hasPrev : Bool} {line : List UInt8} {kind : Line}
    (h : Written hasPrev line kind) (hbom : bomFound = true → hasPrev = false) :
    classifyText bomFound hasPrev line = kind := by
  -- a line that is no continuation of a value
  have hnot : ∀ {w : List UInt8}, (hasPrev = true → w = []) →
      (hasPrev && (bomFound || w != [])) = false := by
    intro w hw
    cases hasPrev with
    | false => rfl
    | true =>
      cases bomFound with
      | true => cases hbom rfl
      | false => rw [hw rfl]; rfl
  cases h with
  | blank hw => rw [classifyText, rstrip_blank hw]; rfl
  | comment hw hc s =>
    have hspace : isspace ‹UInt8› = false := by
      rcases hc with rfl | rfl <;> decide
    rw [classifyText_body hw hspace, if_pos hc]
  | @header _ w name hw hprev hname hplain s =>
    have hstrip : rstrip (name ++ 93 :: s) = name ++ 93 :: rstrip s := rstrip_concat (by decide) name s
    have hfind : findCharsOrComment [93] false (name ++ 93 :: rstrip s) = name.length := by
      refine find_stop (fun c hc hin => hname ?_) hplain (.inl List.mem_cons_self) _
      rwa [← List.mem_singleton.mp hin]
    rw [classifyText_body hw (by decide), if_neg (by decide), hnot hprev, if_neg Bool.false_ne_true,
      if_pos rfl, hstrip, hfind, if_pos (by simp), List.take_left]
  | @pair _ w name w' d w'' value tail hw hprev hname hw' hempty hd hw'' hvalue htail =>
    have hdspace : isspace d = false := by
      rcases hd with rfl | rfl <;> decide
    -- the first byte that is no white space: of the name, or the delimiter after an empty one
    obtain ⟨c, s, hcs, hspace, h59, h35, h91⟩ : ∃ c s,
        name ++ (w' ++ d :: (w'' ++ (value ++ tail))) = c :: s ∧ isspace c = false ∧ c ≠ 59 ∧
          c ≠ 35 ∧ c ≠ 91 := by
      cases name with
      | nil =>
        refine ⟨d, _, by rw [hempty rfl]; rfl, hdspace, ?_⟩
        rcases hd with rfl | rfl <;> decide
      | cons c n => exact ⟨c, _, rfl, hname.trimmed.1 c rfl, hname.first c rfl⟩
    have hstrip : c :: rstrip s = (name ++ w') ++ d :: rstrip (w'' ++ (value ++ tail)) := by
      have hconcat := rstrip_concat hdspace (name ++ w') (w'' ++ (value ++ tail))
      rw [List.append_assoc, hcs] at hconcat
      exact (rstrip_concat hspace [] s).symm.trans hconcat
    have hfind : findCharsOrComment [61, 58] false
        ((name ++ w') ++ d :: rstrip (w'' ++ (value ++ tail))) = (name ++ w').length := by
      refine find_stop (fun b hb hin => ?_)
        (hname.uncommented.append (uncommented_blank hw' _)) (.inl (by simpa using hd)) _
      have hdelim : b = 61 ∨ b = 58 := by simpa using hin
      rcases List.mem_append.mp hb with hb | hb
      · obtain ⟨h61, h58⟩ := hname.plain b hb
        exact hdelim.elim h61 h58
      · have hblank := hw' b hb
        rcases hdelim with rfl | rfl <;> exact absurd hblank (by decide)
    obtain ⟨a, b, ha, hb, -, hcut⟩ := cut_tail hw'' hvalue htail
    have hname' : rstrip (name ++ w') = name := by
      rw [rstrip_append (rstrip_trimmed hname.trimmed), rstrip_blank hw', List.append_nil]
    rw [hcs, classifyText_body hw hspace, if_neg (not_or.mpr ⟨h59, h35⟩), hnot hprev,
      if_neg Bool.false_ne_true, if_neg h91]
    simp only [hstrip, hfind]
    rw [if_pos (by simpa using hd), List.take_left, hname', List.drop_length_add_append,
      List.drop_one, List.tail_cons, hcut, strip_around ha hvalue.trimmed hb]
  | @continuation w value tail hw hne hvalue hfirst htail =>
    obtain ⟨c, s, rfl, h59, h35⟩ := hfirst
    have hspace : isspace c = false := hvalue.trimmed.1 c rfl
    obtain ⟨a, b, -, hb, ha, hcut⟩ := cut_tail (w := []) (List.forall_mem_nil _) hvalue htail
    have hindented : (true && (bomFound || w != [])) = true := by
      simp [hne]
    have hstrip : rstrip (c :: (s ++ tail)) = c :: rstrip (s ++ tail) :=
      rstrip_concat hspace [] (s ++ tail)
    rw [ha (List.cons_ne_nil _ _), List.nil_append, List.nil_append, List.cons_append, hstrip] at hcut
    rw [List.cons_append, classifyText_body hw hspace, if_neg (not_or.mpr ⟨h59, h35⟩), hindented,
      if_pos rfl, hcut, rstrip_append (rstrip_trimmed hvalue.trimmed), rstrip_blank hb,
      List.append_nil]

/-! ## How lines are written -/

theorem rstrip_split (s : List UInt8) : ∃ w, Blank w ∧ s = rstrip s ++ w := by
  refine ⟨(s.reverse.takeWhile isspace).reverse, fun c hc => ?_, ?_⟩
  · exact List.mem_takeWhile_imp (List.mem_reverse.mp hc)
  · rw [rstrip, ← List.reverse_append, List.takeWhile_append_dropWhile, List.reverse_reverse]

theorem trimmed_strip (s : List UInt8) : Trimmed (rstrip (lskip s)) := by
  constructor
  · intro c hc
    obtain ⟨w, -, hs⟩ := rstrip_split (lskip s)
    cases hr : rstrip (lskip s) with
    | nil => rw [hr] at hc; cases hc
    | cons d t =>
      rw [hr] at hc hs
      cases hc
      have hhead := List.head?_dropWhile_not isspace s
      rw [show s.dropWhile isspace = c :: (t ++ w) from hs] at hhead
      simpa using hhead
  · intro c hc
    rw [rstrip, List.getLast?_reverse] at hc
    have hhead := List.head?_dropWhile_not isspace (lskip s).reverse
    rw [hc] at hhead
    simpa using hhead

theorem uncommented_append {wasSpace : Bool} {s t : List UInt8}
    (h : Uncommented wasSpace (s ++ t)) :
    Uncommented wasSpace s ∧ Uncommented (spaceAfter wasSpace s) t := by
  induction s generalizing wasSpace with
  | nil => exact ⟨trivial, h⟩
  | cons c s ih => exact ⟨⟨h.1, (ih h.2).1⟩, (ih h.2).2⟩

theorem find_spec (chars : List UInt8) (wasSpace : Bool) (s : List UInt8) :
    Uncommented wasSpace (s.take (findCharsOrComment chars wasSpace s)) ∧
      (∀ c ∈ s.take (findCharsOrComment chars wasSpace s), c ∉ chars) ∧
      ∀ d, s[findCharsOrComment chars wasSpace s]? = some d → d ∈ chars ∨
        (spaceAfter wasSpace (s.take (findCharsOrComment chars wasSpace s)) = true ∧ d = 59) := by
  induction s generalizing wasSpace with
  | nil => exact ⟨trivial, List.forall_mem_nil _, fun d hd => by cases hd⟩
  | cons c s ih =>
    rw [findCharsOrComment]
    split
    · rename_i hstop
      exact ⟨trivial, List.forall_mem_nil _, fun d hd => Option.some.inj hd ▸ hstop⟩
    · rename_i hgo
      obtain ⟨hin, hplain⟩ := not_or.mp hgo
      obtain ⟨huncommented, hchars, hstop⟩ := ih (isspace c)
      exact ⟨⟨hplain, huncommented⟩, List.forall_mem_cons.mpr ⟨hin, hchars⟩, hstop⟩

theorem eq_take_cons_drop {s : List UInt8} {n : Nat} {d : UInt8} (h : s[n]? = some d) :
    s = s.take n ++ d :: s.drop (n + 1) := by
  obtain ⟨hlt, rfl⟩ := List.getElem?_eq_some_iff.mp h
  rw [List.getElem_cons_drop, List.take_append_drop]

/-- What is cut out of a line is a value, with a tail behind it. -/
theorem cut_written (r : List UInt8) : ∃ w v tail, r = w ++ (v ++ tail) ∧ Blank w ∧
    Value (w != []) v ∧ Tail tail ∧
      rstrip (lskip ((rstrip r).take (findCharsOrComment [] false (rstrip r)))) = v := by
  obtain ⟨z, hz, hr⟩ := rstrip_split r
  obtain ⟨hplain, -, hstop⟩ := find_spec [] false (rstrip r)
  generalize findCharsOrComment [] false (rstrip r) = n at hplain hstop
  obtain ⟨b, hb, hv⟩ := rstrip_split (lskip ((rstrip r).take n))
  have hw : Blank (((rstrip r).take n).takeWhile isspace) := fun c hc =>
    List.mem_takeWhile_imp hc
  have htake : (rstrip r).take n = ((rstrip r).take n).takeWhile isspace ++
      (rstrip (lskip ((rstrip r).take n)) ++ b) := by
    rw [← hv, lskip, List.takeWhile_append_dropWhile]
  generalize ((rstrip r).take n).takeWhile isspace = w at hw htake
  have htrim := trimmed_strip ((rstrip r).take n)
  generalize rstrip (lskip ((rstrip r).take n)) = v at htake htrim
  have hvalue : Value (w != []) v := by
    refine ⟨htrim, ?_⟩
    rw [htake] at hplain
    have hafter := (uncommented_append hplain).2
    rw [spaceAfter_blank hw] at hafter
    exact (uncommented_append hafter).1
  have hwhole : r = (rstrip r).take n ++ ((rstrip r).drop n ++ z) := by
    rw [← List.append_assoc, List.take_append_drop]
    exact hr
  cases hdrop : (rstrip r).drop n with
  | nil =>
    refine ⟨w, v, b ++ z, ?_, hw, hvalue, .blank fun c hc => ?_, rfl⟩
    · rw [hwhole, hdrop, htake]
      simp
    · exact (List.mem_append.mp hc).elim (hb c) (hz c)
  | cons d rest =>
    obtain ⟨hspace, rfl⟩ := (hstop d (by rw [← List.head?_drop, hdrop]; rfl)).resolve_left
      List.not_mem_nil
    rw [htake] at hspace
    rcases List.eq_nil_or_concat b with rfl | ⟨b', c, rfl⟩
    · -- the byte before the comment is no part of the value
      have hnil : v = [] := by
        rcases List.eq_nil_or_concat v with rfl | ⟨v', c, rfl⟩
        · rfl
        · rw [List.concat_eq_append, List.append_nil, ← List.append_assoc,
            spaceAfter_concat] at hspace
          have hlast := htrim.2 c (by simp)
          rw [hspace] at hlast
          cases hlast
      subst hnil
      rcases List.eq_nil_or_concat w with rfl | ⟨w', c, rfl⟩
      · cases hspace
      · rw [List.concat_eq_append] at hw htake
        refine ⟨[], [], w' ++ c :: 59 :: (rest ++ z), ?_, List.forall_mem_nil _,
          ⟨⟨nofun, nofun⟩, trivial⟩, .comment (fun x hx => hw x (by simp [hx])) (hw c (by simp)) _,
          rfl⟩
        rw [hwhole, hdrop, htake]
        simp
    · rw [List.concat_eq_append] at hb htake
      refine ⟨w, v, b' ++ c :: 59 :: (rest ++ z), ?_, hw, hvalue,
        .comment (fun x hx => hb x (by simp [hx])) (hb c (by simp)) _, rfl⟩
      rw [hwhole, hdrop, htake]
      simp

section Shapes

variable {hasPrev : Bool} {w s : List UInt8} {c : UInt8} (hw : Blank w)
include hw

theorem continuation_written (hc : isspace c = false) (hne : w ≠ []) (h59 : c ≠ 59)
    (h35 : c ≠ 35) :
    Written true (w ++ c :: s) (.continuation
      (rstrip ((c :: rstrip s).take (findCharsOrComment [] false (c :: rstrip s))))) := by
  have hstart : c :: rstrip s = rstrip (c :: s) := (rstrip_concat hc [] s).symm
  obtain ⟨w', v, tail, hr, hw', hvalue, htail, hv⟩ := cut_written (c :: s)
  have hnil : w' = [] := by
    cases w' with
    | nil => rfl
    | cons d w' =>
      have hd := hw' d List.mem_cons_self
      rw [← (List.cons.inj hr).1, hc] at hd
      cases hd
  subst hnil
  rw [List.nil_append] at hr
  -- the first byte is a part of the value
  have hgo : findCharsOrComment [] false (rstrip (c :: s)) ≠ 0 := by
    rw [← hstart, findCharsOrComment, if_neg (by simp)]
    exact Nat.succ_ne_zero _
  obtain ⟨n, hn⟩ := Nat.exists_eq_succ_of_ne_zero hgo
  have htake : lskip ((rstrip (c :: s)).take (findCharsOrComment [] false (rstrip (c :: s)))) =
      (rstrip (c :: s)).take (findCharsOrComment [] false (rstrip (c :: s))) := by
    rw [hn, ← hstart, List.take_succ_cons, lskip, List.dropWhile_cons_of_neg (by simp [hc])]
  rw [htake] at hv
  have hfirst : v = c :: rstrip ((rstrip s).take n) := by
    rw [← hv, hn, ← hstart, List.take_succ_cons]
    exact rstrip_concat hc [] _
  rw [hstart, hv, hr]
  exact .continuation hw hne hvalue ⟨c, _, hfirst, h59, h35⟩ htail

theorem header_written (hprev : hasPrev = true → w = [])
    (hclose : (rstrip s)[findCharsOrComment [93] false (rstrip s)]? = some 93) :
    Written hasPrev (w ++ 91 :: s)
      (.header ((rstrip s).take (findCharsOrComment [93] false (rstrip s)))) := by
  obtain ⟨z, hz, hs⟩ := rstrip_split s
  obtain ⟨hplain, hname, -⟩ := find_spec [93] false (rstrip s)
  generalize findCharsOrComment [93] false (rstrip s) = n at hplain hname hclose ⊢
  have hsplit : s = (rstrip s).take n ++ 93 :: ((rstrip s).drop (n + 1) ++ z) := by
    rw [← List.cons_append, ← List.append_assoc, ← eq_take_cons_drop hclose]
    exact hs
  have hwritten := Written.header hw hprev (fun hin => hname 93 hin (by simp)) hplain
    ((rstrip s).drop (n + 1) ++ z)
  rwa [← hsplit] at hwritten

theorem pair_written (hc : isspace c = false) (hprev : hasPrev = true → w = []) (h59 : c ≠ 59)
    (h35 : c ≠ 35) (hopen : c ≠ 91) {n : Nat}
    (hfind : findCharsOrComment [61, 58] false (c :: rstrip s) = n) {d : UInt8}
    (hget : (c :: rstrip s)[n]? = some d) (hd : d = 61 ∨ d = 58) :
    Written hasPrev (w ++ c :: s) (.pair (rstrip ((c :: rstrip s).take n))
      (rstrip (lskip (((c :: rstrip s).drop (n + 1)).take
        (findCharsOrComment [] false ((c :: rstrip s).drop (n + 1))))))) := by
  have hstart : c :: rstrip s = rstrip (c :: s) := (rstrip_concat hc [] s).symm
  obtain ⟨z, hz, hs⟩ := rstrip_split s
  obtain ⟨hplain, hname, -⟩ := find_spec [61, 58] false (c :: rstrip s)
  rw [hfind] at hplain hname
  have hdspace : isspace d = false := by
    rcases hd with rfl | rfl <;> decide
  have hsplit := eq_take_cons_drop hget
  generalize (c :: rstrip s).drop (n + 1) = rest at hsplit ⊢
  obtain ⟨w', hw', hn⟩ := rstrip_split ((c :: rstrip s).take n)
  -- a name starts where the line starts
  have hhead : ∀ b t, (c :: rstrip s).take n = b :: t → b = c := by
    intro b t ht
    rw [ht] at hsplit
    exact (List.cons.inj hsplit).1.symm
  generalize (c :: rstrip s).take n = start at hplain hname hsplit hn hhead ⊢
  have hline : c :: s = start ++ d :: (rest ++ z) := by
    rw [← List.cons_append, ← List.append_assoc, ← hsplit, List.cons_append, ← hs]
  obtain ⟨w'', v, tail, hr, hw'', hvalue, htail, hv⟩ := cut_written (rest ++ z)
  have hstrip : rstrip (rest ++ z) = rest := by
    have hconcat := rstrip_concat hdspace start (rest ++ z)
    rw [← hline, ← hstart, hsplit] at hconcat
    exact (List.cons.inj (List.append_cancel_left hconcat)).2.symm
  rw [hstrip] at hv
  have hstartskip : lskip start = start := by
    cases start with
    | nil => rfl
    | cons b t =>
      rw [lskip, List.dropWhile_cons_of_neg (by rw [hhead b t rfl, hc]; simp)]
  have htrim : Trimmed (rstrip start) := by
    have htrim := trimmed_strip start
    rwa [hstartskip] at htrim
  have hnamed : Name (rstrip start) := by
    refine ⟨htrim, fun b hb => ?_, ?_, fun b hb => ?_⟩
    · have hin := hname b (by rw [hn]; exact List.mem_append_left _ hb)
      simpa using hin
    · rw [hn] at hplain
      exact (uncommented_append hplain).1
    · obtain ⟨t, ht⟩ := List.head?_eq_some_iff.mp hb
      rw [ht] at hn
      rw [hhead b _ hn]
      exact ⟨h59, h35, hopen⟩
  have hempty : rstrip start = [] → w' = [] := by
    intro hnil
    rw [hnil, List.nil_append] at hn
    cases w' with
    | nil => rfl
    | cons b t =>
      have hb := hw' b List.mem_cons_self
      rw [hhead b t hn, hc] at hb
      cases hb
  have hwritten := Written.pair hw hprev hnamed hw' hempty hd hw'' hvalue htail
  rw [← hr, ← List.append_assoc (rstrip start), ← hn, ← hline] at hwritten
  rw [hv]
  exact hwritten

end Shapes

/-- **A line that is not malformed is written** as the grammar says. -/
theorem written_classifyText {bomFound hasPrev : Bool} {line : List UInt8}
    (hbom : bomFound = true → hasPrev = false)
    (hne : classifyText bomFound hasPrev line ≠ .malformed) :
    Written hasPrev line (classifyText bomFound hasPrev line) := by
  have hw : Blank (line.takeWhile isspace) := fun c hc => List.mem_takeWhile_imp hc
  have hline : line = line.takeWhile isspace ++ line.dropWhile isspace :=
    (List.takeWhile_append_dropWhile).symm
  have hhead := List.head?_dropWhile_not isspace line
  generalize line.takeWhile isspace = w at hw hline
  generalize line.dropWhile isspace = body at hline hhead
  subst hline
  cases body with
  | nil =>
    rw [List.append_nil] at hne ⊢
    rw [classifyText, rstrip_blank hw]
    exact .blank hw
  | cons c s =>
    have hc : isspace c = false := by simpa using hhead
    rw [classifyText_body hw hc] at hne ⊢
    by_cases hcomment : c = 59 ∨ c = 35
    · rw [if_pos hcomment]
      exact .comment hw hcomment s
    rw [if_neg hcomment] at hne ⊢
    obtain ⟨h59, h35⟩ := not_or.mp hcomment
    by_cases hindented : (hasPrev && (bomFound || w != [])) = true
    · rw [if_pos hindented]
      obtain ⟨rfl, hor⟩ := Bool.and_eq_true_iff.mp hindented
      have hwne : w ≠ [] := by
        rcases Bool.or_eq_true_iff.mp hor with h | h
        · cases hbom h
        · simpa using h
      exact continuation_written hw hc hwne h59 h35
    rw [if_neg hindented] at hne ⊢
    have hprev : hasPrev = true → w = [] := by
      rintro rfl
      by_contra hwne
      exact hindented (by simp [hwne])
    by_cases hopen : c = 91
    · subst hopen
      rw [if_pos rfl] at hne ⊢
      split at hne
      · rename_i hclose
        rw [if_pos hclose]
        exact header_written hw hprev hclose
      · exact absurd rfl hne
    rw [if_neg hopen] at hne ⊢
    simp only at hne ⊢
    split at hne
    · rename_i hdelim
      rw [if_pos hdelim]
      rcases hdelim with h | h
      · exact pair_written hw hc hprev h59 h35 hopen rfl h (.inl rfl)
      · exact pair_written hw hc hprev h59 h35 hopen rfl h (.inr rfl)
    · exact absurd rfl hne

end Ini

end VmodCfg.File
