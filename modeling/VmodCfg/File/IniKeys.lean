import VmodCfg.File.IniCalls

/-!
# Which variable a value goes to

The parser hands over what is left of a section, and of a name whose value is continued. The values
stay with their keys where nothing had to be cut off, and where no two keys have one name.
-/

namespace VmodCfg.File

open CString

namespace Ini

/-! ## A text that goes on

Where only the first bytes of the contents are read, the last line may be cut off: it has the same
section and the same name, if it has a value at all. -/

theorem rstrip_append {s : List UInt8} (h : rstrip s = s) (t : List UInt8) :
    rstrip (s ++ t) = s ++ rstrip t := by
  unfold rstrip at h ⊢
  have hreverse : s.reverse.dropWhile isspace = s.reverse := by
    rw [← List.reverse_reverse (List.dropWhile _ _), h]
  rw [List.reverse_append, List.dropWhile_append, hreverse]
  split
  · rename_i hnil
    rw [List.isEmpty_iff.mp hnil, List.reverse_reverse, List.reverse_nil, List.append_nil]
  · rw [List.reverse_append, List.reverse_reverse]

theorem rstrip_rstrip (s : List UInt8) : rstrip (rstrip s) = rstrip s := by
  unfold rstrip
  rw [List.reverse_reverse, List.dropWhile_idempotent]

theorem rstrip_extends (s t : List UInt8) : ∃ z, rstrip (s ++ t) = rstrip s ++ z := by
  have hsplit : s = rstrip s ++ (s.reverse.takeWhile isspace).reverse := by
    rw [rstrip, ← List.reverse_append, List.takeWhile_append_dropWhile, List.reverse_reverse]
  refine ⟨rstrip ((s.reverse.takeWhile isspace).reverse ++ t), ?_⟩
  rw [← rstrip_append (rstrip_rstrip s), ← List.append_assoc, ← hsplit]

theorem lskip_extends {s : List UInt8} (h : lskip s ≠ []) (z : List UInt8) :
    lskip (s ++ z) = lskip s ++ z := by
  unfold lskip at h ⊢
  rw [List.dropWhile_append, if_neg (by simpa using h)]

theorem findCharsOrComment_append {chars : List UInt8} {wasSpace : Bool} {s : List UInt8}
    (h : findCharsOrComment chars wasSpace s < s.length) (z : List UInt8) :
    findCharsOrComment chars wasSpace (s ++ z) = findCharsOrComment chars wasSpace s := by
  induction s generalizing wasSpace with
  | nil => cases h
  | cons c s ih =>
    simp only [List.cons_append, findCharsOrComment] at h ⊢
    split
    · rfl
    · rename_i hc
      rw [if_neg hc, List.length_cons] at h
      rw [ih (by omega)]

theorem findCharsOrComment_found {chars : List UInt8} {wasSpace : Bool} {s : List UInt8} {c : UInt8}
    (h : s[findCharsOrComment chars wasSpace s]? = some c) (z : List UInt8) :
    findCharsOrComment chars wasSpace (s ++ z) = findCharsOrComment chars wasSpace s ∧
      (s ++ z)[findCharsOrComment chars wasSpace s]? = some c ∧
      (s ++ z).take (findCharsOrComment chars wasSpace s) =
        s.take (findCharsOrComment chars wasSpace s) := by
  have hlt := (List.getElem?_eq_some_iff.mp h).1
  exact ⟨findCharsOrComment_append hlt z, by rw [List.getElem?_append_left hlt, h],
    List.take_append_of_le_length (Nat.le_of_lt hlt)⟩

/-- The kind of a line that has a value, and its name. -/
def SameEntry : Line → Line → Prop
  | .continuation _, kind => ∃ value, kind = .continuation value
  | .pair name _, kind => ∃ value, kind = .pair name value
  | _, _ => True

/-- What is found in a line, after the byte order mark. -/
def classifyText (bomFound hasPrev : Bool) (text : List UInt8) : Line :=
  let stripped := rstrip text
  let start := lskip stripped
  let indented := bomFound || decide (start.length < stripped.length)
  match start with
  | [] => .skipped
  | c :: s =>
    if c = 59 ∨ c = 35 then .skipped
    else if hasPrev && indented then
      .continuation (rstrip (start.take (findCharsOrComment [] false start)))
    else if c = 91 then
      let e := findCharsOrComment [93] false s
      if s[e]? = some 93 then .header (s.take e) else .malformed
    else
      let e := findCharsOrComment [61, 58] false start
      if start[e]? = some 61 ∨ start[e]? = some 58 then
        let value := start.drop (e + 1)
        let value := value.take (findCharsOrComment [] false value)
        .pair (rstrip (start.take e)) (rstrip (lskip value))
      else .malformed

theorem classify_eq (first hasPrev : Bool) (line : List UInt8) :
    classify first hasPrev line =
      classifyText (first && bom.isPrefixOf line) hasPrev
        (if first && bom.isPrefixOf line then line.drop 3 else line) := rfl

theorem classifyText_extends (bomFound hasPrev : Bool) (text more : List UInt8) :
    SameEntry (classifyText bomFound hasPrev text)
      (classifyText bomFound hasPrev (text ++ more)) := by
  obtain ⟨z, hz⟩ := rstrip_extends text more
  by_cases hnil : lskip (rstrip text) = []
  · have hskipped : classifyText bomFound hasPrev text = .skipped := by
      simp only [classifyText, hnil]
    rw [hskipped]
    trivial
  · have hstart := lskip_extends hnil z
    unfold classifyText
    simp only [hz, hstart, List.length_append, Nat.add_lt_add_iff_right]
    cases hcore : lskip (rstrip text) with
    | nil => exact absurd hcore hnil
    | cons c s =>
      simp only [List.cons_append]
      split
      · trivial
      · split
        · exact ⟨_, rfl⟩
        · split
          · split <;> trivial
          · split
            · rename_i hfound
              rcases hfound with hfound | hfound
              all_goals
                obtain ⟨hfind, hget, htake⟩ := findCharsOrComment_found hfound z
                rw [List.cons_append] at hfind hget htake
                rw [hfind, if_pos (by simp only [hget, true_or, or_true]), htake]
                exact ⟨_, rfl⟩
            · trivial

/-- A part of the byte order mark has no value. -/
theorem sameEntry_of_bom {line : List UInt8} (h : line <+: bom) (hne : ¬ bom <+: line)
    (hasPrev : Bool) (kind : Line) : SameEntry (classify true hasPrev line) kind := by
  have hall : ∀ n ≤ 3, ¬ bom <+: bom.take n → ∀ hasPrev,
      classify true hasPrev (bom.take n) = .skipped ∨
        classify true hasPrev (bom.take n) = .malformed := by
    decide +kernel
  have htake := List.prefix_iff_eq_take.mp h
  rw [htake] at hne ⊢
  rcases hall line.length h.length_le hne hasPrev with hline | hline <;> rw [hline] <;> trivial

theorem classify_extends (first hasPrev : Bool) (line more : List UInt8) :
    SameEntry (classify first hasPrev line) (classify first hasPrev (line ++ more)) := by
  cases first with
  | false => exact classifyText_extends false hasPrev line more
  | true =>
    by_cases hbom : bom <+: line
    · have hline : bom.isPrefixOf line = true := List.isPrefixOf_iff_prefix.mpr hbom
      have hmore : bom.isPrefixOf (line ++ more) = true :=
        List.isPrefixOf_iff_prefix.mpr (hbom.trans (List.prefix_append _ _))
      rw [classify_eq, classify_eq, hline, hmore]
      simp only [Bool.and_self, if_true]
      rw [List.drop_append_of_le_length (show 3 ≤ line.length from hbom.length_le)]
      exact classifyText_extends true hasPrev _ _
    · by_cases hbom' : bom <+: line ++ more
      · rcases List.prefix_or_prefix_of_prefix (List.prefix_append line more) hbom' with h | h
        · exact sameEntry_of_bom h hbom hasPrev _
        · exact absurd h hbom
      · have hline : bom.isPrefixOf line = false := by
          rwa [Bool.eq_false_iff, ne_eq, List.isPrefixOf_iff_prefix]
        have hmore : bom.isPrefixOf (line ++ more) = false := by
          rwa [Bool.eq_false_iff, ne_eq, List.isPrefixOf_iff_prefix]
        rw [classify_eq, classify_eq, hline, hmore]
        exact classifyText_extends false hasPrev line more

/-- The lines with a value, and those of a text that goes on. -/
inductive Grows : List IniEntry → List IniEntry → Prop
  | nil {l} : Grows [] l
  | cut {e e' l} (hkey : e'.key = e.key) (hcontinues : e'.continues = e.continues) :
      Grows [e] (e' :: l)
  | cons {e l l'} (h : Grows l l') : Grows (e :: l) (e :: l')

theorem grows_last (first : Bool) (sect prev : CString) (line more : List UInt8)
    (lines : List (List UInt8)) :
    Grows (entriesFrom first sect prev [line])
      (entriesFrom first sect prev ((line ++ more) :: lines)) := by
  have hsame := classify_extends first (prev.bytes != []) line more
  unfold entriesFrom
  cases hline : classify first (prev.bytes != []) line with
  | skipped => exact .nil
  | header name => exact .nil
  | malformed => exact .nil
  | continuation value =>
    rw [hline] at hsame
    obtain ⟨value', hvalue'⟩ := hsame
    rw [hvalue']
    exact .cut rfl rfl
  | pair name value =>
    rw [hline] at hsame
    obtain ⟨value', hvalue'⟩ := hsame
    rw [hvalue']
    exact .cut rfl rfl

theorem grows_textLines (first : Bool) (sect prev : CString) (t more : List UInt8) :
    Grows (entriesFrom first sect prev (textLines t))
      (entriesFrom first sect prev (textLines (t ++ more))) := by
  induction hn : t.length using Nat.strongRecOn generalizing first sect prev t with
  | ind n ih =>
    rcases exists_line t with hline | ⟨line, c, left, rfl, hline, hc⟩
    · rw [textLines_line hline]
      rcases exists_line more with hmore | ⟨line', c, left, rfl, hline', hc⟩
      · have hboth : NoNewline (t ++ more) := List.forall_mem_append.mpr ⟨hline, hmore⟩
        rw [textLines_line hboth]
        exact grows_last first sect prev t more []
      · have hboth : NoNewline (t ++ line') := List.forall_mem_append.mpr ⟨hline, hline'⟩
        rw [← List.append_assoc, textLines_newline hboth hc]
        exact grows_last first sect prev t line' _
    · have hlen : left.length < n := by
        rw [← hn, List.length_append, List.length_cons]
        omega
      rw [List.append_assoc, List.cons_append, textLines_newline hline hc,
        textLines_newline hline hc]
      unfold entriesFrom
      cases classify first (prev.bytes != []) line with
      | skipped => exact ih _ hlen _ _ _ left rfl
      | malformed => exact ih _ hlen _ _ _ left rfl
      | header name => exact ih _ hlen _ _ _ left rfl
      | continuation value => exact .cons (ih _ hlen _ _ _ left rfl)
      | pair name value => exact .cons (ih _ hlen _ _ _ left rfl)

end Ini

/-! ## What is left of the keys -/

namespace IniEntry

variable (cfg : FileCfg) (e : IniEntry)

/-- What the line contributes to the variable of its section and its name. -/
def contribution : CString × CString := (e.flat cfg, e.value)

theorem length_flattenName (sect name : CString) :
    (flattenName cfg sect name).bytes.length =
      if sect.bytes.length = 0 then name.bytes.length
      else sect.bytes.length + cfg.nameDelimiter.bytes.length + name.bytes.length := by
  unfold flattenName
  simp only [ne_eq, ite_not, List.length_eq_zero_iff]
  split
  · rfl
  · simp only [bytes_append, List.length_append]

/-- The line goes to the variable of its section and its name exactly when neither is cut. -/
theorem flat_handed_iff : e.handed.flat cfg = e.flat cfg ↔
    e.sect.bytes.length < Ini.maxSection ∧
      (e.continues = true → e.name.bytes.length < Ini.maxName) := by
  constructor
  · intro h
    have hlen := congrArg (fun s : CString => s.bytes.length) h
    simp only [IniCall.flat, flat, length_flattenName, handed, Ini.bytes_cut, List.length_take,
      Ini.maxSection, Ini.maxName] at hlen ⊢
    cases hcontinues : e.continues with
    | false =>
      simp only [hcontinues, Bool.false_eq_true, if_false] at hlen
      refine ⟨?_, fun h => by cases h⟩
      split at hlen <;> split at hlen <;> omega
    | true =>
      simp only [hcontinues, if_true, Ini.bytes_cut, List.length_take] at hlen
      split at hlen <;> split at hlen <;> omega
  · rintro ⟨hsect, hname⟩
    have hcut : ∀ (s : CString) (size : Nat), s.bytes.length < size →
        Ini.strncpy0 s.bytes size = s := by
      intro s size hlt
      apply CString.ext
      rw [Ini.bytes_cut, List.take_of_length_le (by omega)]
    rw [IniCall.flat, handed, hcut e.sect _ hsect]
    cases hcontinues : e.continues with
    | false => rfl
    | true => simp only [if_true, hcut e.name _ (hname hcontinues), flat]

theorem contribution_handed_iff : e.handed.contribution cfg = e.contribution cfg ↔
    e.sect.bytes.length < Ini.maxSection ∧
      (e.continues = true → e.name.bytes.length < Ini.maxName) := by
  rw [← flat_handed_iff cfg]
  exact Prod.mk.injEq .. |>.to_iff.trans (and_iff_left rfl)

end IniEntry

/-! ## Every value in its variable -/

section Keys

variable (cfg : FileCfg) (contents : CString)

/-- The value of each line goes to the variable of its section and its name, lines of different keys
go to different variables, and a variable has all the values of its key, joined in order. -/
structure KeepsKeys (vars : Variables) : Prop where
  goes : (iniCalls contents).map (IniCall.contribution cfg) =
    (Ini.entries contents.bytes).map (IniEntry.contribution cfg)
  apart : ∀ x ∈ (Ini.entries contents.bytes).zip (iniCalls contents),
    ∀ y ∈ (Ini.entries contents.bytes).zip (iniCalls contents),
      x.1.key ≠ y.1.key → x.2.flat cfg ≠ y.2.flat cfg
  joined : ∀ e ∈ Ini.entries contents.bytes, vars.findVariable (e.flat cfg) =
    some (joinValues cfg.valueDelimiter
      (valuesAt e.key ((Ini.entries contents.bytes).map fun e => (e.key, e.value))))

/-- No line with a value is left unread, the sections and the names of values that are continued fit
their buffers, and different keys have different names. -/
structure KeysFit : Prop where
  read : Ini.entries (Ini.readText contents) = Ini.entries contents.bytes
  sections : ∀ e ∈ Ini.entries contents.bytes, e.sect.bytes.length < Ini.maxSection
  names : ∀ e ∈ Ini.entries contents.bytes,
    e.continues = true → e.name.bytes.length < Ini.maxName
  distinct : ∀ e ∈ Ini.entries contents.bytes, ∀ e' ∈ Ini.entries contents.bytes,
    e.flat cfg = e'.flat cfg → e.key = e'.key

variable {cfg contents}

theorem fileParseIniHandler_neverStops : Ini.NeverStops (fileParseIniHandler cfg) := by
  intro vars sect name value x h
  rcases fileParseIniHandler_spec cfg vars sect name value with ⟨-, vars', hcall⟩ | ⟨-, hcall⟩
  · rw [hcall] at h
    cases h
    rfl
  · rw [hcall] at h
    cases h

theorem handleAll_eq_callAll (vars : Variables) (calls : List IniCall) :
    handleAll cfg vars calls = Ini.callAll (fileParseIniHandler cfg) vars calls := by
  induction calls generalizing vars with
  | nil => rfl
  | cons c calls ih => simp only [handleAll, Ini.callAll, ih]

/-- **The calls of a run that is accepted** are those for the lines that are read, and the variables
are what the handler makes of them. -/
theorem iniCalls_of_parsed (hshort : Ini.ShortLines Ini.maxLine contents.bytes) {vars : Variables}
    (h : fileParseIni cfg contents = .parsed vars) :
    iniCalls contents = (Ini.entries (Ini.readText contents)).map IniEntry.handed ∧
      handleAll cfg ∅ (iniCalls contents) = some vars := by
  let lines := Ini.readLines Ini.maxLine ((Ini.readText contents).length + 1)
    (Ini.readText contents)
  obtain ⟨st, hparse, hzero, hvars⟩ : ∃ st, Ini.parseLines (fileParseIniHandler cfg)
      ((Ini.readText contents).length + 1) (Ini.Context.init.state ∅) (Ini.readText contents) =
        some st ∧ st.error = 0 ∧ st.user = vars := by
    unfold fileParseIni at h
    dsimp only at h
    split at h
    · cases h
    · rename_i rc vars' hrun
      obtain ⟨st, hparse, heq⟩ := Option.map_eq_some_iff.mp hrun
      cases heq
      split at h
      · rename_i hzero
        cases h
        exact ⟨st, hparse, hzero, rfl⟩
      · cases h
  obtain ⟨hcalls, hafter⟩ := Ini.callAll_of_parseLines fileParseIniHandler_neverStops hparse hzero
  obtain ⟨c', hrecord⟩ := Ini.parseLines_of_after Ini.recordCall_neverStops hafter
    (Ini.callAll_recordCall [] _)
  have hiniCalls : iniCalls contents = Ini.Context.init.calls lines := by
    have hstream : Ini.parseStream Ini.recordCall [] (Ini.readText contents) =
        some (0, [] ++ Ini.Context.init.calls lines) := congrArg (Option.map _) hrecord
    rw [iniCalls, hstream]
    rfl
  rw [hiniCalls, handleAll_eq_callAll, hcalls, hvars]
  refine ⟨?_, rfl⟩
  have hread := Ini.entriesFrom_reads (Ini.reads_readLines (Nat.lt_succ_self _))
    (Ini.shortLines_readText hshort) true .empty .empty
  have hknows : Ini.Knows .init .empty .empty := ⟨rfl, rfl⟩
  rw [Ini.calls_eq_handed hknows]
  exact congrArg (List.map IniEntry.handed) hread

/-- Where the text that is read contributes what the contents should, nothing is left unread. -/
theorem eq_of_grows {l l' : List IniEntry} (hgrows : Ini.Grows l l')
    (h : l.map (fun e => e.handed.contribution cfg) = l'.map (IniEntry.contribution cfg)) :
    l = l' := by
  induction hgrows with
  | nil => exact (List.map_eq_nil_iff.mp h.symm).symm
  | @cut e e' l hkey hcontinues =>
    obtain ⟨hhead, hnil⟩ := List.cons.inj h
    have hvalue : e.value = e'.value := congrArg Prod.snd hhead
    obtain rfl := List.map_eq_nil_iff.mp hnil.symm
    obtain ⟨sect, name, value, continues⟩ := e
    obtain ⟨sect', name', value', continues'⟩ := e'
    cases hkey
    cases hcontinues
    cases hvalue
    rfl
  | cons _ ih => rw [ih (List.cons.inj h).2]

theorem zip_handed (l : List IniEntry) :
    l.zip (l.map IniEntry.handed) = l.map fun e => (e, e.handed) := by
  induction l with
  | nil => rfl
  | cons e l ih => rw [List.map_cons, List.zip_cons_cons, ih, List.map_cons]

/-- The values that are contributed to a name are those of its key, if no other key has that name. -/
theorem joined_of_handleAll {l : List IniEntry} {calls : List IniCall} {vars : Variables}
    (hvars : handleAll cfg ∅ calls = some vars)
    (hgoes : calls.map (IniCall.contribution cfg) = l.map (IniEntry.contribution cfg))
    {e : IniEntry} (he : e ∈ l)
    (hdistinct : ∀ e' ∈ l, e'.flat cfg = e.flat cfg → e'.key = e.key) :
    vars.findVariable (e.flat cfg) =
      some (joinValues cfg.valueDelimiter (valuesAt e.key (l.map fun e => (e.key, e.value)))) := by
  have hrepresents := represents_handleAll (represents_empty cfg.valueDelimiter) hvars
  have hcontributions : [] ++ calls.map (IniCall.contribution cfg) =
      (l.map fun e => (e.key, e.value)).map fun x => (flattenName cfg x.1.1 x.1.2, x.2) := by
    rw [List.nil_append, hgoes, List.map_map]
    rfl
  have hvalues := valuesAt_map (f := fun k : CString × CString => flattenName cfg k.1 k.2)
    e.key (l.map fun e => (e.key, e.value)) (by
      intro x hx hflat
      obtain ⟨e', he', rfl⟩ := List.mem_map.mp hx
      exact hdistinct e' he' hflat)
  have hne : valuesAt e.key (l.map fun e => (e.key, e.value)) ≠ [] := by
    rw [ne_eq, valuesAt_eq_nil_iff, not_not, List.map_map]
    exact List.mem_map_of_mem he
  have hflat : e.flat cfg = flattenName cfg e.key.1 e.key.2 := rfl
  have hfind := hrepresents (e.flat cfg)
  rw [hcontributions, hflat, hvalues, if_neg hne] at hfind
  exact hfind

/-- **The values stay with their keys exactly when** the sections, and the names of values that are
continued, fit their buffers, and the keys have different names. -/
theorem keepsKeys_iff (hshort : Ini.ShortLines Ini.maxLine contents.bytes) {vars : Variables}
    (h : fileParseIni cfg contents = .parsed vars) :
    KeepsKeys cfg contents vars ↔ KeysFit cfg contents := by
  obtain ⟨hcalls, hvars⟩ := iniCalls_of_parsed hshort h
  constructor
  · intro hkeeps
    have hgoes := hkeeps.goes
    rw [hcalls, List.map_map] at hgoes
    have hgrows : Ini.Grows (Ini.entries (Ini.readText contents)) (Ini.entries contents.bytes) := by
      have hmore := Ini.grows_textLines true .empty .empty (Ini.readText contents)
        (contents.bytes.drop (Ini.streamLeft contents))
      rwa [Ini.readText, List.take_append_drop] at hmore
    have hread := eq_of_grows hgrows hgoes
    rw [hread] at hcalls hgoes
    have hfits : ∀ e ∈ Ini.entries contents.bytes,
        e.handed.contribution cfg = e.contribution cfg := List.map_inj_left.mp hgoes
    have hbounds := fun (e : IniEntry) he => (e.contribution_handed_iff cfg).mp (hfits e he)
    refine ⟨hread, fun e he => (hbounds e he).1, fun e he => (hbounds e he).2, ?_⟩
    intro e he e' he' hflat
    by_contra hkey
    have hzip : ∀ e ∈ Ini.entries contents.bytes,
        (e, e.handed) ∈ (Ini.entries contents.bytes).zip (iniCalls contents) := by
      intro e he
      rw [hcalls, zip_handed]
      exact List.mem_map_of_mem he
    apply hkeeps.apart _ (hzip e he) _ (hzip e' he') hkey
    show e.handed.flat cfg = e'.handed.flat cfg
    rw [(e.flat_handed_iff cfg).mpr (hbounds e he), (e'.flat_handed_iff cfg).mpr (hbounds e' he'),
      hflat]
  · intro hfit
    rw [hfit.read] at hcalls
    have hbounds := fun e he => And.intro (hfit.sections e he) (hfit.names e he)
    have hgoes : (iniCalls contents).map (IniCall.contribution cfg) =
        (Ini.entries contents.bytes).map (IniEntry.contribution cfg) := by
      rw [hcalls, List.map_map]
      exact List.map_congr_left fun e he => (e.contribution_handed_iff cfg).mpr (hbounds e he)
    refine ⟨hgoes, ?_, ?_⟩
    · intro x hx y hy hkey hflat
      rw [hcalls, zip_handed] at hx hy
      obtain ⟨e, he, rfl⟩ := List.mem_map.mp hx
      obtain ⟨e', he', rfl⟩ := List.mem_map.mp hy
      apply hkey
      apply hfit.distinct e he e' he'
      rwa [(e.flat_handed_iff cfg).mpr (hbounds e he),
        (e'.flat_handed_iff cfg).mpr (hbounds e' he')] at hflat
    · intro e he
      exact joined_of_handleAll hvars hgoes he fun e' he' => hfit.distinct e' he' e he

theorem shortLines_of_length {t : List UInt8} (h : t.length < Ini.maxLine) :
    Ini.ShortLines Ini.maxLine t := by
  intro run hrun hlen
  have hle := hrun.length_le
  omega

/-- The contents `[s]`, `a=1` and, indented, `2`. -/
theorem keepsKeys_continued :
    fileParseIni ⟨.ofBytes [58], .ofBytes [59]⟩
        (.ofBytes [91, 115, 93, 10, 97, 61, 49, 10, 32, 50]) =
      .parsed (.ofList [(.ofBytes [115, 58, 97], .ofBytes [49, 59, 50])] _) ∧
    (KeepsKeys ⟨.ofBytes [58], .ofBytes [59]⟩ (.ofBytes [91, 115, 93, 10, 97, 61, 49, 10, 32, 50])
        (.ofList [(.ofBytes [115, 58, 97], .ofBytes [49, 59, 50])] _) ↔
      KeysFit ⟨.ofBytes [58], .ofBytes [59]⟩
        (.ofBytes [91, 115, 93, 10, 97, 61, 49, 10, 32, 50])) := by
  have h : fileParseIni ⟨.ofBytes [58], .ofBytes [59]⟩
      (.ofBytes [91, 115, 93, 10, 97, 61, 49, 10, 32, 50]) =
        .parsed (.ofList [(.ofBytes [115, 58, 97], .ofBytes [49, 59, 50])] _) := rfl
  exact ⟨h, keepsKeys_iff (shortLines_of_length (by decide)) h⟩

/-- A name of 50 letters with the value `1`, continued by `2`: the second value goes to the name of
49 letters. -/
theorem long_name_splits :
    ∃ vars : Variables, fileParseIni ⟨.ofBytes [58], .ofBytes [59]⟩
        (.ofBytes (List.replicate 50 97 ++ [61, 49, 10, 32, 50])) = .parsed vars ∧
      vars[letters 50]? = some (.ofBytes [49]) ∧ vars[letters 49]? = some (.ofBytes [50]) ∧
      ¬ KeepsKeys ⟨.ofBytes [58], .ofBytes [59]⟩
        (.ofBytes (List.replicate 50 97 ++ [61, 49, 10, 32, 50])) vars := by
  refine ⟨.ofList [(letters 50, .ofBytes [49]), (letters 49, .ofBytes [50])] _, ?_, ?_, ?_, ?_⟩
  · rfl
  · decide +kernel
  · decide +kernel
  · intro h
    have hjoined := h.joined ⟨.empty, letters 50, .ofBytes [49], false⟩ (by decide +kernel)
    revert hjoined
    decide +kernel

end Keys

end VmodCfg.File
