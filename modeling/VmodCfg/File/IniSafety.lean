import VmodCfg.File.IniReader

/-!
# The assertions of `file_parse_ini`

The handler asserts that `asprintf` printed a name of at least one byte. `Context` is what the
parser knows before a line, so that the name a line hands over can be told without the variables
that were collected; from it follows exactly which contents abort the process.
-/

namespace VmodCfg.File

open CString

namespace Ini

/-- What the parser knows before a line. -/
structure Context where
  lineno : Nat
  currentSection : CString
  prevName : CString

namespace Context

def init : Context := ⟨0, .empty, .empty⟩

variable (c : Context) (line : List UInt8)

def classify : Line := Ini.classify (c.lineno + 1 == 1) (c.prevName.bytes != []) line

/-- What the parser knows after the line. -/
def next : Context :=
  match c.classify line with
  | .header name => ⟨c.lineno + 1, strncpy0 name maxSection, .empty⟩
  | .pair name _ => ⟨c.lineno + 1, c.currentSection, strncpy0 name maxName⟩
  | _ => ⟨c.lineno + 1, c.currentSection, c.prevName⟩

def handed : Option CString :=
  match c.classify line with
  | .continuation _ => some c.prevName
  | .pair name _ => some (.ofBytes name)
  | _ => none

/-- What the parser knows after some lines; it stops at the first that is malformed. -/
def after (c : Context) : List (List UInt8) → Option Context
  | [] => some c
  | line :: lines => if c.classify line = .malformed then none else (c.next line).after lines

end Context

end Ini

/-- The name of a variable of a section, as the handler prints it. -/
def flattenName (cfg : FileCfg) (sect name : CString) : CString :=
  if sect.bytes ≠ [] then sect ++ cfg.nameDelimiter ++ name else name

/-- The lines of the contents, as the reader of `file_parse_ini` hands them out. -/
def iniLines (contents : CString) : List (List UInt8) :=
  let rest := contents.bytes.take (Ini.streamLeft contents)
  Ini.readLines Ini.maxLine (rest.length + 1) rest

/-- A line whose name can be printed, if it has one. -/
def LineOk (cfg : FileCfg) (c : Ini.Context) (line : List UInt8) : Prop :=
  ∀ name, c.handed line = some name →
    (c.currentSection ≠ .empty ∨ name ≠ .empty) ∧
      (flattenName cfg c.currentSection name).bytes.length < 2 ^ 31

/-- All lines up to the first malformed one are fine; `c` is known before them. -/
def LinesOk (cfg : FileCfg) (c : Ini.Context) (lines : List (List UInt8)) : Prop :=
  ∀ before line rest c', lines = before ++ line :: rest → c.after before = some c' →
    LineOk cfg c' line

/-! ## The handler -/

section Handler

variable {cfg : FileCfg} {sect name : CString}

theorem bytes_eq_nil {s : CString} : s.bytes = [] ↔ s = .empty :=
  ⟨fun h => ext h, fun h => by rw [h]; rfl⟩

theorem flattenName_asprintf : 0 < (flattenName cfg sect name).asprintf ↔
    (sect ≠ .empty ∨ name ≠ .empty) ∧ (flattenName cfg sect name).bytes.length < 2 ^ 31 := by
  rw [asprintf_pos]
  refine and_congr_left fun _ => ?_
  unfold flattenName
  split
  · rename_i hs
    have hsect : sect ≠ .empty := fun h => hs (bytes_eq_nil.2 h)
    refine ⟨fun _ => .inl hsect, fun _ he => ?_⟩
    have hnil := bytes_eq_nil.2 he
    simp only [bytes_append, List.append_eq_nil_iff] at hnil
    exact hs hnil.1.1
  · rename_i hs
    have hsect : sect = .empty := bytes_eq_nil.1 (by simpa using hs)
    simp [hsect]

/-- The handler never asks the parser to stop, and panics only over the name. -/
theorem fileParseIniHandler_spec (cfg : FileCfg) (vars : Variables) (sect name value : CString) :
    (0 < (flattenName cfg sect name).asprintf ∧
      ∃ vars', fileParseIniHandler cfg vars sect name value = some (true, vars')) ∨
    (¬ 0 < (flattenName cfg sect name).asprintf ∧
      fileParseIniHandler cfg vars sect name value = none) := by
  have hbuffer : (if sect.bytes ≠ [] then sect ++ cfg.nameDelimiter ++ name else name) =
      flattenName cfg sect name := rfl
  by_cases hpos : 0 < (flattenName cfg sect name).asprintf
  · refine .inl ⟨hpos, ?_⟩
    simp only [fileParseIniHandler, hbuffer, if_pos hpos]
    cases hfind : vars.findVariable (flattenName cfg sect name) with
    | none =>
      have hnew : flattenName cfg sect name ∉ vars := by
        rw [Std.ExtTreeMap.mem_iff_isSome_getElem?]
        exact Option.not_isSome_iff_eq_none.2 hfind
      simp only [Variables.insertNew, if_neg hnew]
      exact ⟨_, rfl⟩
    | some old => exact ⟨_, rfl⟩
  · refine .inr ⟨hpos, ?_⟩
    simp only [fileParseIniHandler, hbuffer, if_neg hpos]

end Handler

/-! ## The loop -/

namespace Ini

section Loop

variable {cfg : FileCfg}

/-- What the state of the parser knows. -/
def State.context {U : Type*} (st : State U) : Context := ⟨st.lineno, st.currentSection, st.prevName⟩

/-- A line is malformed, is read without a panic, or panics over its name. -/
inductive Step (cfg : FileCfg) (st : State Variables) (line : List UInt8) : Prop
  | malformed (hline : st.context.classify line = .malformed)
      (h : ∃ st', parseLine (fileParseIniHandler cfg) st line = some st' ∧ st'.error ≠ 0)
  | read (hline : st.context.classify line ≠ .malformed) (hok : LineOk cfg st.context line)
      (h : ∃ st', parseLine (fileParseIniHandler cfg) st line = some st' ∧ st'.error = 0 ∧
        st'.context = st.context.next line)
  | panics (hline : st.context.classify line ≠ .malformed) (hok : ¬ LineOk cfg st.context line)
      (h : parseLine (fileParseIniHandler cfg) st line = none)

theorem lineOk_of_handed {c : Context} {line : List UInt8} {name : CString}
    (h : c.handed line = some name) :
    LineOk cfg c line ↔ 0 < (flattenName cfg c.currentSection name).asprintf := by
  rw [flattenName_asprintf, LineOk, h]
  exact ⟨fun hok => hok name rfl, fun hok n hn => Option.some.inj hn ▸ hok⟩

theorem lineOk_of_none {c : Context} {line : List UInt8} (h : c.handed line = none) :
    LineOk cfg c line := by
  intro name hname
  rw [h] at hname
  cases hname

theorem handle_spec (cfg : FileCfg) (st : State Variables) (name value : List UInt8) :
    (0 < (flattenName cfg st.currentSection (.ofBytes name)).asprintf ∧
      ∃ vars, st.handle (fileParseIniHandler cfg) name value = some { st with user := vars }) ∨
    (¬ 0 < (flattenName cfg st.currentSection (.ofBytes name)).asprintf ∧
      st.handle (fileParseIniHandler cfg) name value = none) := by
  obtain ⟨hpos, vars, h⟩ | ⟨hneg, h⟩ := fileParseIniHandler_spec cfg st.user
    st.currentSection (.ofBytes name) (.ofBytes value)
  · refine .inl ⟨hpos, vars, ?_⟩
    rw [State.handle, h]
    rfl
  · refine .inr ⟨hneg, ?_⟩
    rw [State.handle, h]
    rfl

theorem parseLine_malformed {U : Type*} {handler : Handler U} {st : State U} (herr : st.error = 0)
    {line : List UInt8} (h : st.context.classify line = .malformed) :
    parseLine handler st line =
      some { st with lineno := st.lineno + 1, error := st.lineno + 1 } := by
  have hraw : Ini.classify (st.lineno + 1 == 1) (st.prevName.bytes != []) line = .malformed := h
  simp only [parseLine, hraw, herr, if_true]

theorem parseLine_step (cfg : FileCfg) {st : State Variables} (herr : st.error = 0) (line : List UInt8) :
    Step cfg st line := by
  obtain ⟨user, sect, prev, lineno, error⟩ := st
  cases herr
  let c : Context := ⟨lineno, sect, prev⟩
  cases hline : c.classify line with
  | skipped =>
    have hraw : Ini.classify (lineno + 1 == 1) (prev.bytes != []) line = .skipped := hline
    have hhanded : c.handed line = none := by rw [Context.handed, hline]
    have hnext : c.next line = ⟨lineno + 1, sect, prev⟩ := by rw [Context.next, hline]
    refine .read (fun h => ?_) (lineOk_of_none hhanded)
      ⟨⟨user, sect, prev, lineno + 1, 0⟩, ?_, rfl, hnext.symm⟩
    · cases hline.symm.trans h
    · simp only [parseLine, hraw]
  | header name =>
    have hraw : Ini.classify (lineno + 1 == 1) (prev.bytes != []) line = .header name := hline
    have hhanded : c.handed line = none := by rw [Context.handed, hline]
    have hnext : c.next line = ⟨lineno + 1, strncpy0 name maxSection, .empty⟩ := by
      rw [Context.next, hline]
    refine .read (fun h => ?_) (lineOk_of_none hhanded)
      ⟨⟨user, strncpy0 name maxSection, .empty, lineno + 1, 0⟩, ?_, rfl, hnext.symm⟩
    · cases hline.symm.trans h
    · simp only [parseLine, hraw]
  | malformed =>
    exact .malformed hline ⟨_, parseLine_malformed rfl hline, Nat.succ_ne_zero _⟩
  | continuation value =>
    have hraw : Ini.classify (lineno + 1 == 1) (prev.bytes != []) line = .continuation value := hline
    have hhanded : c.handed line = some prev := by rw [Context.handed, hline]
    have hnext : c.next line = ⟨lineno + 1, sect, prev⟩ := by rw [Context.next, hline]
    have hstep := handle_spec cfg ⟨user, sect, prev, lineno + 1, 0⟩ prev.bytes value
    rw [ofBytes_bytes] at hstep
    obtain ⟨hpos, vars, h⟩ | ⟨hneg, h⟩ := hstep
    · refine .read (fun h => ?_) ((lineOk_of_handed hhanded).2 hpos)
        ⟨⟨vars, sect, prev, lineno + 1, 0⟩, ?_, rfl, hnext.symm⟩
      · cases hline.symm.trans h
      · simp only [parseLine, hraw, h]
    · refine .panics (fun h => ?_) (fun hok => hneg ((lineOk_of_handed hhanded).1 hok)) ?_
      · cases hline.symm.trans h
      · simp only [parseLine, hraw, h]
  | pair name value =>
    have hraw : Ini.classify (lineno + 1 == 1) (prev.bytes != []) line = .pair name value := hline
    have hhanded : c.handed line = some (.ofBytes name) := by rw [Context.handed, hline]
    have hnext : c.next line = ⟨lineno + 1, sect, strncpy0 name maxName⟩ := by
      rw [Context.next, hline]
    obtain ⟨hpos, vars, h⟩ | ⟨hneg, h⟩ :=
      handle_spec cfg ⟨user, sect, strncpy0 name maxName, lineno + 1, 0⟩ name value
    · refine .read (fun h => ?_) ((lineOk_of_handed hhanded).2 hpos)
        ⟨⟨vars, sect, strncpy0 name maxName, lineno + 1, 0⟩, ?_, rfl, hnext.symm⟩
      · cases hline.symm.trans h
      · simp only [parseLine, hraw, h]
    · refine .panics (fun h => ?_) (fun hok => hneg ((lineOk_of_handed hhanded).1 hok)) ?_
      · cases hline.symm.trans h
      · simp only [parseLine, hraw, h]

theorem linesOk_nil {c : Context} : LinesOk cfg c [] := by
  intro before line rest c' h
  simp at h

theorem linesOk_cons {c : Context} {line : List UInt8} {lines : List (List UInt8)} :
    LinesOk cfg c (line :: lines) ↔
      LineOk cfg c line ∧ (c.classify line ≠ .malformed → LinesOk cfg (c.next line) lines) := by
  constructor
  · intro h
    refine ⟨h [] line lines c rfl rfl, fun hline before l rest c' hl hafter => ?_⟩
    refine h (line :: before) l rest c' (by rw [hl]; rfl) ?_
    rw [Context.after, if_neg hline, hafter]
  · rintro ⟨hok, hrest⟩ before l rest c' hl hafter
    cases before with
    | nil =>
      cases hl
      cases hafter
      exact hok
    | cons b before =>
      obtain ⟨rfl, hlines⟩ := List.cons.inj hl
      rw [Context.after] at hafter
      split at hafter
      · cases hafter
      · rename_i hline
        exact hrest hline before l rest c' hlines hafter

theorem parseLines_none_iff (cfg : FileCfg) {st : State Variables} (herr : st.error = 0) (fuel : Nat)
    (rest : List UInt8) : parseLines (fileParseIniHandler cfg) fuel st rest = none ↔
      ¬ LinesOk cfg st.context (readLines maxLine fuel rest) := by
  induction fuel generalizing st rest with
  | zero => exact iff_of_false (Option.some_ne_none _) (not_not_intro linesOk_nil)
  | succ fuel ih =>
    unfold parseLines readLines
    cases streamReader maxLine rest with
    | none => exact iff_of_false (Option.some_ne_none _) (not_not_intro linesOk_nil)
    | some x =>
      obtain ⟨line, left⟩ := x
      simp only
      rw [linesOk_cons]
      cases parseLine_step cfg herr line with
      | malformed hline h =>
        obtain ⟨st', hst, hne⟩ := h
        have hok : LineOk cfg st.context line := lineOk_of_none (by rw [Context.handed, hline])
        simp only [hst, if_pos hne]
        exact iff_of_false (Option.some_ne_none _) (not_not_intro ⟨hok, fun hl => absurd hline hl⟩)
      | read hline hok h =>
        obtain ⟨st', hst, hzero, hnext⟩ := h
        simp only [hst, hzero, ne_eq, not_true, if_false]
        rw [ih hzero, hnext]
        exact not_congr ⟨fun h => ⟨hok, fun _ => h⟩, fun h => h.2 hline⟩
      | panics hline hok h =>
        simp only [h]
        exact ⟨fun _ h => hok h.1, fun _ => trivial⟩

end Loop

end Ini

/-- **The INI parser**: it comes to its end on every contents, and it aborts the process exactly
where a line that is read hands over a name that is empty outside of a section, or too long. -/
theorem parse_ini_panics_iff (cfg : FileCfg) (contents : CString) :
    (∀ fuel, contents.bytes.length < fuel →
      Ini.parseLines (fileParseIniHandler cfg) fuel (.init ∅)
          (contents.bytes.take (Ini.streamLeft contents)) =
        Ini.parseLines (fileParseIniHandler cfg)
          ((contents.bytes.take (Ini.streamLeft contents)).length + 1) (.init ∅)
          (contents.bytes.take (Ini.streamLeft contents))) ∧
      (fileParseIni cfg contents ≠ .panic ↔ LinesOk cfg .init (iniLines contents)) := by
  constructor
  · intro fuel hfuel
    refine Ini.parseLines_fuel _ fuel _ _ (Nat.lt_of_le_of_lt ?_ hfuel)
    rw [List.length_take]
    exact Nat.min_le_right _ _
  · have hnone := Ini.parseLines_none_iff cfg (show (Ini.State.init (∅ : Variables)).error = 0 from rfl)
      ((contents.bytes.take (Ini.streamLeft contents)).length + 1)
      (contents.bytes.take (Ini.streamLeft contents))
    have hiff : fileParseIni cfg contents = .panic ↔ ¬ LinesOk cfg .init (iniLines contents) := by
      refine Iff.trans ?_ hnone
      cases hp : Ini.parseLines (fileParseIniHandler cfg)
          ((contents.bytes.take (Ini.streamLeft contents)).length + 1) (.init ∅)
          (contents.bytes.take (Ini.streamLeft contents)) with
      | none =>
        simp only [fileParseIni, Ini.parseStream, hp, Option.map_none]
      | some st =>
        simp only [fileParseIni, Ini.parseStream, hp, Option.map_some, reduceCtorEq, iff_false]
        split <;> exact nofun
    rw [ne_eq, hiff, not_not]

/-- The contents "=1": a line without a name, before any section. -/
theorem nameless_line_panics :
    fileParseIni ⟨.ofBytes [58], .ofBytes [59]⟩ (.ofBytes [61, 49]) = .panic := rfl

end VmodCfg.File
