import VmodCfg.File.IniLines
import VmodCfg.File.IniVariables

/-!
# The calls of the INI parser

`entries` says which lines of a text have a value, and to which section and name it belongs; neither
is cut. The parser keeps the section and the previous name in buffers of 50 bytes, so that what it
calls the handler with may be cut off. A handler that takes down its calls shows what the parser
does, whatever the handler is.
-/

namespace VmodCfg.File

open CString

/-- A line with a value: the section and the name that it belongs to. A line that continues the
value of the line before it has the name of that line. -/
structure IniEntry where
  sect : CString
  name : CString
  value : CString
  continues : Bool
  deriving DecidableEq

namespace IniEntry

def key (e : IniEntry) : CString × CString := (e.sect, e.name)

/-- The name of the variable of that section and that name. -/
def flat (cfg : FileCfg) (e : IniEntry) : CString := flattenName cfg e.sect e.name

/-- The call for the line, with what is left of the section and of the name. -/
def handed (e : IniEntry) : IniCall where
  sect := Ini.strncpy0 e.sect.bytes Ini.maxSection
  name := if e.continues then Ini.strncpy0 e.name.bytes Ini.maxName else e.name
  value := e.value

end IniEntry

namespace Ini

/-- The lines with a value; `sect` and `prev` are the section and the previous name before them. -/
def entriesFrom (first : Bool) (sect prev : CString) : List (List UInt8) → List IniEntry
  | [] => []
  | line :: lines =>
    match classify first (prev.bytes != []) line with
    | .continuation value => ⟨sect, prev, .ofBytes value, true⟩ :: entriesFrom false sect prev lines
    | .header name => entriesFrom false (.ofBytes name) .empty lines
    | .pair name value =>
      ⟨sect, .ofBytes name, .ofBytes value, false⟩ :: entriesFrom false sect (.ofBytes name) lines
    | _ => entriesFrom false sect prev lines

def entries (t : List UInt8) : List IniEntry := entriesFrom true .empty .empty (textLines t)

/-- A handler that takes down its calls. -/
def recordCall : Handler (List IniCall) := fun calls sect name value =>
  some (true, calls ++ [⟨sect, name, value⟩])

end Ini

def iniCalls (contents : CString) : List IniCall :=
  ((Ini.parseStream Ini.recordCall [] (Ini.readText contents)).map Prod.snd).getD []

/-! ## The calls of a run -/

namespace Ini

namespace Context

variable (c : Context) (line : List UInt8)

/-- The call for a line. -/
def call : Option IniCall :=
  match c.classify line with
  | .continuation value => some ⟨c.currentSection, c.prevName, .ofBytes value⟩
  | .pair name value => some ⟨c.currentSection, .ofBytes name, .ofBytes value⟩
  | _ => none

def calls (c : Context) : List (List UInt8) → List IniCall
  | [] => []
  | line :: lines => (c.call line).toList ++ (c.next line).calls lines

def state {U : Type*} (user : U) : State U := ⟨user, c.currentSection, c.prevName, c.lineno, 0⟩

end Context

section Run

variable {U : Type*} {handler : Handler U}

/-- A handler that never asks the parser to stop. -/
def NeverStops (handler : Handler U) : Prop :=
  ∀ user sect name value x, handler user sect name value = some x → x.1 = true

def callAll (handler : Handler U) (user : U) : List IniCall → Option U
  | [] => some user
  | c :: calls => (handler user c.sect c.name c.value).bind fun x => callAll handler x.2 calls

theorem callAll_append (handler : Handler U) (user : U) (calls calls' : List IniCall) :
    callAll handler user (calls ++ calls') =
      (callAll handler user calls).bind fun user => callAll handler user calls' := by
  induction calls generalizing user with
  | nil => rfl
  | cons c calls ih => simp only [List.cons_append, callAll, ih, Option.bind_assoc]

theorem handle_of_neverStops (hstops : NeverStops handler) (c : Context) (user : U)
    (name value : List UInt8) :
    (c.state user).handle handler name value =
      (callAll handler user [⟨c.currentSection, .ofBytes name, .ofBytes value⟩]).map c.state := by
  simp only [State.handle, callAll, Context.state]
  cases hcall : handler user c.currentSection (.ofBytes name) (.ofBytes value) with
  | none => rfl
  | some x =>
    have htrue := hstops _ _ _ _ _ hcall
    obtain ⟨ok, user'⟩ := x
    cases htrue
    rfl

theorem parseLine_eq (hstops : NeverStops handler) {c : Context} {line : List UInt8}
    (hline : c.classify line ≠ .malformed) (user : U) :
    parseLine handler (c.state user) line =
      (callAll handler user (c.call line).toList).map (c.next line).state := by
  have hclassify : Ini.classify ((c.state user).lineno + 1 == 1)
      ((c.state user).prevName.bytes != []) line = c.classify line := rfl
  unfold parseLine Context.call Context.next
  simp only [hclassify]
  cases hkind : c.classify line with
  | skipped => rfl
  | header name => rfl
  | malformed => exact absurd hkind hline
  | continuation value =>
    have hhandle := handle_of_neverStops hstops ⟨c.lineno + 1, c.currentSection, c.prevName⟩ user
      c.prevName.bytes value
    rw [ofBytes_bytes] at hhandle
    exact hhandle
  | pair name value =>
    exact handle_of_neverStops hstops ⟨c.lineno + 1, c.currentSection, strncpy0 name maxName⟩ user
      name value

/-- **A run without an error**: the calls for the lines that are read, and no line is malformed. -/
theorem callAll_of_parseLines (hstops : NeverStops handler) {c : Context} {user : U} {fuel : Nat}
    {rest : List UInt8} {st : State U}
    (h : parseLines handler fuel (c.state user) rest = some st) (hzero : st.error = 0) :
    callAll handler user (c.calls (readLines maxLine fuel rest)) = some st.user ∧
      (c.after (readLines maxLine fuel rest)).isSome := by
  induction fuel generalizing c user rest with
  | zero =>
    cases h
    exact ⟨rfl, rfl⟩
  | succ fuel ih =>
    unfold parseLines at h
    unfold readLines
    cases hread : streamReader maxLine rest with
    | none =>
      rw [hread] at h
      cases h
      exact ⟨rfl, rfl⟩
    | some x =>
      obtain ⟨line, left⟩ := x
      rw [hread] at h
      simp only at h ⊢
      by_cases hline : c.classify line = .malformed
      · -- the loop stops there, with the error
        have herr : (c.state user).error = 0 := rfl
        have hstate : (c.state user).context.classify line = .malformed := hline
        rw [parseLine_malformed herr hstate] at h
        cases h
        cases hzero
      · rw [parseLine_eq hstops hline] at h
        rw [Context.calls, callAll_append, Context.after, if_neg hline]
        cases hcall : callAll handler user (c.call line).toList with
        | none =>
          rw [hcall] at h
          cases h
        | some user' =>
          rw [hcall] at h
          exact ih h

theorem parseLines_of_after (hstops : NeverStops handler) {c : Context} {user user' : U}
    {fuel : Nat} {rest : List UInt8} (hafter : (c.after (readLines maxLine fuel rest)).isSome)
    (hcalls : callAll handler user (c.calls (readLines maxLine fuel rest)) = some user') :
    ∃ c' : Context, parseLines handler fuel (c.state user) rest = some (c'.state user') := by
  induction fuel generalizing c user rest with
  | zero =>
    cases hcalls
    exact ⟨c, rfl⟩
  | succ fuel ih =>
    unfold readLines at hafter hcalls
    unfold parseLines
    cases hread : streamReader maxLine rest with
    | none =>
      rw [hread] at hcalls
      cases hcalls
      exact ⟨c, rfl⟩
    | some x =>
      obtain ⟨line, left⟩ := x
      rw [hread] at hafter hcalls
      simp only [Context.after, Context.calls, callAll_append] at hafter hcalls ⊢
      obtain ⟨user'', hcall, hrest⟩ := Option.bind_eq_some_iff.mp hcalls
      split at hafter
      · cases hafter
      · rename_i hline
        obtain ⟨c', hc'⟩ := ih hafter hrest
        refine ⟨c', ?_⟩
        rw [parseLine_eq hstops hline, hcall]
        exact hc'

theorem recordCall_neverStops : NeverStops recordCall := by
  rintro calls sect name value x h
  cases h
  rfl

theorem callAll_recordCall (calls calls' : List IniCall) :
    callAll recordCall calls calls' = some (calls ++ calls') := by
  induction calls' generalizing calls with
  | nil => rw [List.append_nil]; rfl
  | cons c calls' ih =>
    rw [callAll]
    refine (ih (calls ++ [c])).trans ?_
    rw [List.append_assoc]
    rfl

end Run

/-! ## The calls and the lines of the text -/

theorem cut_ofBytes (l : List UInt8) (size : Nat) :
    strncpy0 (CString.ofBytes l).bytes size = strncpy0 l size := by
  apply CString.ext
  show ((l.takeWhile (· != 0)).take (size - 1)).takeWhile (· != 0) =
    (l.take (size - 1)).takeWhile (· != 0)
  rw [List.take_takeWhile, List.takeWhile_takeWhile]
  simp only [and_self, Bool.decide_eq_true]

theorem bytes_cut (s : CString) (size : Nat) :
    (strncpy0 s.bytes size).bytes = s.bytes.take (size - 1) :=
  bytes_ofBytes fun h => s.no_nul (List.mem_of_mem_take h)

/-- There is a previous name whatever is left of it. -/
theorem cut_ne_nil (s : CString) : ((strncpy0 s.bytes maxName).bytes != []) = (s.bytes != []) := by
  rw [bytes_cut]
  cases s.bytes <;> rfl

/-- The parser knows what is left of the section and of the previous name. -/
structure Knows (c : Context) (sect prev : CString) : Prop where
  sect : c.currentSection = strncpy0 sect.bytes maxSection
  prev : c.prevName = strncpy0 prev.bytes maxName

theorem calls_eq_handed {c : Context} {sect prev : CString} (hknows : Knows c sect prev)
    (lines : List (List UInt8)) :
    c.calls lines = (entriesFrom (c.lineno + 1 == 1) sect prev lines).map IniEntry.handed := by
  induction lines generalizing c sect prev with
  | nil => rfl
  | cons line lines ih =>
    have hclassify : c.classify line =
        Ini.classify (c.lineno + 1 == 1) (prev.bytes != []) line := by
      rw [Context.classify, hknows.prev, cut_ne_nil]
    have hnext : ∀ {c' : Context} {sect' prev' : CString}, c'.lineno = c.lineno + 1 →
        Knows c' sect' prev' →
          c'.calls lines = (entriesFrom false sect' prev' lines).map IniEntry.handed := by
      intro c' sect' prev' hlineno hknows'
      rw [ih hknows', hlineno]
      rfl
    rw [Context.calls, entriesFrom, Context.call, Context.next, hclassify]
    cases Ini.classify (c.lineno + 1 == 1) (prev.bytes != []) line with
    | skipped => exact hnext rfl ⟨hknows.sect, hknows.prev⟩
    | malformed => exact hnext rfl ⟨hknows.sect, hknows.prev⟩
    | header name => exact hnext rfl ⟨(cut_ofBytes name maxSection).symm, rfl⟩
    | continuation value =>
      simp only [Option.toList_some, List.map_cons, IniEntry.handed, if_true, hknows.sect,
        hknows.prev, List.singleton_append]
      exact congrArg (List.cons _) (hnext rfl ⟨rfl, rfl⟩)
    | pair name value =>
      simp only [Option.toList_some, List.map_cons, IniEntry.handed, hknows.sect,
        List.singleton_append]
      exact congrArg (List.cons _) (hnext rfl ⟨rfl, (cut_ofBytes name maxName).symm⟩)

theorem entriesFrom_empty (first : Bool) (sect prev : CString) (lines : List (List UInt8)) :
    entriesFrom first sect prev ([] :: lines) = entriesFrom false sect prev lines := by
  rw [entriesFrom, classify_nil]

theorem entriesFrom_cons_congr {first : Bool} {sect prev : CString} {line : List UInt8}
    {lines lines' : List (List UInt8)}
    (h : ∀ sect prev, entriesFrom false sect prev lines = entriesFrom false sect prev lines') :
    entriesFrom first sect prev (line :: lines) = entriesFrom first sect prev (line :: lines') := by
  unfold entriesFrom
  split <;> simp only [h]

/-- The lines with a value are the same in the text and in what the reader hands out. -/
theorem entriesFrom_reads {rest : List UInt8} {strs : List (List UInt8)}
    (h : Reads maxLine rest strs) (hshort : ShortLines maxLine rest) (first : Bool)
    (sect prev : CString) :
    entriesFrom first sect prev strs = entriesFrom first sect prev (textLines rest) := by
  induction h generalizing first sect prev with
  | eof => exact (entriesFrom_empty first sect prev []).symm
  | @line rest left str strs hread hs ih =>
    have hstep := readStep_of_streamReader (by decide) hshort hread
    have hleft := hstep.shortLines hshort
    cases hstep with
    | last hline =>
      rw [textLines_line hline]
      cases hs with
      | eof => rfl
      | line hread' => cases hread'
    | one hline hc hone =>
      rw [textLines_newline hline hc]
      exact entriesFrom_cons_congr (ih hleft false)
    | @doubled _ _ c hline hc hlt =>
      rw [textLines_newline hline hc, ← List.nil_append (c :: left),
        textLines_newline (List.forall_mem_nil _) hc]
      refine entriesFrom_cons_congr fun sect prev => ?_
      rw [entriesFrom_empty]
      exact ih hleft false sect prev

end Ini

end VmodCfg.File
