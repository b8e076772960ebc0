import VmodCfg.File.Json
import VmodCfg.Remote.Check
import VmodCfg.Remote.Threads
import VmodCfg.Rules.Parse
import VmodCfg.Script.Globals

/-!
# The objects with a remote location

The callbacks that `file_check`, `rules_check` and `script_check` hand to
`check_remote`, as sources: INI files, JSON files, rules, and scripts in both
languages. Each of them keeps the contents it is given and publishes what it
parsed, so each obeys the law of loads.
-/

namespace VmodCfg.Remote

universe u

def Parsed.toOption {P : Type*} : Parsed P → Option P
  | .parsed p => some p
  | _ => none

/-! ## Files -/

section File

open File

/-- `file_check_callback`; `parse` is `file->parse`. -/
def fileCheckCallback (parse : CString → Parsed Variables) : Callback Variables :=
  fun old contents _ =>
    match parse contents with
    | .panic => none
    | .failed => some (false, old, contents)
    | .parsed vars => some (true, vars, contents)

def fileSource (parse : CString → Parsed Variables) : Source Variables Variables where
  callback := fileCheckCallback parse
  parsed := id
  parse _ c := (parse c).toOption
  keeps h := by
    unfold fileCheckCallback at h
    split at h <;> cases h <;> rfl
  publishes h := by
    unfold fileCheckCallback at h
    split at h
    · cases h
    · rename_i hp
      cases h
      simp [hp, Parsed.toOption]
    · rename_i hp
      cases h
      simp [hp, Parsed.toOption]

def iniSource (cfg : FileCfg) : Source Variables Variables := fileSource (fileParseIni cfg)

def jsonSource {D : Type*} (lib : JsonLib D) (cfg : FileCfg) : Source Variables Variables :=
  fileSource (fileParseJson lib cfg)

end File

/-! ## Rules -/

section Rules

open Rules

variable {V : Type*} (vreCompile : CString → Option V)

def rulesCheckCallback : Callback (List (Rule V)) :=
  fun old contents _ =>
    let (rules, buf) := rulesParse vreCompile contents.bytes
    match rules with
    | .error _ => some (false, old, .ofBytes buf)
    | .ok rules => some (true, rules, .ofBytes buf)

def rulesSource : Source (List (Rule V)) (List (Rule V)) where
  callback := rulesCheckCallback vreCompile
  parsed := id
  parse _ c := (rulesParse vreCompile c.bytes).1.toOption
  keeps {o c b r o' c'} h := by
    have hbuf : CString.ofBytes (rulesParse vreCompile c.bytes).2 = c := by
      rw [rulesParse_buffer, CString.ofBytes_bytes]
    unfold rulesCheckCallback at h
    simp only [hbuf] at h
    split at h <;> cases h <;> rfl
  publishes h := by
    unfold rulesCheckCallback at h
    simp only at h
    split at h
    · rename_i hp
      cases h
      simp [hp, Except.toOption]
    · rename_i hp
      cases h
      simp [hp, Except.toOption]

end Rules

end VmodCfg.Remote

/-! ## Scripts -/

namespace VmodCfg.Script

universe u

section Check

variable {D G E V : Type u} (I : Interp G E V) (cfg : ScriptCfg) (exec : Exec D G E V) (env : E)

/-- `script_check_callback`: the code is compiled in some engine, and published. -/
def scriptCheckCallback : Remote.Callback (ScriptState G V) :=
  fun s contents _ =>
    match apiExecute I cfg exec s.pool contents none none env false with
    | .returned (x, p) =>
      if x.success then
        some (true, ⟨p, some (contents, cfg.functionName contents)⟩, contents)
      else some (false, { s with pool := p }, contents)
    | .blocked | .aborted => none

/-- What the code parses to: itself and its name, if the engine that is locked compiles it. -/
def scriptParse (s : ScriptState G V) (code : CString) : Option (Option (CString × CString)) :=
  match lockEngine cfg.pool s.pool (Vm.init I) (I.memory I.new) with
  | (none, _) => none
  | (some e, p) =>
    match p.heap e with
    | none => none
    | some engine =>
      if I.readies engine.ctx.globals (cfg.functionName code) code then
        some (some (code, cfg.functionName code))
      else none

def scriptSource (hexec : Exec.Checks I exec) :
    Remote.Source (ScriptState G V) (Option (CString × CString)) where
  callback := scriptCheckCallback I cfg exec env
  parsed := ScriptState.function
  parse := scriptParse I cfg
  keeps h := by
    unfold scriptCheckCallback at h
    split at h
    · split at h <;> cases h <;> rfl
    · cases h
    · cases h
  publishes {s code b r s' c'} h := by
    unfold scriptCheckCallback apiExecute executeOn at h
    unfold scriptParse
    rcases hlock : lockEngine cfg.pool s.pool (Vm.init I) (I.memory I.new) with ⟨_ | e, p⟩
    · simp [hlock] at h
    · cases heng : p.heap e with
      | none => simp [hlock, heng] at h
      | some engine =>
        simp only [hlock, heng] at h
        rcases hx : exec engine.ctx code ((none : Option CString).getD (cfg.functionName code))
            none env with _ | x
        · simp only [hx] at h
          cases h
        · have hcomp := hexec.success hx
          simp only [hx] at h
          simp only [heng]
          rcases hgc : callCollector I cfg engine.ncycles false x.vm with _ | ⟨gc, vm⟩
          · simp [hgc] at h
          · simp only [hgc] at h
            rw [Option.getD_none] at hcomp
            rw [← hcomp]
            by_cases hs : x.success = true
            · simp only [hs, if_true] at h ⊢
              cases h
              exact ⟨rfl, rfl⟩
            · simp only [hs] at h ⊢
              cases h
              exact ⟨rfl, rfl⟩

/-- What `script_check_callback` plugs into `check_remote` when threads share the object; the outcome
of the compilation is what comes from outside. `vmod_script_execute` reads the function without a
call of `check_remote`, so that there are no lookups. -/
def scriptKind : Remote.Kind Bool (Option (CString × CString)) Empty (CString × CString) where
  parse compiles code :=
    if compiles then .parsed (some (code, cfg.functionName code)) else .failed
  empty := none
  lookup _ q := q.elim
  fallback q := q.elim
  freesUnderLock := true
  copiesUnderLock := true

variable {I cfg exec env} in
/-- The callback publishes what this kind of object parses, and nothing when it fails. -/
theorem scriptCheckCallback_kind {s s' : ScriptState G V} {code code' : CString} {isBackup r : Bool}
    (h : scriptCheckCallback I cfg exec env s code isBackup = some (r, s', code')) :
    (scriptKind cfg).parse r code = (if r then .parsed s'.function else .failed) ∧
      (r = false → s'.function = s.function) := by
  unfold scriptCheckCallback at h
  split at h
  · split at h <;> cases h
    · exact ⟨rfl, fun hr => by cases hr⟩
    · exact ⟨rfl, fun _ => rfl⟩
  · cases h
  · cases h

end Check

section Languages

variable {D G E : Type u}

def luaSource (I : Interp G E (LuaValue D)) (cfg : ScriptCfg) (env : E) :
    Remote.Source (ScriptState G (LuaValue D)) (Option (CString × CString)) :=
  scriptSource I cfg (executeLua I) env (executeLua_checks I)

def jsSource (I : Interp G E (JsValue D)) (cfg : ScriptCfg) (env : E) :
    Remote.Source (ScriptState G (JsValue D)) (Option (CString × CString)) :=
  scriptSource I cfg (executeJavascript I) env (executeJavascript_checks I)

end Languages

end VmodCfg.Script

namespace VmodCfg.Remote

universe u

/-- **Loads obey their law for every kind of object**: INI files, JSON files, rules, and scripts in
Lua and in JavaScript. -/
theorem loads_obey_law {D G E V : Type u} (file : File.FileCfg) (lib : File.JsonLib D)
    (vreCompile : CString → Option V) (cfg : Script.ScriptCfg) (env : E)
    (I : Script.Interp G E (Script.LuaValue D)) (J : Script.Interp G E (Script.JsValue D)) :
    (iniSource file).LoadLaw ∧ (jsonSource lib file).LoadLaw ∧ (rulesSource vreCompile).LoadLaw ∧
      (Script.luaSource I cfg env).LoadLaw ∧ (Script.jsSource J cfg env).LoadLaw :=
  ⟨Source.load_law _, Source.load_law _, Source.load_law _, Source.load_law _, Source.load_law _⟩

/-- The second line of the location is malformed: the backup `x=1` is loaded, and `y` is not set. -/
example :
    checkRemote ⟨true, true, 0⟩ ⟨some [121, 61, 50, 10, 122], 5, 6, false, .openFailed⟩
        (iniSource ⟨.ofBytes [58], .ofBytes [59]⟩).callback
        ⟨0, false, none, ∅, some ⟨[120, 61, 49], true⟩, []⟩ true false =
      some (true, ⟨6, false, some (.ofBytes [120, 61, 49]),
        Std.ExtTreeMap.insert ∅ (.ofBytes [120]) (.ofBytes [49]), some ⟨[120, 61, 49], true⟩,
        [.read]⟩) := by
  decide

end VmodCfg.Remote
