import VmodCfg.Lib.Machine
import VmodCfg.Remote.Sources

/-!
# Periodic refresh

There is no timer: a remote is loaded again when one of the methods that use it
calls `check_remote` and the period is over. The methods of a file object and of
a rules object all do, and so does `vmod_script_inspect`; `vmod_script_execute`
does not.
-/

namespace VmodCfg.Remote

universe u

open Machine

/-- Every load that is due is attempted: the period is over, nobody is reloading, and nobody starts
to before this call does. -/
def Due {σ : Type*} (cfg : RemoteCfg) (w : Inputs) (s : ObjState σ) : Prop :=
  Expired cfg w s ∧ s.reloading = false ∧ w.claimed = false

instance {σ : Type*} (cfg : RemoteCfg) (w : Inputs) (s : ObjState σ) : Decidable (Due cfg w s) :=
  inferInstanceAs (Decidable (_ ∧ _ ∧ _))

/-- What the operation added to the log starts with a read of the location. -/
def ReadsFirst {σ : Type*} (s s' : ObjState σ) : Prop := ∃ l, s'.log = s.log ++ .read :: l

def ObjState.serve {σ : Type*} (s : ObjState σ) : ObjState σ := { s with log := s.log ++ [.serve] }

/-- `inspect_remote`: what is appended to the body, in `vcl_synth` or `vcl_backend_error`. -/
def inspectRemote {σ : Type*} (s : ObjState σ) (synth : Bool) : Option CString :=
  if synth then s.contents else none

def thenServe {σ A : Type*} (checked : Option (Bool × ObjState σ)) (answer : ObjState σ → A) :
    Option (A × ObjState σ) :=
  checked.map fun x => (answer x.2, x.2.serve)

/-! ## The methods -/

section File

open File

variable (parse : CString → Parsed Variables)
variable (dumpVariables : Variables → Bool → Option CString → Option CString)
variable (cfg : RemoteCfg) (w : Inputs) (s : ObjState Variables)

def fileCheck (forceLoad forceBackup : Bool) : Option (Bool × ObjState Variables) :=
  checkRemote cfg w (fileCheckCallback parse) s forceLoad forceBackup

def vmodFileReload (forceBackup : Bool) : Option (Bool × ObjState Variables) :=
  fileCheck parse cfg w s true forceBackup

def vmodFileDump (stream : Bool) (path : Option CString) :
    Option (Option CString × ObjState Variables) :=
  thenServe (fileCheck parse cfg w s false false) fun s => dumpVariables s.object stream path

def vmodFileInspect (synth : Bool) : Option (Option CString × ObjState Variables) :=
  thenServe (fileCheck parse cfg w s false false) fun s => inspectRemote s synth

def vmodFileIsSet (name : Option CString) : Option (Bool × ObjState Variables) :=
  thenServe (fileCheck parse cfg w s false false) fun s => s.object.isSetVariable name

/-- `vmod_file_get`; `room` tells whether the value fits the workspace. -/
def vmodFileGet (name fallback : Option CString) (room : Bool) :
    Option (Option CString × ObjState Variables) :=
  thenServe (fileCheck parse cfg w s false false) fun s =>
    (s.object.getVariable name fallback).filter fun _ => room

inductive FileCall where
  | reload (forceBackup : Bool)
  | dump (stream : Bool) (path : Option CString)
  | inspect (synth : Bool)
  | isSet (name : Option CString)
  | get (name fallback : Option CString) (room : Bool)

def fileStep (s : ObjState Variables) : Inputs × FileCall → Option (ObjState Variables)
  | (w, .reload forceBackup) => (vmodFileReload parse cfg w s forceBackup).map Prod.snd
  | (w, .dump stream path) => (vmodFileDump parse dumpVariables cfg w s stream path).map Prod.snd
  | (w, .inspect synth) => (vmodFileInspect parse cfg w s synth).map Prod.snd
  | (w, .isSet name) => (vmodFileIsSet parse cfg w s name).map Prod.snd
  | (w, .get name fallback room) => (vmodFileGet parse cfg w s name fallback room).map Prod.snd

end File

section Rules

open Rules

variable {V : Type*} (vreCompile : CString → Option V) (reMatch : Option CString → V → Bool)
variable (cfg : RemoteCfg) (w : Inputs) (s : ObjState (List (Rule V)))

def rulesCheck (forceLoad forceBackup : Bool) : Option (Bool × ObjState (List (Rule V))) :=
  checkRemote cfg w (rulesCheckCallback vreCompile) s forceLoad forceBackup

def vmodRulesReload (forceBackup : Bool) : Option (Bool × ObjState (List (Rule V))) :=
  rulesCheck vreCompile cfg w s true forceBackup

def vmodRulesInspect (synth : Bool) : Option (Option CString × ObjState (List (Rule V))) :=
  thenServe (rulesCheck vreCompile cfg w s false false) fun s => inspectRemote s synth

/-- `vmod_rules_get`, when no other thread uses the object -/
def vmodRulesGet (value fallback : Option CString) (room : Bool) :
    Option (Option CString × ObjState (List (Rule V))) :=
  thenServe (rulesCheck vreCompile cfg w s false false) fun s =>
    ((firstMatch reMatch s.object value).or fallback).filter fun _ => room

inductive RulesCall where
  | reload (forceBackup : Bool)
  | inspect (synth : Bool)
  | get (value fallback : Option CString) (room : Bool)

def rulesStep (s : ObjState (List (Rule V))) :
    Inputs × RulesCall → Option (ObjState (List (Rule V)))
  | (w, .reload forceBackup) => (vmodRulesReload vreCompile cfg w s forceBackup).map Prod.snd
  | (w, .inspect synth) => (vmodRulesInspect vreCompile cfg w s synth).map Prod.snd
  | (w, .get value fallback room) =>
    (vmodRulesGet vreCompile reMatch cfg w s value fallback room).map Prod.snd

end Rules

section Script

open Script

variable {D G E S V : Type u} (I : Interp G (E × S) V) (scfg : ScriptCfg)
variable (exec : Exec D G (E × S) V)
variable (cfg : RemoteCfg) (w : Inputs) (s : ObjState (ScriptState G V))

/-- `script_check`, for an object with a remote location -/
def scriptCheck (env : E × S) (forceLoad forceBackup : Bool) :
    Option (Bool × ObjState (ScriptState G V)) :=
  checkRemote cfg w (scriptCheckCallback I scfg exec env) s forceLoad forceBackup

def vmodScriptReload (env : E × S) (forceBackup : Bool) :
    Option (Bool × ObjState (ScriptState G V)) :=
  scriptCheck I scfg exec cfg w s env true forceBackup

/-- `vmod_script_inspect`; `remote` is `none` for an object without a location. -/
def vmodScriptInspect (remote : Option RemoteCfg) (st : TaskState D S) (env : E × S)
    (synth : Bool) : Option (Option CString × ObjState (ScriptState G V)) :=
  match st.execution.code, remote with
  | some code, _ => some (if synth then some code else none, s)
  | none, some cfg =>
    thenServe (scriptCheck I scfg exec cfg w s env false false) fun s => inspectRemote s synth
  | none, none => some (none, s)

def RunsPublished (st : TaskState D S) : Prop := st.Initialized ∧ st.execution.code = none

instance (st : TaskState D S) : Decidable (RunsPublished st) := inferInstanceAs (Decidable (_ ∧ _))

def scriptExecute (st : TaskState D S) (env : E) (gcCollect : Bool) :
    Ends (TaskState D S × ObjState (ScriptState G V) × E) :=
  (vmodScriptExecute I scfg exec s.object st env gcCollect).map fun (st', object, env) =>
    (st', if RunsPublished st then { s with object := object }.serve
      else { s with object := object }, env)

inductive ScriptCall (D E S : Type u) where
  | reload (env : E × S) (forceBackup : Bool)
  | inspect (st : TaskState D S) (env : E × S) (synth : Bool)
  | execute (st : TaskState D S) (env : E) (gcCollect : Bool)

def scriptStep (s : ObjState (ScriptState G V)) :
    Inputs × ScriptCall D E S → Option (ObjState (ScriptState G V))
  | (w, .reload env forceBackup) =>
    (vmodScriptReload I scfg exec cfg w s env forceBackup).map Prod.snd
  | (w, .inspect st env synth) =>
    (vmodScriptInspect I scfg exec w s (some cfg) st env synth).map Prod.snd
  | (_, .execute st env gcCollect) =>
    match scriptExecute I scfg exec s st env gcCollect with
    | .returned (_, s, _) => some s
    | .blocked | .aborted => none

def ScriptCall.Serves : ScriptCall D E S → Prop
  | .reload .. => False
  | .inspect st _ _ => st.execution.code = none
  | .execute st _ _ => RunsPublished st

def ScriptCall.ExecutesPublished : ScriptCall D E S → Prop
  | .execute st _ _ => RunsPublished st
  | _ => False

end Script

/-! ## What the methods read -/

variable {σ : Type*} {cfg : RemoteCfg} {w : Inputs} {callback : Callback σ} {s s' : ObjState σ}

theorem tryContents_log {isBackup : Bool} {contents : Option CString} {r : Bool}
    (h : tryContents callback s isBackup contents = some (r, s')) : s'.log = s.log := by
  unfold tryContents at h
  cases contents with
  | none =>
    cases h
    rfl
  | some c =>
    simp only at h
    split at h
    · cases h
      rfl
    · split at h
      · cases h
      · cases h
        rfl
      · cases h
        rfl

theorem loadRemote_log {forceBackup r : Bool}
    (h : loadRemote cfg w callback s forceBackup = some (r, s')) :
    s'.log = s.log ++ [.read] := by
  unfold loadRemote at h
  simp only at h
  split at h
  · cases h
  · rename_i s₁ h₁
    cases h
    obtain ⟨file, hfile⟩ := Source.updateBackup_eq cfg w s₁ forceBackup
    rw [hfile]
    exact tryContents_log h₁
  · rename_i s₁ h₁
    split at h
    · unfold checkRemoteBackup at h
      rw [tryContents_log h]
      exact tryContents_log h₁
    · cases h
      exact tryContents_log h₁

theorem checkRemote_log {forceBackup r : Bool} (hdue : Due cfg w s)
    (h : checkRemote cfg w callback s false forceBackup = some (r, s')) :
    s'.log = s.log ++ [.read] := by
  obtain ⟨hexp, hrel, hcl⟩ := hdue
  have hwins : wins cfg w s false = true := by simp [wins, hexp, hrel, hcl]
  unfold checkRemote at h
  simp only [hwins, Bool.or_true, if_true] at h
  split at h
  · cases h
  · rename_i h₁
    cases h
    have hlog := loadRemote_log h₁
    exact hlog

theorem readsFirst_of_check {A : Type*} {answer : ObjState σ → A} {a : A} (hdue : Due cfg w s)
    (h : thenServe (checkRemote cfg w callback s false false) answer = some (a, s')) :
    ReadsFirst s s' := by
  obtain ⟨⟨r, s₁⟩, h₁, h₂⟩ := Option.map_eq_some_iff.mp h
  cases h₂
  refine ⟨[.serve], ?_⟩
  show s₁.log ++ [.serve] = s.log ++ .read :: [.serve]
  rw [checkRemote_log hdue h₁, List.append_assoc]
  rfl

/-! ## The law -/

/-- If a load is due, and the call uses the loaded data, then it attempts the load first. -/
def Refreshes {α : Type*} (cfg : RemoteCfg) (step : ObjState σ → Inputs × α → Option (ObjState σ))
    (Serves : α → Prop) (s : ObjState σ) (x : Inputs × α) : Prop :=
  Serves x.2 → Due cfg x.1 s → ∀ s', step s x = some s' → ReadsFirst s s'

/-- A reload is no use of the data. -/
def FileCall.Serves : FileCall → Prop
  | .reload _ => False
  | _ => True

def RulesCall.Serves : RulesCall → Prop
  | .reload _ => False
  | _ => True

theorem fileStep_refreshes {parse : CString → Parsed File.Variables}
    {dumpVariables : File.Variables → Bool → Option CString → Option CString}
    (s : ObjState File.Variables) (x : Inputs × FileCall) :
    Refreshes cfg (fileStep parse dumpVariables cfg) FileCall.Serves s x := by
  obtain ⟨w, c⟩ := x
  intro hserves hdue s' h
  cases c with
  | reload forceBackup => exact hserves.elim
  | _ =>
    obtain ⟨⟨a, s₁⟩, h₁, rfl⟩ := Option.map_eq_some_iff.mp h
    exact readsFirst_of_check hdue h₁

theorem rulesStep_refreshes {V : Type*} {vreCompile : CString → Option V}
    {reMatch : Option CString → V → Bool} (s : ObjState (List (Rules.Rule V)))
    (x : Inputs × RulesCall) :
    Refreshes cfg (rulesStep vreCompile reMatch cfg) RulesCall.Serves s x := by
  obtain ⟨w, c⟩ := x
  intro hserves hdue s' h
  cases c with
  | reload forceBackup => exact hserves.elim
  | _ =>
    obtain ⟨⟨a, s₁⟩, h₁, rfl⟩ := Option.map_eq_some_iff.mp h
    exact readsFirst_of_check hdue h₁

section Script

open Script

variable {D G E S V : Type u} {I : Interp G (E × S) V} {scfg : ScriptCfg}
variable {exec : Exec D G (E × S) V} {cfg : RemoteCfg}

theorem scriptStep_execute_log {s s' : ObjState (ScriptState G V)} {w : Inputs}
    {st : TaskState D S} {env : E} {gcCollect : Bool}
    (h : scriptStep I scfg exec cfg s (w, .execute st env gcCollect) = some s') :
    s'.log = if RunsPublished st then s.log ++ [.serve] else s.log := by
  unfold scriptStep scriptExecute at h
  simp only at h
  cases hx : vmodScriptExecute I scfg exec s.object st env gcCollect with
  | returned x =>
    obtain ⟨st', object, env'⟩ := x
    simp only [hx, Ends.map] at h
    cases h
    split <;> rfl
  | blocked => simp [hx, Ends.map] at h
  | aborted => simp [hx, Ends.map] at h

/-- A call of a script object that returns refreshes, unless it executes the published code while a
load is due. -/
theorem scriptStep_refreshes_iff {s s' : ObjState (ScriptState G V)}
    {x : Inputs × ScriptCall D E S} (h : scriptStep I scfg exec cfg s x = some s') :
    Refreshes cfg (scriptStep I scfg exec cfg) ScriptCall.Serves s x ↔
      (x.2.ExecutesPublished → ¬ Due cfg x.1 s) := by
  obtain ⟨w, c⟩ := x
  cases c with
  | reload env forceBackup => exact ⟨fun _ hx => hx.elim, fun _ hx => hx.elim⟩
  | inspect st env synth =>
    refine ⟨fun _ hx => hx.elim, fun _ hserves hdue s₁ h₁ => ?_⟩
    have hcode : st.execution.code = none := hserves
    obtain ⟨⟨a, s₂⟩, h₂, rfl⟩ := Option.map_eq_some_iff.mp h₁
    unfold vmodScriptInspect at h₂
    simp only [hcode] at h₂
    exact readsFirst_of_check hdue h₂
  | execute st env gcCollect =>
    constructor
    · intro hr hx hdue
      obtain ⟨l, hl⟩ := hr hx hdue s' h
      have hlog := scriptStep_execute_log h
      have hp : RunsPublished st := hx
      rw [if_pos hp, hl] at hlog
      simp at hlog
    · intro hx hserves hdue
      exact absurd hdue (hx hserves)

/-- No sequence of executions ever attempts a load. -/
theorem executions_never_read {s s' : ObjState (ScriptState G V)}
    {calls : List (Inputs × ScriptCall D E S)}
    (hcalls : ∀ x ∈ calls, ∃ st env gcCollect, x.2 = .execute st env gcCollect)
    (h : Machine.exec (scriptStep I scfg exec cfg) s calls = some s') :
    ∃ n, s'.log = s.log ++ List.replicate n .serve := by
  induction calls generalizing s with
  | nil =>
    cases h
    exact ⟨0, by simp⟩
  | cons x calls ih =>
    obtain ⟨s₁, h₁, h₂⟩ := exec_cons_some h
    obtain ⟨n, hn⟩ := ih (fun y hy => hcalls y (List.mem_cons_of_mem x hy)) h₂
    obtain ⟨st, env, gcCollect, hx⟩ := hcalls x List.mem_cons_self
    obtain ⟨w, c⟩ := x
    cases hx
    have hlog := scriptStep_execute_log h₁
    by_cases hp : RunsPublished st
    · rw [if_pos hp] at hlog
      refine ⟨n + 1, ?_⟩
      rw [hn, hlog, List.append_assoc]
      rfl
    · rw [if_neg hp] at hlog
      exact ⟨n, by rw [hn, hlog]⟩

end Script

/-- **Periodic refresh**: every call that serves the loaded data attempts the loads that are due,
in every sequence of calls of a file or a rules object; and of a script object exactly when no
call executes the published code while a load is due. -/
theorem serving_calls_refresh (cfg : RemoteCfg) :
    (∀ (parse : CString → Parsed File.Variables)
      (dumpVariables : File.Variables → Bool → Option CString → Option CString)
      (s : ObjState File.Variables) (calls : List (Inputs × FileCall)),
      Along (fileStep parse dumpVariables cfg)
        (Refreshes cfg (fileStep parse dumpVariables cfg) FileCall.Serves) s calls) ∧
    (∀ {V : Type u} (vreCompile : CString → Option V) (reMatch : Option CString → V → Bool)
      (s : ObjState (List (Rules.Rule V))) (calls : List (Inputs × RulesCall)),
      Along (rulesStep vreCompile reMatch cfg)
        (Refreshes cfg (rulesStep vreCompile reMatch cfg) RulesCall.Serves) s calls) ∧
    (∀ {D G E S V : Type u} (I : Script.Interp G (E × S) V) (scfg : Script.ScriptCfg)
      (exec : Script.Exec D G (E × S) V) (s s' : ObjState (Script.ScriptState G V))
      (calls : List (Inputs × ScriptCall D E S)),
      Machine.exec (scriptStep I scfg exec cfg) s calls = some s' →
        (Along (scriptStep I scfg exec cfg)
            (Refreshes cfg (scriptStep I scfg exec cfg) ScriptCall.Serves) s calls ↔
          Along (scriptStep I scfg exec cfg) (fun s x => x.2.ExecutesPublished → ¬ Due cfg x.1 s)
            s calls)) := by
  refine ⟨?_, ?_, ?_⟩
  · intro parse dumpVariables s calls
    exact along_mono (fun s x _ => fileStep_refreshes s x) (along_true s calls)
  · intro V vreCompile reMatch s calls
    exact along_mono (fun s x _ => rulesStep_refreshes s x) (along_true s calls)
  · intro D G E S V I scfg exec s s' calls h
    exact along_congr_of_exec (fun s x s' => scriptStep_refreshes_iff) h

section Stale

open Script

/-- A Lua library in which every chunk defines a function that returns 7. -/
def luaSeven : Interp Bool (Unit × Unit) (LuaValue Nat) where
  new := false
  varnish _ := true
  lookup g _ := some g
  load _ _ _ := some (true, true)
  stores _ x _ _ := x.isVarnish
  argv _ _ := true
  call g _ _ env := some (some (.number 7), g, env)
  gc := some
  memory _ := 0
  wsCopy env _ := (true, env)

def sevenCfg : ScriptCfg := ⟨⟨1, 0⟩, 1, fun code => code⟩

/-- The period is 10. -/
def sevenRemote : RemoteCfg := ⟨false, false, 10⟩

/-- `return 7` was loaded at time 0. -/
def sevenObject : ObjState (ScriptState Bool (LuaValue Nat)) :=
  ⟨0, false, some (.ofBytes [55]), ⟨.init, some (.ofBytes [55], .ofBytes [102])⟩, none, []⟩

/-- The task called `init()`. -/
def sevenTask : TaskState Nat Unit := vmodScriptInit ⟨(), .init⟩ none

def callAt (now : Int) (c : ScriptCall Nat Unit Unit) : Inputs × ScriptCall Nat Unit Unit :=
  (⟨some [56], now, now, false, .openFailed⟩, c)

/-- An execution when nothing is due, and an inspection when a load is. -/
theorem serving_calls_refresh_inspect :
    Along (scriptStep luaSeven sevenCfg (executeLua luaSeven) sevenRemote)
      (Refreshes sevenRemote (scriptStep luaSeven sevenCfg (executeLua luaSeven) sevenRemote)
        ScriptCall.Serves) sevenObject
      [callAt 10 (.execute sevenTask () false), callAt 100 (.inspect sevenTask ((), ()) true)] :=
  ((serving_calls_refresh sevenRemote).2.2 luaSeven sevenCfg (executeLua luaSeven) sevenObject _
    [callAt 10 (.execute sevenTask () false), callAt 100 (.inspect sevenTask ((), ()) true)] rfl).2
    ⟨fun _ => by decide, fun h => h.elim, trivial⟩

/-- The executions go on with the code that was loaded at time 0, and nothing is read. -/
theorem executions_serve_stale_code :
    (Machine.exec (scriptStep luaSeven sevenCfg (executeLua luaSeven) sevenRemote) sevenObject
        [callAt 100 (.execute sevenTask () false), callAt 200 (.execute sevenTask () false),
          callAt 300 (.execute sevenTask () false)]).map ObjState.log =
      some [.serve, .serve, .serve] ∧
    ¬ Along (scriptStep luaSeven sevenCfg (executeLua luaSeven) sevenRemote)
      (Refreshes sevenRemote (scriptStep luaSeven sevenCfg (executeLua luaSeven) sevenRemote)
        ScriptCall.Serves) sevenObject
      [callAt 100 (.execute sevenTask () false), callAt 200 (.execute sevenTask () false),
        callAt 300 (.execute sevenTask () false)] := by
  refine ⟨by decide, fun h => ?_⟩
  have hdue : Due sevenRemote (callAt 100 (.execute sevenTask () false)).1 sevenObject := by
    exact ⟨by decide, rfl, rfl⟩
  obtain ⟨l, hl⟩ := h.1 ⟨rfl, rfl⟩ hdue _ rfl
  cases hl

end Stale

end VmodCfg.Remote
