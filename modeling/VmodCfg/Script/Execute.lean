import VmodCfg.Script.Interp

/-!
# `execute_lua`, `execute_javascript` and `vmod_script_execute`

An execution locks an engine, looks the function up (or compiles it), calls it,
stores what it returned, cleans the interpreter stack and gives the engine back.
With no result register (`job` is `none`) it only compiles: that is the syntax
check of a load.
-/

namespace VmodCfg.Script

universe u

/-- What an execution leaves behind; `unknown` tells whether it had to compile. -/
structure Executed (D G E V : Type u) where
  success : Bool
  vm : Vm G V
  result : Option (Result D)
  env : E
  unknown : Bool

section Fields

variable {G E V : Type*} (I : Interp G E V)

/-- Push a value and store it in a field of what is at `-idx`: `lua_setfield` or
`duk_put_prop_string`. What is there may raise an error, outside of any protected call. -/
def setField (idx : Nat) (f : Field) (b : Bool) (L : Vm G V) : Option (Vm G V) :=
  match (Slot.pushed :: L.stack)[idx - 1]? with
  | some x =>
    if I.stores L.globals x f b then
      match x with
      | .varnish => some { L with set := Function.update L.set f b }
      | _ => some { L with stray := L.stray + 1 }
    else none
  | none => none

def setFields (idx : Nat) (b : Bool) (L : Vm G V) : Option (Vm G V) := do
  let L ← setField I idx .ctx b L
  let L ← setField I idx .script b L
  setField I idx .state b L

end Fields

section Lua

variable {D G E : Type u} (I : Interp G E (LuaValue D))

/-- From `lua_pop(2)` on: the stack is cleaned, and the fields of `varnish` are cleared. -/
def luaClean (L : Vm G (LuaValue D)) : Option (Vm G (LuaValue D)) := do
  let L ← setFields I 2 false (L.pop 2)
  return L.pop 1

/-- With the function on top of the stack: call it, unless there is no result register. -/
def luaRun (L : Vm G (LuaValue D)) (name : CString) (job : Option (List CString × Result D))
    (env : E) (unknown : Bool) : Option (Executed D G E (LuaValue D)) :=
  match job with
  | none => some ⟨true, (L.pop 2).pop 1, none, env, unknown⟩
  | some (args, r) => do
    let L ← setFields I 4 true L
    if I.argv L.globals args then
      let (v, g, env) ← I.call L.globals name args env
      let L := { L.pop 1 with globals := g }
      match v with
      | none =>
        let L ← luaClean I (L.push .pushed)
        return ⟨false, L, some (r.set 0 .error), env, unknown⟩
      | some v =>
        match luaPostExecute I r env v with
        | .abort => none
        | .done ok r env left =>
          let L ← luaClean I { L with stack := List.replicate left .elem ++ .value v :: L.stack }
          return ⟨ok, L, some (if ok then r else r.set 0 .error), env, unknown⟩
    else none

/-- `execute_lua`, between `lock_engine` and the update of the stats. -/
def executeLua (L : Vm G (LuaValue D)) (code name : CString)
    (job : Option (List CString × Result D)) (env : E) :
    Option (Executed D G E (LuaValue D)) :=
  if I.varnish L.globals then
    let L := (L.push .varnish).push .handler
    match I.lookup L.globals name with
    | none => none
    | some true => luaRun I (L.push .function) name job env false
    | some false =>
      match I.load L.globals name code with
      | none => none
      | some (true, g) =>
        let L := { L with globals := g }
        if I.lookup g name = some true then luaRun I (L.push .function) name job env true else none
      | some (false, g) =>
        let L := { L with globals := g }
        some ⟨false, (L.pop 1).pop 1, job.map Prod.snd, env, true⟩
  else none

end Lua

section JavaScript

variable {D G E : Type u} (I : Interp G E (JsValue D))

/-- From `duk_pop` on: the stack is cleaned, and the fields of `varnish` are cleared. -/
def jsClean (L : Vm G (JsValue D)) : Option (Vm G (JsValue D)) := do
  let L ← setFields I 2 false (L.pop 1)
  return L.pop 1

/-- With the function on top of the stack: call it, unless there is no result register. -/
def jsRun (L : Vm G (JsValue D)) (name : CString) (job : Option (List CString × Result D))
    (env : E) (unknown : Bool) : Option (Executed D G E (JsValue D)) :=
  match job with
  | none => some ⟨true, (L.pop 1).pop 1, none, env, unknown⟩
  | some (args, r) => do
    let L ← setFields I 3 true L
    if I.argv L.globals args then
      let (v, g, env) ← I.call L.globals name args env
      let L := { L.pop 1 with globals := g }
      match v with
      | none =>
        let L ← jsClean I (L.push .pushed)
        return ⟨false, L, some (r.set 0 .error), env, unknown⟩
      | some v =>
        match jsPostExecute I r env v with
        | .abort => none
        | .done ok r env left =>
          let L ← jsClean I { L with stack := List.replicate left .elem ++ .value v :: L.stack }
          return ⟨ok, L, some (if ok then r else r.set 0 .error), env, unknown⟩
    else none

/-- `execute_javascript`, between `lock_engine` and the update of the stats. -/
def executeJavascript (L : Vm G (JsValue D)) (code name : CString)
    (job : Option (List CString × Result D)) (env : E) :
    Option (Executed D G E (JsValue D)) :=
  if I.varnish L.globals then
    let L := L.push .varnish
    match I.lookup L.globals name with
    | none => none
    | some true => jsRun I (L.push .function) name job env false
    | some false =>
      match I.load L.globals name code with
      | none => none
      | some (true, g) =>
        let L := { L with globals := g }
        if I.lookup g name = some true then jsRun I (L.push .function) name job env true else none
      | some (false, g) =>
        let L := { L with globals := g }
        some ⟨false, L.pop 1, job.map Prod.snd, env, true⟩
  else none

end JavaScript

/-! ## `script->api.execute` -/

/-- The configuration of a script object; `functionName` is `new_function_name`. -/
structure ScriptCfg where
  pool : PoolCfg
  minGcCycles : UInt32
  functionName : CString → CString

/-- `script->state`, as far as executions go: the engines, and the code and the name that were
published by the last load. -/
structure ScriptState (G V : Type u) where
  pool : Pool (Vm G V)
  function : Option (CString × CString)

/-- How a call ends: with a value, waiting for an engine, or with the process aborted. -/
inductive Ends (α : Type u) where
  | returned (a : α)
  | blocked
  | aborted

def Ends.map {α β : Type u} (f : α → β) : Ends α → Ends β
  | .returned a => .returned (f a)
  | .blocked => .blocked
  | .aborted => .aborted

section Api

variable {D G E V : Type u} (I : Interp G E V) (cfg : ScriptCfg)

/-- A new engine: the VMOD's functions are registered, and the stack is empty. -/
def Vm.init : Vm G V := ⟨I.new, [], fun _ => false, 0⟩

abbrev Exec (D G E V : Type u) :=
  Vm G V → CString → CString → Option (List CString × Result D) → E → Option (Executed D G E V)

def countExecution (s : Stats) (unknown success gc : Bool) : Stats :=
  { s with
    executionsUnknown := if unknown then s.executionsUnknown + 1 else s.executionsUnknown
    executionsTotal := s.executionsTotal + 1
    executionsFailed := if success then s.executionsFailed else s.executionsFailed + 1
    executionsGc := if gc then s.executionsGc + 1 else s.executionsGc }

/-- The garbage is collected from time to time: was it, and the engine after that. The division by
`min_gc_cycles` traps when it is 0. -/
def callCollector (ncycles : UInt32) (gcCollect : Bool) (L : Vm G V) : Option (Bool × Vm G V) :=
  if gcCollect = false ∧ cfg.minGcCycles = 0 then none
  else if gcCollect || (ncycles + 1) % cfg.minGcCycles == 0 then
    (I.gc L.globals).map fun g => (true, { L with globals := g })
  else some (false, L)

/-- An execution with an engine: what it leaves, and the pool with the engine given back. -/
def executeOn (exec : Exec D G E V) (p : Pool (Vm G V)) (e : EngineId) (code name : CString)
    (job : Option (List CString × Result D)) (env : E) (gcCollect : Bool) :
    Ends (Executed D G E V × Pool (Vm G V)) :=
  match p.heap e with
  | none => .aborted
  | some engine =>
    match exec engine.ctx code name job env with
    | none => .aborted
    | some x =>
      match callCollector I cfg engine.ncycles gcCollect x.vm with
      | none => .aborted
      | some (gc, vm) =>
        let p := { p with stats := countExecution p.stats x.unknown x.success gc }
        .returned (x, unlockEngine (cycleEngine p e vm) e (I.memory vm.globals))

def apiExecute (exec : Exec D G E V) (p : Pool (Vm G V)) (code : CString) (name : Option CString)
    (job : Option (List CString × Result D)) (env : E) (gcCollect : Bool) :
    Ends (Executed D G E V × Pool (Vm G V)) :=
  match lockEngine cfg.pool p (Vm.init I) (I.memory I.new) with
  | (none, _) => .blocked
  | (some e, p) =>
    executeOn I cfg exec p e code (name.getD (cfg.functionName code)) job env gcCollect

end Api

/-! ## `vmod_script_execute` -/

inductive Selection (E : Type u) where
  | uninitialized
  | unavailable
  | overflow (env : E)
  | code (args : List CString) (code : CString) (name : Option CString) (env : E)

def TaskState.withResult {D S : Type*} (st : TaskState D S) (r : Result D) : TaskState D S :=
  { st with execution := { st.execution with result := r } }

section Task

variable {D G E S V : Type u} (I : Interp G (E × S) V) (cfg : ScriptCfg)

/-- The first half of `vmod_script_execute`: the code of the task, or else a copy of the published
one and of its name. -/
def selectCode (s : ScriptState G V) (x : Execution D) (env : E × S) : Selection (E × S) :=
  match x.args, x.code, s.function with
  | none, _, _ => .uninitialized
  | some args, some code, _ => .code args code none env
  | some _, none, none => .unavailable
  | some args, none, some (code, name) =>
    let (ok, env) := I.wsCopy env code
    let (ok', env) := I.wsCopy env name
    if ok && ok' then .code args code (some name) env else .overflow env

/-- `vmod_script_execute`: besides the rest of the world (`env`), the script reads and writes the
variables of the task. -/
def vmodScriptExecute (exec : Exec D G (E × S) V) (s : ScriptState G V) (st : TaskState D S)
    (env : E) (gcCollect : Bool) : Ends (TaskState D S × ScriptState G V × E) :=
  match selectCode I s st.execution (env, st.taskVariables) with
  | .uninitialized => .returned (st, s, env)
  | .unavailable => .returned (st.withResult (st.execution.result.set 0 .error), s, env)
  | .overflow env => .returned ({ st with taskVariables := env.2 }, s, env.1)
  | .code args code name env =>
    (apiExecute I cfg exec s.pool code name (some (args, st.execution.result)) env gcCollect).map
      fun (x, p) =>
        ({ st.withResult (x.result.getD st.execution.result) with taskVariables := x.env.2 },
          { s with pool := p }, x.env.1)

end Task

end VmodCfg.Script
