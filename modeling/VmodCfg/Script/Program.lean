import VmodCfg.Script.Commands

/-!
# Scripts, and the threads that execute them

A script is a program over the commands that `new_context` registers: a finite
tree whose leaves may jump to further program points, so that loops and scripts
that never end are included. Values, errors and the memory of the interpreter
are one type `V`, passed along. The interpreter keeps the protected calls it is
in on a stack; `resume` says how a thread goes on from each control point.
-/

namespace VmodCfg.Shared

open Locking Script

/-- A script. `protect` is `pcall` in Lua, and `try` in JavaScript. -/
inductive Code (K V : Type) where
  | jump (k : K)
  | ret (v : V)
  | raise (e : V)
  | get (key scope : Option CString) (next : Option CString → Code K V)
  | set (key value scope : Option CString) (next : Code K V)
  | unset (key scope : Option CString) (next : Code K V)
  | regmatch (string regexp : Option CString) (cache : Bool) (next : Bool → Code K V)
  | regsub (string regexp sub : Option CString) (cache all : Bool)
      (next : Option CString → Code K V)
  | eval (body : Code K V) (next : V → Code K V)
  | protect (body : Code K V) (next : Except V V → Code K V)

/-- The language of an engine. `parse` compiles the code of a script; `accessors` are the calls
(metamethods, accessors) that reading the elements of a returned value makes. -/
structure Lang (K D V : Type) where
  numbers : Numbers D
  parse : CString → Option (Code K V)
  defs : K → Code K V
  value : Value D → V
  error : CString → V
  typeName : Value D → CString
  accessors : V → List (Code K V)

/-! ## The helpers -/

section Helpers

variable {K D V : Type} (L : Lang K D V)

def Lang.get (key scope : Option CString) (next : Value D → Code K V) : Code K V :=
  .get key scope fun svalue =>
    match svalue with
    | none => next .nil
    | some svalue =>
      match unserialize L.numbers svalue.bytes with
      | some value => next value
      | none => .raise (L.error
          (.ofString "Failed to unserialize value (value=" ++ svalue ++ .ofString ")"))

def Lang.set (key : Option CString) (value : Value D) (scope : Option CString)
    (next : Code K V) : Code K V :=
  match value with
  | .nil => .unset key scope next
  | value =>
    match serialize L.numbers value with
    | some svalue => .set key (some (.ofBytes svalue)) scope next
    | none => .raise (L.error
        (.ofString "Failed to serialize value (type=" ++ L.typeName value ++ .ofString ")"))

def Lang.incr (key : Option CString) (increment : Value D) (scope : Option CString)
    (next : V → Code K V) : Code K V :=
  .eval
    (L.get key scope fun value =>
      let value := .number (incrValue L.numbers increment value)
      L.set key value scope (.ret (L.value value)))
    next

end Helpers

/-! ## Control points -/

/-- A call on the stack of the interpreter. `eval` keeps the `is_locked` of the C function;
`accessor` is a call from `post_execute`, outside of any protected call. -/
inductive Frame (K V : Type) where
  | eval (isLocked : Bool) (next : V → Code K V)
  | protect (next : Except V V → Code K V)
  | accessor (rest : List (Code K V))

/-- A call of `script->api.execute`; with no result register (`full` is false) it only compiles. -/
structure Job where
  code : CString
  name : CString
  full : Bool
  gcCollect : Bool
  deriving DecidableEq

/-- Where a thread stands between two pieces of C code: `sleeping` in `Lck_CondWait`, `ready` with
an engine, in the interpreter, in `post_execute`, or with the outcome of the script known. -/
inductive Ctl (K V : Type) where
  | idle
  | sleeping (j : Job)
  | ready (j : Job)
  | running (j : Job) (c : Code K V) (stack : List (Frame K V))
  | storing (j : Job) (rest : List (Code K V))
  | finished (j : Job) (success : Bool)

/-- What happens at a control point. `memory` is what `get_engine_used_memory` gives, `room` what
fits the workspace, `known` whether the engine has the function. -/
inductive Event where
  | newTask
  | stats
  | counter (name : CString)
  | execute (code : Option CString) (gcCollect room : Bool) (memory : Int)
  | check (contents : CString) (memory : Int)
  | wake (memory : Int)
  | lookup (known : Bool)
  | run (room : Room)
  | read
  | store (success : Bool)
  | finish (memory : Int)

section Threads

variable {K D V R : Type} (cfg : ScriptCfg) (X : Vre R) (L : Lang K D V)

def lockEngine (j : Job) (waited : Bool) (memory : Int) : Proc R (Ctl K V) := do
  let engine ← lockEngineSection cfg waited memory
  match engine with
  | some _ => pure (.ready j)
  | none => pure (.sleeping j)

/-- `vmod_script_execute`, up to the engine -/
def vmodScriptExecute (code : Option CString) (gcCollect room : Bool) (memory : Int) :
    Proc R (Ctl K V) :=
  match code with
  | some code => lockEngine cfg ⟨code, cfg.functionName code, true, gcCollect⟩ false memory
  | none => do
    let function ← fetchFunction
    match function with
    | some (code, name) =>
      if room then lockEngine cfg ⟨code, name, true, gcCollect⟩ false memory else pure .idle
    | none => pure .idle

/-- The function is on the stack of the interpreter: call it, unless there is no result register. -/
def call (j : Job) : Ctl K V :=
  match L.parse j.code with
  | some c => if j.full then .running j c [] else .finished j true
  | none => .finished j false

/-- From `lock_engine` to the call: an engine that does not know the function compiles it. -/
def lookup (j : Job) (known : Bool) : Proc R (Ctl K V) := do
  runIf (known = false)
    (updateStats fun s => { s with executionsUnknown := s.executionsUnknown + 1 })
  pure (call L j)

def return_ (j : Job) (v : V) : List (Frame K V) → Proc R (Ctl K V)
  | [] => pure (.storing j (L.accessors v))
  | .eval isLocked next :: stack => do
    leaveEval isLocked
    pure (.running j (next v) stack)
  | .protect next :: stack => pure (.running j (next (.ok v)) stack)
  | .accessor rest :: _ => pure (.storing j rest)

/-- The function that runs raises `e`; an error that no protected call catches aborts the
process. -/
def raise (j : Job) (e : V) : List (Frame K V) → Option (Proc R (Ctl K V))
  | [] => some (pure (.finished j false))
  | .eval isLocked _ :: stack => some do
    leaveEval isLocked
    pure (.running j (.raise e) stack)
  | .protect next :: stack => some (pure (.running j (next (.error e)) stack))
  | .accessor _ :: _ => none

/-- What the C function returned, or the error it raised. -/
def Lang.orRaise {A : Type} (next : A → Code K V) : Except CString A → Code K V
  | .ok a => next a
  | .error message => .raise (L.error message)

def interpret (j : Job) (stack : List (Frame K V)) (room : Room) :
    Code K V → Option (Proc R (Ctl K V))
  | .jump k => some (pure (.running j (L.defs k) stack))
  | .ret v => some (return_ L j v stack)
  | .raise e => raise j e stack
  | .get key scope next => some do
    let value ← sharedGet key scope room.value
    pure (.running j (next value) stack)
  | .set key value scope next => some do
    sharedSet key value scope room
    pure (.running j next stack)
  | .unset key scope next => some do
    sharedUnset key scope
    pure (.running j next stack)
  | .regmatch string regexp cache next => some do
    let result ← regmatch X string regexp cache room.value
    pure (.running j (L.orRaise next result) stack)
  | .regsub string regexp sub cache all next => some do
    let result ← regsub X string regexp sub cache all room.value
    pure (.running j (L.orRaise next result) stack)
  | .eval body next => some do
    let isLocked ← enterEval
    pure (.running j body (.eval isLocked next :: stack))
  | .protect body next => some (pure (.running j body (.protect next :: stack)))

/-- The end of an execution, and of `script_check_callback`. -/
def finish (j : Job) (success : Bool) (memory : Int) : Proc R (Ctl K V) := do
  endExecution cfg success j.gcCollect memory
  runIf (success ∧ j.full = false) (publishFunction j.code j.name)
  pure .idle

def resume : Ctl K V → Event → Option (Proc R (Ctl K V))
  | .idle, .newTask => some do
    modify fun x => (x.1, { x.2 with task := ∅ })
    pure .idle
  | .idle, .stats => some do
    let _ ← vmodScriptStats
    pure .idle
  | .idle, .counter name => some do
    let _ ← vmodScriptCounter name
    pure .idle
  | .idle, .execute code gcCollect room memory =>
    some (vmodScriptExecute cfg code gcCollect room memory)
  | .idle, .check contents memory =>
    some (lockEngine cfg ⟨contents, cfg.functionName contents, false, false⟩ false memory)
  | .sleeping j, .wake memory => some (lockEngine cfg j true memory)
  | .ready j, .lookup known => some (lookup L j known)
  | .running j c stack, .run room => interpret X L j stack room c
  | .storing j (c :: rest), .read => some (pure (.running j c [.accessor rest]))
  | .storing j _, .store success => some (pure (.finished j success))
  | .finished j success, .finish memory => some (finish cfg j success memory)
  | _, _ => none

end Threads

def Object.init {R : Type} : Object R := ⟨.init, ⟨0, ∅⟩, ⟨0, ∅⟩, none⟩

abbrev System (T K V R : Type) := Sys T Lock Site (Object R) Local (Ctl K V)

def System.init {T K V R : Type} : System T K V R :=
  ⟨.init, fun _ => .done .idle, fun _ => ⟨none, ∅⟩, fun _ => []⟩

end VmodCfg.Shared
