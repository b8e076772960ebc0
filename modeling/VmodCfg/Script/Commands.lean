import VmodCfg.Lib.Locking
import VmodCfg.Script.Execute
import VmodCfg.Script.Shared

/-!
# The C code around the locks of a script object

The commands of `varnish.shared`, the regexp cache, the sections of an execution
and of `stats()`, as programs over the three locks of a script object. The flag
`varnish.shared._is_locked` lives in the interpreter of an engine, so it is what
the pool stores for the engine. The private state of a thread is the engine that
it locked and the variables of its task.
-/

namespace VmodCfg.Shared

open Locking Script

inductive Lock where
  | vars
  | regexps
  | mutex
  deriving Repr

/-- The required ordering, in script_helpers.h -/
def Lock.rank : Lock → Nat
  | .vars => 1
  | .regexps => 2
  | .mutex => 3

instance : LinearOrder Lock :=
  LinearOrder.lift' Lock.rank fun a b h => by cases a <;> cases b <;> first | rfl | cases h

inductive Site where
  | command
  | eval
  deriving DecidableEq, Repr

/-- The interpreter of an engine: `varnish.shared._is_locked`. -/
structure Context where
  isLocked : Bool
  deriving DecidableEq, Repr

def isLocked (p : Pool Context) (e : EngineId) : Bool :=
  match p.heap e with
  | some x => x.ctx.isLocked
  | none => false

def setIsLocked (p : Pool Context) (e : EngineId) (b : Bool) : Pool Context :=
  { p with heap := Function.update p.heap e ((p.heap e).map fun x => { x with ctx := ⟨b⟩ }) }

/-- `vmod_cfg_script->state`; `function` are the code and the name that were published. -/
structure Object (R : Type) where
  pool : Pool Context
  vars : GlobalVariables
  regexps : Regexps R
  function : Option (CString × CString)

structure Local where
  engine : Option EngineId
  task : TaskVariables

abbrev Proc (R : Type) := Prog Lock Site (Object R) Local

section Commands

variable {R : Type}

def runIf (c : Prop) [Decidable c] (p : Proc R Unit) : Proc R Unit := if c then p else pure ()

/-! ## `varnish.shared` -/

def getIsLocked : Proc R Bool :=
  peek fun o l =>
    match l.engine with
    | some e => isLocked o.pool e
    | none => false

/-- `SET_VARNISH_SHARED_TABLE_IS_LOCKED_FIELD`, on the two states. -/
def putIsLocked (b : Bool) (x : Object R × Local) : Object R × Local :=
  match x.2.engine with
  | some e => ({ x.1 with pool := setIsLocked x.1.pool e b }, x.2)
  | none => x

/-- `if (!is_locked)`, around the global variables. -/
def withVars {A : Type} (isLocked : Bool) (mode : Mode) (p : Proc R A) : Proc R A :=
  if isLocked then p else guarded ⟨.vars, mode, .command⟩ p

/-- `varnish_shared_get_command`; `room` tells whether the copy of a global value fits the
workspace. -/
def varnishSharedGetCommand (key scope : CString) (isLocked room : Bool) :
    Proc R (Option CString) :=
  if scope = scopeTask ∨ scope = scopeGlobal ∨ scope = scopeAll then do
    let found ← (if scope = scopeTask ∨ scope = scopeAll then peek fun _ l => l.task[key]?
      else pure none)
    match found with
    | some value => pure value
    | none =>
      if scope = scopeGlobal ∨ scope = scopeAll then
        withVars isLocked .read (peek fun o _ =>
          if room then o.vars.list.findVariable key else none)
      else pure none
  else pure none

def varnishSharedSetCommand (key value scope : CString) (isLocked : Bool) (room : Room) :
    Proc R Unit :=
  if scope = scopeTask then modify fun x => (x.1, { x.2 with task := taskSet x.2.task key value room })
  else runIf (scope = scopeGlobal) (withVars isLocked .write
    (modify fun x => ({ x.1 with vars := globalSet x.1.vars key value }, x.2)))

def varnishSharedUnsetCommand (key scope : CString) (isLocked : Bool) : Proc R Unit := do
  runIf (scope = scopeTask ∨ scope = scopeAll)
    (modify fun x => (x.1, { x.2 with task := x.2.task.erase key }))
  runIf (scope = scopeGlobal ∨ scope = scopeAll) (withVars isLocked .write
    (modify fun x => ({ x.1 with vars := globalUnset x.1.vars key }, x.2)))

/-- The test of the key that the three commands make before they do anything. -/
def withKey {A : Type} (key : Option CString) (none : A) (p : CString → Proc R A) : Proc R A :=
  match key with
  | some key => if key.bytes ≠ [] then p key else pure none
  | .none => pure none

/-- `varnish.shared.get`, as registered by `new_context` -/
def sharedGet (key scope : Option CString) (room : Bool) : Proc R (Option CString) :=
  withKey key none fun key => do
    let isLocked ← getIsLocked
    varnishSharedGetCommand key (scope.getD scopeAll) isLocked room

def sharedSet (key value scope : Option CString) (room : Room) : Proc R Unit :=
  withKey key () fun key =>
    match value with
    | some value => do
      let isLocked ← getIsLocked
      varnishSharedSetCommand key value (scope.getD scopeTask) isLocked room
    | none => pure ()

def sharedUnset (key scope : Option CString) : Proc R Unit :=
  withKey key () fun key => do
    let isLocked ← getIsLocked
    varnishSharedUnsetCommand key (scope.getD scopeAll) isLocked

def evalHold : Hold Lock Site := ⟨.vars, .write, .eval⟩

/-- `varnish.shared.eval`, before it calls the function. The flag is private to the thread, so it
is set together with taking the lock. -/
def enterEval : Proc R Bool := do
  let isLocked ← getIsLocked
  runIf (isLocked = false) (.op (.acquire evalHold) (putIsLocked true) fun _ => .done ())
  pure isLocked

/-- `varnish.shared.eval`, after the function returned or raised an error. -/
def leaveEval (isLocked : Bool) : Proc R Unit :=
  runIf (isLocked = false) (.op (.release .vars) (putIsLocked false) fun _ => .done ())

/-! ## Regular expressions -/

variable (V : Vre R)

def initRegexp (regexp : CString) (cache : Bool) : Proc R (Option R) := do
  let found ← (if cache then
      guarded ⟨.regexps, .read, .command⟩ (peek fun o _ => o.regexps.list[regexp]?)
    else pure none)
  match found with
  | some re => pure (some re)
  | none =>
    match V.compile regexp with
    | none => pure none
    | some re =>
      if cache then
        guarded ⟨.regexps, .write, .command⟩ do
          let cached ← peek fun o _ => (cacheRegexp o.regexps regexp re).1
          modify fun x => ({ x.1 with regexps := (cacheRegexp x.1.regexps regexp re).2 }, x.2)
          pure (some cached)
      else pure (some re)

/-- What a command with an `error` argument hands over: `room` tells whether the message fits the
workspace; without a message nothing is raised. -/
def orError {A : Type} (regexp : CString) (room : Bool) (fallback : A) : Option A → Except CString A
  | some a => .ok a
  | none => if room then .error (regexpError regexp) else .ok fallback

def varnishRegmatchCommand (string regexp : CString) (cache room : Bool) :
    Proc R (Except CString Bool) := do
  let re ← initRegexp V regexp cache
  pure (orError regexp room false (re.map fun re => V.isMatch re string))

def varnishRegsubCommand (string regexp sub : CString) (cache all room : Bool) :
    Proc R (Except CString (Option CString)) := do
  let re ← initRegexp V regexp cache
  pure (orError regexp room none (re.map fun re => V.sub re all string sub))

def regmatch (string regexp : Option CString) (cache room : Bool) : Proc R (Except CString Bool) :=
  match string, regexp with
  | some string, some regexp => varnishRegmatchCommand V string regexp cache room
  | _, _ => pure (.ok false)

def regsub (string regexp sub : Option CString) (cache all room : Bool) :
    Proc R (Except CString (Option CString)) :=
  match string, regexp, sub with
  | some string, some regexp, some sub => varnishRegsubCommand V string regexp sub cache all room
  | _, _, _ => pure (.ok none)

/-! ## Sections under the mutex -/

/-- From `Lck_Lock(&script->state.mutex)` to `Lck_Unlock(&script->state.mutex)` -/
def underMutex {A : Type} (p : Proc R A) : Proc R A := guarded ⟨.mutex, .write, .command⟩ p

variable (cfg : ScriptCfg)

/-- `lock_engine`, from where it has the mutex to where it gives it back; a thread that gets no
engine gives it back inside `Lck_CondWait`. `waited` tells whether it comes from there. -/
def lockEngineSection (waited : Bool) (memory : Int) : Proc R (Option EngineId) := do
  underMutex (modify fun x =>
    let r := lockEngine cfg.pool (if waited then countBlocked x.1.pool else x.1.pool) ⟨false⟩ memory
    ({ x.1 with pool := r.2 }, { x.2 with engine := r.1 }))
  peek fun _ l => l.engine

def unlockEngineSection (memory : Int) : Proc R Unit :=
  underMutex (modify fun x =>
    match x.2.engine with
    | some e => ({ x.1 with pool := unlockEngine x.1.pool e memory }, { x.2 with engine := none })
    | none => x)

def updateStats (f : Stats → Stats) : Proc R Unit :=
  underMutex (modify fun x =>
    ({ x.1 with pool := { x.1.pool with stats := f x.1.pool.stats } }, x.2))

def fetchFunction : Proc R (Option (CString × CString)) := underMutex (peek fun o _ => o.function)

def publishFunction (code name : CString) : Proc R Unit :=
  underMutex (modify fun x => ({ x.1 with function := some (code, name) }, x.2))

/-- `engine->ncycles++`, and whether the collector is due after it. -/
def cycleSection (gcCollect : Bool) : Proc R Bool := do
  modify fun x =>
    match x.2.engine with
    | some e => ({ x.1 with pool := cycleEngine x.1.pool e ⟨isLocked x.1.pool e⟩ }, x.2)
    | none => x
  peek fun o l =>
    match l.engine with
    | some e => gcCollect || o.pool.ncycles e % cfg.minGcCycles == 0
    | none => gcCollect

/-- The end of `execute_lua` and `execute_javascript`, from the update of the stats on. -/
def endExecution (success gcCollect : Bool) (memory : Int) : Proc R Unit := do
  updateStats fun s => { s with
    executionsTotal := s.executionsTotal + 1
    executionsFailed := if success then s.executionsFailed else s.executionsFailed + 1 }
  let gc ← cycleSection cfg gcCollect
  runIf gc (updateStats fun s => { s with executionsGc := s.executionsGc + 1 })
  unlockEngineSection memory

/-! ## `stats()` and `counter()` -/

/-- `engines_memory`, with the mutex held -/
def enginesMemory (p : Pool Context) : UInt64 :=
  (p.free ++ p.busy).foldl (fun memory e =>
    match p.heap e with
    | some x => memory + x.memory.toInt64.toUInt64
    | none => memory) 0

structure Report where
  engines : Nat
  memory : UInt64
  regexps : UInt32
  vars : UInt32
  stats : Stats

def vmodScriptStats : Proc R Report :=
  guarded ⟨.vars, .read, .command⟩
    (guarded ⟨.regexps, .read, .command⟩
      (underMutex (peek fun o _ =>
        ⟨o.pool.n, enginesMemory o.pool, o.regexps.n, o.vars.n, o.pool.stats⟩)))

/-- `vmod_script_counter`: but for the memory of the engines, the counters are read without a
lock. -/
def vmodScriptCounter (name : CString) : Proc R UInt64 :=
  if name = .ofString "engines.current" then peek fun o _ => UInt64.ofNat o.pool.n
  else if name = .ofString "engines.total" then peek fun o _ => o.pool.stats.enginesTotal
  else if name = .ofString "engines.memory" then underMutex (peek fun o _ => enginesMemory o.pool)
  else if name = .ofString "engines.dropped.cycles" then
    peek fun o _ => o.pool.stats.enginesDroppedCycles
  else if name = .ofString "regexps.current" then peek fun o _ => o.regexps.n.toUInt64
  else if name = .ofString "variables.current" then peek fun o _ => o.vars.n.toUInt64
  else if name = .ofString "workers.blocked" then peek fun o _ => o.pool.stats.workersBlocked
  else if name = .ofString "executions.total" then peek fun o _ => o.pool.stats.executionsTotal
  else if name = .ofString "executions.unknown" then peek fun o _ => o.pool.stats.executionsUnknown
  else if name = .ofString "executions.failed" then peek fun o _ => o.pool.stats.executionsFailed
  else if name = .ofString "executions.gc" then peek fun o _ => o.pool.stats.executionsGc
  else pure 0

end Commands

end VmodCfg.Shared
