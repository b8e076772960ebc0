import Mathlib.Algebra.GroupWithZero.Nat
import Mathlib.Logic.Function.Basic
import VmodCfg.Lib.CString

/-!
# The task state of scripts

`task_state_t` is the structure behind `PRIV_TASK`: the variables of the task,
and the inline code, the arguments and the result register of the execution.
Numbers (`D`) and the `%.3f` rendering of them (`fmt3`) are parameters.
-/

namespace VmodCfg.Script

/-- `enum RESULT_VALUE_TYPE` -/
inductive ResultType where
  | error
  | nil
  | boolean
  | number
  | string
  | table
  deriving DecidableEq, Repr

/-- `result_value_t`; the string may be NULL, after a copy that did not fit the workspace. -/
inductive ResultValue (D : Type*) where
  | error
  | nil
  | boolean (b : Bool)
  | number (x : D)
  | string (s : Option CString)
  | table
  deriving DecidableEq

def ResultValue.type {D : Type*} : ResultValue D → ResultType
  | .error => .error
  | .nil => .nil
  | .boolean _ => .boolean
  | .number _ => .number
  | .string _ => .string
  | .table => .table

abbrev maxResultValues : Nat := 128

instance : NeZero maxResultValues := ⟨Nat.succ_ne_zero 127⟩

abbrev maxExecutionArgs : Nat := 128

/-- `result_t`: `nvalues` is -1 for a single value. `wild` lists the indices outside of `values`
that were written. -/
structure Result (D : Type*) where
  nvalues : Int
  values : Fin maxResultValues → ResultValue D
  wild : List Int

/-- `execution`, in `task_state_t`. `args` is `none` for `argc == -1`, else the pushed arguments. -/
structure Execution (D : Type*) where
  code : Option CString
  args : Option (List CString)
  result : Result D

/-- `task_state_t` -/
structure TaskState (D S : Type*) where
  taskVariables : S
  execution : Execution D

section Defs

variable {D S : Type*}

/-- The result register after the `memset`. -/
def Result.init : Result D := ⟨-1, fun _ => .error, []⟩

/-- `values[i] = v` -/
def Result.set (r : Result D) (i : Int) (v : ResultValue D) : Result D :=
  if h : 0 ≤ i ∧ i.toNat < maxResultValues then
    { r with values := Function.update r.values ⟨i.toNat, h.2⟩ v }
  else { r with wild := r.wild ++ [i] }

/-- What `reset_task_state` leaves of the execution. -/
def Execution.init : Execution D := ⟨none, none, .init⟩

/-- `reset_task_state(state, 0, 1)`, as `get_task_state(ctx, task_priv, 1)` does. -/
def TaskState.resetExecution (st : TaskState D S) : TaskState D S := { st with execution := .init }

def vmodScriptInit (st : TaskState D S) (code : Option CString) : TaskState D S :=
  { st with execution :=
    { Execution.init with
      code := code.filter fun c => c.bytes ≠ []
      args := some [] } }

/-- `vmod_script_push`; `room` tells whether the empty string that stands for NULL fits the
workspace. -/
def vmodScriptPush (st : TaskState D S) (arg : Option CString) (room : Bool) : TaskState D S :=
  match st.execution.args with
  | none => st
  | some args =>
    if args.length < maxExecutionArgs then
      match arg, room with
      | some a, _ => { st with execution := { st.execution with args := some (args ++ [a]) } }
      | none, true => { st with execution := { st.execution with args := some (args ++ [.empty]) } }
      | none, false => st
    else st

def vmodScriptFreeResult (st : TaskState D S) : TaskState D S := st.resetExecution

/-! ## The accessors -/

/-- `argc >= 0` -/
def TaskState.Initialized (st : TaskState D S) : Prop := st.execution.args.isSome

instance (st : TaskState D S) : Decidable st.Initialized := inferInstanceAs (Decidable (_ = true))

/-- `vmod_script_result_is_*` -/
def resultIs (st : TaskState D S) (ty : ResultType) : Prop :=
  st.Initialized ∧ st.execution.result.nvalues = -1 ∧ (st.execution.result.values 0).type = ty

def resultIsError (st : TaskState D S) : Prop := resultIs st .error
def resultIsNil (st : TaskState D S) : Prop := resultIs st .nil
def resultIsNull (st : TaskState D S) : Prop := resultIs st .nil
def resultIsBoolean (st : TaskState D S) : Prop := resultIs st .boolean
def resultIsNumber (st : TaskState D S) : Prop := resultIs st .number
def resultIsString (st : TaskState D S) : Prop := resultIs st .string

/-- `vmod_script_result_is_table`, and its alias `result_is_array` -/
def resultIsTable (st : TaskState D S) : Prop :=
  st.Initialized ∧ 0 ≤ st.execution.result.nvalues

instance (st : TaskState D S) (ty : ResultType) : Decidable (resultIs st ty) :=
  inferInstanceAs (Decidable (_ ∧ _ ∧ _))

instance (st : TaskState D S) : Decidable (resultIsTable st) :=
  inferInstanceAs (Decidable (_ ∧ _))

/-- The end of `get_result`: the zeros at the end are cut (never the first character), and then
a dot. -/
def trimNumber : List UInt8 → List UInt8
  | [] => []
  | c :: cs =>
    let kept := c :: (cs.reverse.dropWhile (· == 48)).reverse
    if kept.getLast? = some 46 then kept.dropLast else kept

/-- `get_result`; `room` tells whether the text fits the workspace. -/
def getResult (fmt3 : D → List UInt8) (room : Bool) : ResultValue D → Option (List UInt8)
  | .boolean b => if room then some (if b then [116, 114, 117, 101] else [102, 97, 108, 115, 101]) else none
  | .number x => if room then some (trimNumber (fmt3 x)) else none
  | .string s => s.map CString.bytes
  | _ => none

/-- `values[0]`, behind the test of the accessors of a single value. -/
def TaskState.singleResult (st : TaskState D S) : Option (ResultValue D) :=
  if st.Initialized ∧ st.execution.result.nvalues = -1 then some (st.execution.result.values 0)
  else none

def vmodScriptGetResult (fmt3 : D → List UInt8) (st : TaskState D S) (room : Bool) :
    Option (List UInt8) :=
  st.singleResult.bind (getResult fmt3 room)

def getBooleanResult (st : TaskState D S) : Bool :=
  match st.singleResult with
  | some (.boolean b) => b
  | _ => false

/-- `vmod_script_get_decimal_result`; `zero` is `0.0`. -/
def getDecimalResult (zero : D) (st : TaskState D S) : D :=
  match st.singleResult with
  | some (.number x) => x
  | _ => zero

/-- `vmod_script_get_integer_result`; `toInt` is the cast to `VCL_INT`. -/
def getIntegerResult (zero : D) (toInt : D → Int64) (st : TaskState D S) : Int64 :=
  toInt (getDecimalResult zero st)

def getStringResult (st : TaskState D S) : Option CString :=
  match st.singleResult with
  | some (.string s) => s
  | _ => none

def getTableResultLength (st : TaskState D S) : Int :=
  if st.Initialized ∧ 0 ≤ st.execution.result.nvalues then st.execution.result.nvalues else 0

/-- The value that the table accessors read at `index`: `none` where they answer without reading,
`some none` where they read outside of `values`. -/
def tableResultValue (st : TaskState D S) (index : Int) : Option (Option (ResultValue D)) :=
  if st.Initialized ∧ 0 ≤ st.execution.result.nvalues ∧ index < st.execution.result.nvalues then
    if h : 0 ≤ index ∧ index.toNat < maxResultValues then
      some (some (st.execution.result.values ⟨index.toNat, h.2⟩))
    else some none
  else none

end Defs

end VmodCfg.Script
