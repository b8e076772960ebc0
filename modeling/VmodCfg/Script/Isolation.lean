import VmodCfg.Lib.Purge
import VmodCfg.Remote.Refresh

/-!
# Script objects in one task

All methods of all script objects of a task get the same `PRIV_TASK`, so there
is one task state, with one code, one list of arguments and one result register,
for all of them. What the calls of one object do can be seen by the calls of
another: `calls_isolated` says when it cannot.
-/

namespace VmodCfg.Script

universe u

open Purge Remote

/-! ## The calls -/

/-- What the accessors need to know about a C `double`: `%.3f`, `0.0`, and the cast to `VCL_INT`. -/
structure RealLib (D : Type*) where
  fmt3 : D → List UInt8
  zero : D
  toInt : D → Int64

/-- The accessors of the result; aliases (`result_is_null`, `*_array_*`) are left out. -/
inductive Accessor where
  | resultIs (ty : ResultType)
  | resultIsTable
  | getResult
  | getBooleanResult
  | getDecimalResult
  | getIntegerResult
  | getStringResult
  | getTableResultLength
  | tableResultIs (ty : ResultType) (index : Int)
  | getTableResultValue (index : Int)

/-- A call of a method that takes `PRIV_TASK`, with what it finds of the rest of the world. -/
inductive TaskMethod (E S : Type u) where
  | inspect (w : Inputs) (env : E × S) (synth : Bool)
  | init (code : Option CString)
  | push (arg : Option CString) (room : Bool)
  | execute (env : E) (gcCollect : Bool)
  | access (q : Accessor) (room : Bool)
  | freeResult

/-- What a call shows. `executed` tells which code was run, with which arguments, and what it did to
the rest of the world (`none` if it did not return); `outside` is a read outside of `values`. -/
inductive Answer (D E S : Type u) where
  | void
  | bool (b : Bool)
  | text (s : Option (List UInt8))
  | real (x : D)
  | int (n : Int)
  | outside
  | executed (x : Selection (E × S)) (env : Option E)

def accessResult {D E S : Type u} (lib : RealLib D) (room : Bool) (st : TaskState D S) :
    Accessor → Answer D E S
  | .resultIs ty => .bool (resultIs st ty)
  | .resultIsTable => .bool (resultIsTable st)
  | .getResult => .text (vmodScriptGetResult lib.fmt3 st room)
  | .getBooleanResult => .bool (getBooleanResult st)
  | .getDecimalResult => .real (getDecimalResult lib.zero st)
  | .getIntegerResult => .int (getIntegerResult lib.zero lib.toInt st).toInt
  | .getStringResult => .text ((getStringResult st).map CString.bytes)
  | .getTableResultLength => .int (getTableResultLength st)
  | .tableResultIs ty index =>
    match tableResultValue st index with
    | none => .bool false
    | some none => .outside
    | some (some v) => .bool (v.type = ty)
  | .getTableResultValue index =>
    match tableResultValue st index with
    | none => .text none
    | some none => .outside
    | some (some v) => .text (getResult lib.fmt3 room v)

structure Objects (D E S ι : Type u) (G V : ι → Type u) where
  interp : ∀ i, Interp (G i) (E × S) (V i)
  exec : ∀ i, Exec D (G i) (E × S) (V i)
  cfg : ι → ScriptCfg
  remote : ι → Option RemoteCfg
  lib : RealLib D

structure TaskSys (D S ι : Type u) (G V : ι → Type u) where
  task : TaskState D S
  object : ∀ i, ObjState (ScriptState (G i) (V i))

section Defs

variable {D E S ι : Type u} {G V : ι → Type u} (objs : Objects D E S ι G V)

/-- A call of the object `i`: what it shows, and the task and the object afterwards. -/
def callOn (i : ι) (st : TaskState D S) (o : ObjState (ScriptState (G i) (V i))) :
    TaskMethod E S → Answer D E S × Option (TaskState D S × ObjState (ScriptState (G i) (V i)))
  | .inspect w env synth =>
    match vmodScriptInspect (objs.interp i) (objs.cfg i) (objs.exec i) w o (objs.remote i) st env
        synth with
    | none => (.void, none)
    | some (text, o) => (.text (text.map CString.bytes), some (st, o))
  | .init code => (.void, some (vmodScriptInit st code, o))
  | .push arg room => (.void, some (vmodScriptPush st arg room, o))
  | .execute env gcCollect =>
    let x := selectCode (objs.interp i) o.object st.execution (env, st.taskVariables)
    match scriptExecute (objs.interp i) (objs.cfg i) (objs.exec i) o st env gcCollect with
    | .returned (st, o, env) => (.executed x (some env), some (st, o))
    | .blocked | .aborted => (.executed x none, none)
  | .access q room => (accessResult objs.lib room st q, some (st, o))
  | .freeResult => (.void, some (vmodScriptFreeResult st, o))

variable [DecidableEq ι]

def TaskSys.call (s : TaskSys D S ι G V) (i : ι) (c : TaskMethod E S) :
    Answer D E S × Option (TaskSys D S ι G V) :=
  let (answer, r) := callOn objs i s.task (s.object i) c
  (answer, r.map fun (st, o) => ⟨st, Function.update s.object i o⟩)

end Defs

/-! ## What others did to the task -/

/-- The parts of the task state that other objects changed: since the last `init` or `free_result`
of this object, but for the variables. -/
structure Foreign where
  code : Prop
  args : Prop
  result : Prop
  vars : Prop

def Foreign.none : Foreign := ⟨False, False, False, False⟩

section Foreign

variable {D E S : Type u} (f : Foreign)

def Foreign.own : TaskMethod E S → Foreign
  | .init _ | .freeResult => { Foreign.none with vars := f.vars }
  | _ => f

/-- After a call of another object that took the task from `st` to `st'`. -/
def Foreign.other (st st' : TaskState D S) : Foreign where
  code := f.code ∨ st'.execution.code ≠ st.execution.code
  args := f.args ∨ st'.execution.args ≠ st.execution.args
  result := f.result ∨ st'.execution.result ≠ st.execution.result
  vars := f.vars ∨ st'.taskVariables ≠ st.taskVariables

/-- The call reads nothing that was changed by others. -/
def Foreign.Clear : TaskMethod E S → Prop
  | .init _ | .freeResult => True
  | .inspect .. => ¬ f.code
  | .push .. => ¬ f.args
  | .access .. => ¬ f.args ∧ ¬ f.result
  | .execute .. => ¬ f.code ∧ ¬ f.args ∧ ¬ f.result ∧ ¬ f.vars

/-- The two task states agree on what others left alone. -/
structure Foreign.Agree (st st' : TaskState D S) : Prop where
  code : ¬ f.code → st.execution.code = st'.execution.code
  args : ¬ f.args → st.execution.args = st'.execution.args
  result : ¬ f.result → st.execution.result = st'.execution.result
  vars : ¬ f.vars → st.taskVariables = st'.taskVariables

variable {f}

theorem Foreign.Agree.refl (st : TaskState D S) : f.Agree st st :=
  ⟨fun _ => rfl, fun _ => rfl, fun _ => rfl, fun _ => rfl⟩

theorem Foreign.Agree.other {st st₁ st' : TaskState D S} (h : f.Agree st st') :
    (f.other st st₁).Agree st₁ st' := by
  refine ⟨fun hn => ?_, fun hn => ?_, fun hn => ?_, fun hn => ?_⟩
  · obtain ⟨hf, he⟩ := not_or.mp hn
    exact (not_not.mp he).trans (h.code hf)
  · obtain ⟨hf, he⟩ := not_or.mp hn
    exact (not_not.mp he).trans (h.args hf)
  · obtain ⟨hf, he⟩ := not_or.mp hn
    exact (not_not.mp he).trans (h.result hf)
  · obtain ⟨hf, he⟩ := not_or.mp hn
    exact (not_not.mp he).trans (h.vars hf)

end Foreign

/-! ## What the calls read -/

section Reads

variable {D E S ι : Type u} {G V : ι → Type u} {objs : Objects D E S ι G V}
variable {st st' : TaskState D S}

theorem TaskState.ext_parts (hc : st.execution.code = st'.execution.code)
    (ha : st.execution.args = st'.execution.args)
    (hr : st.execution.result = st'.execution.result) (hv : st.taskVariables = st'.taskVariables) :
    st = st' := by
  obtain ⟨v, ⟨c, a, r⟩⟩ := st
  obtain ⟨v', ⟨c', a', r'⟩⟩ := st'
  cases hc
  cases ha
  cases hr
  cases hv
  rfl

theorem accessResult_congr (lib : RealLib D) (room : Bool) (q : Accessor)
    (ha : st.execution.args = st'.execution.args)
    (hr : st.execution.result = st'.execution.result) :
    (accessResult lib room st q : Answer D E S) = accessResult lib room st' q := by
  obtain ⟨v, ⟨c, a, r⟩⟩ := st
  obtain ⟨v', ⟨c', a', r'⟩⟩ := st'
  cases ha
  cases hr
  cases q <;> rfl

/-- What `push` makes of the arguments. -/
def pushArgs (arg : Option CString) (room : Bool) : Option (List CString) → Option (List CString)
  | none => none
  | some args =>
    if args.length < maxExecutionArgs then
      match arg, room with
      | some a, _ => some (args ++ [a])
      | none, true => some (args ++ [.empty])
      | none, false => some args
    else some args

theorem vmodScriptPush_eq (st : TaskState D S) (arg : Option CString) (room : Bool) :
    vmodScriptPush st arg room =
      { st with execution :=
        { st.execution with args := pushArgs arg room st.execution.args } } := by
  obtain ⟨v, ⟨c, args, r⟩⟩ := st
  unfold vmodScriptPush pushArgs
  cases args with
  | none => rfl
  | some args =>
    by_cases hlt : args.length < maxExecutionArgs
    · simp only [hlt, if_true]
      cases arg with
      | some a => rfl
      | none => cases room <;> rfl
    · simp only [hlt, if_false]

variable (objs) in
theorem callOn_inspect_congr (i : ι) (o : ObjState (ScriptState (G i) (V i))) (w : Inputs)
    (env : E × S) (synth : Bool) (hc : st.execution.code = st'.execution.code) :
    (∃ ans o', callOn objs i st o (.inspect w env synth) = (ans, some (st, o')) ∧
        callOn objs i st' o (.inspect w env synth) = (ans, some (st', o'))) ∨
      ∃ ans, callOn objs i st o (.inspect w env synth) = (ans, none) ∧
        callOn objs i st' o (.inspect w env synth) = (ans, none) := by
  have hsame : vmodScriptInspect (objs.interp i) (objs.cfg i) (objs.exec i) w o (objs.remote i) st env
      synth = vmodScriptInspect (objs.interp i) (objs.cfg i) (objs.exec i) w o (objs.remote i) st' env
      synth := by
    unfold vmodScriptInspect
    rw [hc]
  unfold callOn
  simp only [hsame]
  rcases vmodScriptInspect (objs.interp i) (objs.cfg i) (objs.exec i) w o (objs.remote i) st' env
    synth with _ | ⟨text, o'⟩
  · exact .inr ⟨_, rfl, rfl⟩
  · exact .inl ⟨_, o', rfl, rfl⟩

variable (objs) in
/-- **A call that reads nothing changed by others** shows the same, and does the same to the object,
in both task states. -/
theorem callOn_agree {f : Foreign} (h : f.Agree st st') (i : ι)
    (o : ObjState (ScriptState (G i) (V i))) (c : TaskMethod E S) (hc : f.Clear c) :
    (callOn objs i st o c).1 = (callOn objs i st' o c).1 ∧
      ((callOn objs i st o c).2 = none ∧ (callOn objs i st' o c).2 = none ∨
        ∃ st₁ st₁' o₁, (callOn objs i st o c).2 = some (st₁, o₁) ∧
          (callOn objs i st' o c).2 = some (st₁', o₁) ∧ (f.own c).Agree st₁ st₁') := by
  cases c with
  | inspect w env synth =>
    obtain ⟨ans, o', h₁, h₂⟩ | ⟨ans, h₁, h₂⟩ :=
      callOn_inspect_congr objs i o w env synth (h.code hc)
    · rw [h₁, h₂]
      exact ⟨rfl, .inr ⟨st, st', o', rfl, rfl, h⟩⟩
    · rw [h₁, h₂]
      exact ⟨rfl, .inl ⟨rfl, rfl⟩⟩
  | init code =>
    exact ⟨rfl, .inr ⟨_, _, o, rfl, rfl, fun _ => rfl, fun _ => rfl, fun _ => rfl, h.vars⟩⟩
  | push arg room =>
    refine ⟨rfl, .inr ⟨_, _, o, rfl, rfl, ?_⟩⟩
    rw [vmodScriptPush_eq, vmodScriptPush_eq, h.args hc]
    exact ⟨h.code, fun _ => rfl, h.result, h.vars⟩
  | execute env gcCollect =>
    obtain ⟨hcode, hargs, hresult, hvars⟩ := hc
    have hst : st = st' := TaskState.ext_parts (h.code hcode) (h.args hargs) (h.result hresult)
      (h.vars hvars)
    rw [hst]
    refine ⟨rfl, ?_⟩
    rcases (callOn objs i st' o (.execute env gcCollect)).2 with _ | ⟨st₁, o₁⟩
    · exact .inl ⟨rfl, rfl⟩
    · exact .inr ⟨st₁, st₁, o₁, rfl, rfl, .refl st₁⟩
  | access q room =>
    exact ⟨accessResult_congr objs.lib room q (h.args hc.1) (h.result hc.2),
      .inr ⟨st, st', o, rfl, rfl, h⟩⟩
  | freeResult =>
    exact ⟨rfl, .inr ⟨_, _, o, rfl, rfl, fun _ => rfl, fun _ => rfl, fun _ => rfl, h.vars⟩⟩

end Reads

/-! ## Isolation -/

section Isolation

variable {D E S ι : Type u} {G V : ι → Type u} [DecidableEq ι] (objs : Objects D E S ι G V)

/-- The run is one in which no call of `a` reads what another object changed, and in which the calls
of the others return. -/
def Undisturbed (a : ι) : Foreign → TaskSys D S ι G V → List (ι × TaskMethod E S) → Prop :=
  Guarded (TaskSys.call objs)
    (fun f s i c => if i = a then f.Clear c else ((s.call objs i c).2).isSome)
    fun f s i c s' => if i = a then f.own c else f.other s.task s'.task

end Isolation

/-! Two Lua objects, `false` and `true`, without a remote location. -/

def twoObjects : Objects Nat Unit Unit Bool (fun _ => Bool) (fun _ => LuaValue Nat) where
  interp _ := luaSeven
  exec _ := executeLua luaSeven
  cfg _ := sevenCfg
  remote _ := none
  lib := ⟨fun _ => [], 0, fun n => Int64.ofNat n⟩

def twoSys : TaskSys Nat Unit Bool (fun _ => Bool) (fun _ => LuaValue Nat) :=
  ⟨⟨(), .init⟩, fun _ => sevenObject⟩

def showIt : TaskMethod Unit Unit := .inspect ⟨none, 0, 0, false, .openFailed⟩ ((), ()) true

/-- `init("a")` of one object, and `init("b")` of the other. -/
def mixedCalls : List (Bool × TaskMethod Unit Unit) :=
  [(false, .init (some (.ofBytes [97]))), (true, .init (some (.ofBytes [98]))), (false, showIt),
    (false, .execute () false)]

end VmodCfg.Script
