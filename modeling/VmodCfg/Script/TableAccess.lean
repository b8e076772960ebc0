import VmodCfg.Script.Globals
import VmodCfg.Script.Register

/-!
# The accessors of a table result

The `table_result_is_*` functions, `get_table_result_value`, and their `array_`
aliases test `index < nvalues`, and then read `values[index]`. In every task
state that calls of the VCL lead to, `nvalues` is at most `MAX_RESULT_VALUES`;
a negative index passes the test, and the read is before `values`.
-/

namespace VmodCfg.Script

universe u

section Defs

variable {D S : Type*}

/-! ## The accessors -/

/-- The guard of every accessor, and the read behind it; `none` is a read outside of `values`. -/
def tableAnswer {α : Type*} (answer : ResultValue D → α) (absent : α) (st : TaskState D S)
    (index : Int64) : Option α :=
  match tableResultValue st index.toInt with
  | none => some absent
  | some none => none
  | some (some v) => some (answer v)

def tableResultIs (ty : ResultType) : TaskState D S → Int64 → Option Bool :=
  tableAnswer (fun v => decide (v.type = ty)) false

def tableResultIsError : TaskState D S → Int64 → Option Bool := tableResultIs .error
def tableResultIsNil : TaskState D S → Int64 → Option Bool := tableResultIs .nil
def tableResultIsNull : TaskState D S → Int64 → Option Bool := tableResultIs .nil
def tableResultIsBoolean : TaskState D S → Int64 → Option Bool := tableResultIs .boolean
def tableResultIsNumber : TaskState D S → Int64 → Option Bool := tableResultIs .number
def tableResultIsString : TaskState D S → Int64 → Option Bool := tableResultIs .string
def tableResultIsTable : TaskState D S → Int64 → Option Bool := tableResultIs .table
def tableResultIsArray : TaskState D S → Int64 → Option Bool := tableResultIs .table

def arrayResultIsError : TaskState D S → Int64 → Option Bool := tableResultIsError
def arrayResultIsNil : TaskState D S → Int64 → Option Bool := tableResultIsNil
def arrayResultIsNull : TaskState D S → Int64 → Option Bool := tableResultIsNull
def arrayResultIsBoolean : TaskState D S → Int64 → Option Bool := tableResultIsBoolean
def arrayResultIsNumber : TaskState D S → Int64 → Option Bool := tableResultIsNumber
def arrayResultIsString : TaskState D S → Int64 → Option Bool := tableResultIsString
def arrayResultIsTable : TaskState D S → Int64 → Option Bool := tableResultIsTable
def arrayResultIsArray : TaskState D S → Int64 → Option Bool := tableResultIsArray

/-- `vmod_script_get_table_result_value`; `room` tells whether the text fits the workspace. -/
def getTableResultValue (fmt3 : D → List UInt8) (room : Bool) :
    TaskState D S → Int64 → Option (Option (List UInt8)) :=
  tableAnswer (getResult fmt3 room) none

def getArrayResultValue (fmt3 : D → List UInt8) (room : Bool) :
    TaskState D S → Int64 → Option (Option (List UInt8)) := getTableResultValue fmt3 room

/-- The tests of an element, each with the type it tests for. -/
def tableTests : List ((TaskState D S → Int64 → Option Bool) × ResultType) :=
  [(tableResultIsError, .error), (tableResultIsNil, .nil), (tableResultIsNull, .nil),
    (tableResultIsBoolean, .boolean), (tableResultIsNumber, .number),
    (tableResultIsString, .string), (tableResultIsTable, .table), (tableResultIsArray, .table),
    (arrayResultIsError, .error), (arrayResultIsNil, .nil), (arrayResultIsNull, .nil),
    (arrayResultIsBoolean, .boolean), (arrayResultIsNumber, .number),
    (arrayResultIsString, .string), (arrayResultIsTable, .table), (arrayResultIsArray, .table)]

/-- The answer comes from the element at the index, where the table has one, and is `absent`
elsewhere. -/
def Confined {α : Type*} (st : TaskState D S) (index : Int64) (answer : ResultValue D → α)
    (absent : α) (got : Option α) : Prop :=
  if 0 ≤ index.toInt ∧ index.toInt < getTableResultLength st then
    ∃ h : index.toInt.toNat < maxResultValues,
      got = some (answer (st.execution.result.values ⟨index.toInt.toNat, h⟩))
  else got = some absent

structure AccessorsConfined (fmt3 : D → List UInt8) (room : Bool) (st : TaskState D S)
    (index : Int64) : Prop where
  tests : ∀ t ∈ tableTests, Confined st index (fun v => decide (v.type = t.2)) false (t.1 st index)
  value : Confined st index (getResult fmt3 room) none (getTableResultValue fmt3 room st index)
  arrayValue : Confined st index (getResult fmt3 room) none
    (getArrayResultValue fmt3 room st index)

/-- `nvalues` is the mark of a single value, or a number of elements that `values` has room for. -/
def NvaluesOk (r : Result D) : Prop := -1 ≤ r.nvalues ∧ r.nvalues ≤ maxResultValues

end Defs

/-- The task states that calls lead to: any sequence of them, with script objects and libraries of
either kind. -/
inductive TaskReachable {D S : Type u} : TaskState D S → Prop
  | fresh (vars : S) : TaskReachable ⟨vars, .init⟩
  | init {st} (code : Option CString) : TaskReachable st → TaskReachable (vmodScriptInit st code)
  | push {st} (arg : Option CString) (room : Bool) :
      TaskReachable st → TaskReachable (vmodScriptPush st arg room)
  | freeResult {st} : TaskReachable st → TaskReachable (vmodScriptFreeResult st)
  | lua {st st'} {G E : Type u} (I : Interp G (E × S) (LuaValue D))
      (cfg : ScriptCfg) (s : ScriptState G (LuaValue D)) (env : E) (gcCollect : Bool)
      {s' : ScriptState G (LuaValue D)} {env' : E} :
      TaskReachable st →
      vmodScriptExecute I cfg (executeLua I) s st env gcCollect = .returned (st', s', env') →
      TaskReachable st'
  | javascript {st st'} {G E : Type u} (I : Interp G (E × S) (JsValue D))
      (cfg : ScriptCfg) (s : ScriptState G (JsValue D)) (env : E) (gcCollect : Bool)
      {s' : ScriptState G (JsValue D)} {env' : E} :
      TaskReachable st →
      vmodScriptExecute I cfg (executeJavascript I) s st env gcCollect = .returned (st', s', env') →
      TaskReachable st'
  | setVariables {st} (vars : S) : TaskReachable st → TaskReachable { st with taskVariables := vars }

/-! ## `nvalues` along the calls of a task -/

section Nvalues

variable {D G E V : Type u} {I : Interp G E V}

theorem NvaluesOk.set {r : Result D} (h : NvaluesOk r) (i : Int) (v : ResultValue D) :
    NvaluesOk (r.set i v) := by
  unfold NvaluesOk
  rw [set_nvalues]
  exact h

theorem storeElems_nvaluesOk {next : Nat → Option (Elem D)} {r r' : Result D}
    {env env' : E} {ok : Bool} {left : Nat}
    (h : storeElems I next maxResultValues 0 { r with nvalues := 0 } env = .done ok r' env' left) :
    NvaluesOk r' := by
  have := storeElems_nvalues (i := 0) rfl h
  unfold NvaluesOk
  omega

theorem luaPostExecute_nvaluesOk {I : Interp G E (LuaValue D)} {r r' : Result D} {env env' : E}
    {v : LuaValue D} {ok : Bool} {left : Nat} (hr : NvaluesOk r)
    (h : luaPostExecute I r env v = .done ok r' env' left) : NvaluesOk r' := by
  cases v with
  | table elems => exact storeElems_nvaluesOk h
  | _ =>
    cases h
    exact hr.set _ _

theorem jsPostExecute_nvaluesOk {I : Interp G E (JsValue D)} {r r' : Result D} {env env' : E}
    {v : JsValue D} {ok : Bool} {left : Nat} (hr : NvaluesOk r)
    (h : jsPostExecute I r env v = .done ok r' env' left) : NvaluesOk r' := by
  cases v with
  | array length elems =>
    cases length with
    | none => cases h
    | some length => exact storeElems_nvaluesOk h
  | _ =>
    cases h
    exact hr.set _ _

theorem execute_nvaluesOk {post : Result D → E → V → Marshal D E} {missed : V → Slot V}
    (hpost : ∀ {r r' env env' v ok left}, NvaluesOk r → post r env v = .done ok r' env' left →
      NvaluesOk r')
    {L : Vm G V} {code name : CString} {args : List CString} {r r' : Result D} {env : E}
    {x : Executed D G E V}
    (hx : I.execute post missed L code name (some (args, r)) env = some x) (hr : NvaluesOk r)
    (hr' : x.result = some r') : NvaluesOk r' := by
  have hfin := finish_finishes hx
  generalize I.outcome L.globals code name args env = o at hfin
  cases hfin with
  | compileError hs hvm h henv =>
    rw [h] at hr'
    cases hr'
    exact hr
  | runtimeError hc hs hvm h henv =>
    rw [h] at hr'
    cases hr'
    exact hr.set _ _
  | value hp hs hvm hc h henv =>
    rw [h] at hr'
    cases hr'
    split
    · exact hpost hr hp
    · exact (hpost hr hp).set _ _

end Nvalues

section Execute

variable {D G E S V : Type u} {I : Interp G (E × S) V} {cfg : ScriptCfg}

/-- An execution that returns has either left the register alone, but for an error in `values[0]`,
or made of it what `execute_lua` or `execute_javascript` did. -/
theorem vmodScriptExecute_result {exec : Exec D G (E × S) V} {s s' : ScriptState G V}
    {st st' : TaskState D S} {env env' : E} {gcCollect : Bool}
    (h : vmodScriptExecute I cfg exec s st env gcCollect = .returned (st', s', env')) :
    st'.execution.result = st.execution.result ∨
    st'.execution.result = st.execution.result.set 0 .error ∨
    ∃ L code name args env₁ x, exec L code name (some (args, st.execution.result)) env₁ = some x ∧
      st'.execution.result = x.result.getD st.execution.result := by
  unfold vmodScriptExecute at h
  split at h
  · cases h
    exact .inl rfl
  · cases h
    exact .inr (.inl rfl)
  · cases h
    exact .inl rfl
  · rename_i args code name env₁ _
    unfold apiExecute at h
    split at h
    · cases h
    · rename_i e p _
      unfold executeOn at h
      split at h
      · cases h
      · rename_i engine _
        split at h
        · cases h
        · rename_i x hx
          split at h
          · cases h
          · cases h
            exact .inr (.inr ⟨engine.ctx, code, _, args, env₁, x, hx, rfl⟩)

theorem vmodScriptExecute_nvaluesOk {exec : Exec D G (E × S) V} {s s' : ScriptState G V}
    {st st' : TaskState D S} {env env' : E} {gcCollect : Bool}
    (hexec : ∀ {L code name args r env₁ x r'}, exec L code name (some (args, r)) env₁ = some x →
      NvaluesOk r → x.result = some r' → NvaluesOk r')
    (h : vmodScriptExecute I cfg exec s st env gcCollect = .returned (st', s', env'))
    (hst : NvaluesOk st.execution.result) : NvaluesOk st'.execution.result := by
  obtain h | h | ⟨L, code, name, args, env₁, x, hx, h⟩ := vmodScriptExecute_result h
  · rwa [h]
  · rw [h]
    exact hst.set _ _
  · rw [h]
    cases hr : x.result with
    | none => exact hst
    | some r' => exact hexec hx hst hr

end Execute

theorem executeLua_nvaluesOk {D G E : Type u} {I : Interp G E (LuaValue D)} {L code name args env x}
    {r r' : Result D} (hx : executeLua I L code name (some (args, r)) env = some x)
    (hr : NvaluesOk r) (hr' : x.result = some r') : NvaluesOk r' := by
  rw [executeLua_eq] at hx
  exact execute_nvaluesOk luaPostExecute_nvaluesOk hx hr hr'

theorem executeJavascript_nvaluesOk {D G E : Type u} {I : Interp G E (JsValue D)}
    {L code name args env x} {r r' : Result D}
    (hx : executeJavascript I L code name (some (args, r)) env = some x) (hr : NvaluesOk r)
    (hr' : x.result = some r') : NvaluesOk r' := by
  rw [executeJavascript_eq] at hx
  exact execute_nvaluesOk jsPostExecute_nvaluesOk hx hr hr'

section Reachable

variable {D S : Type u} {st : TaskState D S}

theorem init_nvaluesOk : NvaluesOk (Result.init : Result D) := by
  show (-1 : Int) ≤ -1 ∧ (-1 : Int) ≤ 128
  decide

theorem vmodScriptPush_result (st : TaskState D S) (arg : Option CString) (room : Bool) :
    (vmodScriptPush st arg room).execution.result = st.execution.result := by
  unfold vmodScriptPush
  split
  · rfl
  · split
    · split <;> rfl
    · rfl

theorem TaskReachable.nvaluesOk (h : TaskReachable st) : NvaluesOk st.execution.result := by
  induction h with
  | fresh | init | freeResult => exact init_nvaluesOk
  | push arg room _ ih => rwa [vmodScriptPush_result]
  | lua I cfg s env gcCollect _ hx ih => exact vmodScriptExecute_nvaluesOk executeLua_nvaluesOk hx ih
  | javascript I cfg s env gcCollect _ hx ih =>
    exact vmodScriptExecute_nvaluesOk executeJavascript_nvaluesOk hx ih
  | setVariables vars _ ih => exact ih

/-! ## Which indices are confined -/

/-- The guard lets an index in range pass, and a negative one too. -/
theorem tableResultValue_cases (hst : NvaluesOk st.execution.result) (index : Int) :
    ((0 ≤ index ∧ index < getTableResultLength st) ∧ ∃ h : index.toNat < maxResultValues,
      tableResultValue st index = some (some (st.execution.result.values ⟨index.toNat, h⟩))) ∨
    (¬ (0 ≤ index ∧ index < getTableResultLength st) ∧ (0 ≤ index ∨ ¬ resultIsTable st) ∧
      tableResultValue st index = none) ∨
    (index < 0 ∧ resultIsTable st ∧ tableResultValue st index = some none) := by
  have hcap : st.execution.result.nvalues ≤ 128 := hst.2
  by_cases htable : resultIsTable st
  · have hlen : getTableResultLength st = st.execution.result.nvalues := if_pos htable
    rw [hlen]
    by_cases hneg : index < 0
    · refine .inr (.inr ⟨hneg, htable, ?_⟩)
      have hpass : index < st.execution.result.nvalues := Int.lt_of_lt_of_le hneg htable.2
      rw [tableResultValue, if_pos ⟨htable.1, htable.2, hpass⟩, dif_neg (by omega)]
    · by_cases hlt : index < st.execution.result.nvalues
      · have hi : index.toNat < 128 := by omega
        refine .inl ⟨⟨by omega, hlt⟩, hi, ?_⟩
        rw [tableResultValue, if_pos ⟨htable.1, htable.2, hlt⟩, dif_pos ⟨by omega, hi⟩]
      · refine .inr (.inl ⟨by omega, .inl (by omega), ?_⟩)
        rw [tableResultValue, if_neg fun h => hlt h.2.2]
  · have hlen : getTableResultLength st = 0 := if_neg htable
    rw [hlen]
    refine .inr (.inl ⟨by omega, .inr htable, ?_⟩)
    rw [tableResultValue, if_neg fun h => htable ⟨h.1, h.2.1⟩]

/-- An accessor is confined unless it is given a negative index of a table. -/
theorem tableAnswer_confined_iff (hst : NvaluesOk st.execution.result) (index : Int64) {α : Type*}
    (answer : ResultValue D → α) (absent : α) :
    Confined st index answer absent (tableAnswer answer absent st index) ↔
      0 ≤ index.toInt ∨ ¬ resultIsTable st := by
  unfold Confined tableAnswer
  obtain ⟨hin, h, hv⟩ | ⟨hout, hc, hv⟩ | ⟨hneg, htable, hv⟩ :=
    tableResultValue_cases hst index.toInt
  · rw [if_pos hin, hv]
    exact iff_of_true ⟨h, rfl⟩ (.inl hin.1)
  · rw [if_neg hout, hv]
    exact iff_of_true rfl hc
  · rw [if_neg fun h => Int.not_le.mpr hneg h.1, hv]
    refine iff_of_false (by simp) ?_
    rintro (h | h)
    · exact Int.not_le.mpr hneg h
    · exact h htable

theorem mem_tableTests {t : (TaskState D S → Int64 → Option Bool) × ResultType}
    (h : t ∈ tableTests) : t.1 = tableResultIs t.2 := by
  revert t
  simp only [tableTests, List.forall_mem_cons]
  exact ⟨rfl, rfl, rfl, rfl, rfl, rfl, rfl, rfl, rfl, rfl, rfl, rfl, rfl, rfl, rfl, rfl,
    fun _ h => by cases h⟩

end Reachable

/-- **The accessors of a table stay inside of it exactly for indices that are not negative**, or
while no table is stored: in every state that the calls of a task lead to. -/
theorem table_accessors_confined_iff {D S : Type u} {st : TaskState D S} (h : TaskReachable st)
    (fmt3 : D → List UInt8) (room : Bool) (index : Int64) :
    AccessorsConfined fmt3 room st index ↔ 0 ≤ index.toInt ∨ ¬ resultIsTable st := by
  have hst := h.nvaluesOk
  constructor
  · rintro ⟨-, hvalue, -⟩
    exact (tableAnswer_confined_iff hst index _ _).1 hvalue
  · intro hc
    refine ⟨fun t ht => ?_, (tableAnswer_confined_iff hst index _ _).2 hc,
      (tableAnswer_confined_iff hst index _ _).2 hc⟩
    rw [mem_tableTests ht]
    exact (tableAnswer_confined_iff hst index _ _).2 hc

theorem reachable_five : ∃ st : TaskState Nat Unit, TaskReachable st ∧
    getTableResultLength st = 1 ∧ tableResultValue st (-1) = some none :=
  ⟨_, .lua luaTwice twiceCfg twiceState 0 false
    (.init (some (.ofBytes [120])) (.fresh ())) rfl, rfl, rfl⟩

theorem table_accessors_confined_at_zero : ∃ st : TaskState Nat Unit, TaskReachable st ∧
    getTableResultLength st = 1 ∧ AccessorsConfined (fun _ => []) true st 0 := by
  obtain ⟨st, hst, hlen, -⟩ := reachable_five
  exact ⟨st, hst, hlen, (table_accessors_confined_iff hst (fun _ => []) true 0).2 (.inl (by decide))⟩

/-- The index -1 of the table `{5}` passes the guard: `values[-1]` is read. -/
theorem negative_index_reads_before : ∃ st : TaskState Nat Unit, TaskReachable st ∧
    getTableResultLength st = 1 ∧ tableResultIsNumber st (-1) = none ∧
    getTableResultValue (fun _ => []) true st (-1) = none ∧
    ¬ AccessorsConfined (fun _ => []) true st (-1) := by
  obtain ⟨st, hst, hlen, hneg⟩ := reachable_five
  have hread : ∀ {α : Type} (answer : ResultValue Nat → α) (absent : α),
      tableAnswer answer absent st (-1) = none := by
    intro α answer absent
    unfold tableAnswer
    rw [show (-1 : Int64).toInt = -1 from rfl, hneg]
  refine ⟨st, hst, hlen, hread .., hread .., ?_⟩
  rintro ⟨-, hvalue, -⟩
  unfold Confined at hvalue
  rw [if_neg fun h => absurd h.1 (by decide)] at hvalue
  rw [show getTableResultValue (fun _ => []) true st (-1) = none from hread ..] at hvalue
  cases hvalue

end VmodCfg.Script
