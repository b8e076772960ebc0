import VmodCfg.Lib.Atomic
import VmodCfg.Lib.RwLock
import VmodCfg.Script.Globals
import VmodCfg.Script.Shared

/-!
# The two scopes of shared variables

Any number of tasks run `varnish_shared_get_command`, `varnish_shared_set_command` and
`varnish_shared_unset_command` on one script object, inside and outside of `varnish.shared.eval`.
The search in the global variables and what is done with what it found are actions of their own,
under `variables.rwlock`. The reference is an atomic object: a map for the script object, and a map
for each task.
-/

namespace VmodCfg.Script.SharedStore

open Locking Machine

inductive Command where
  | get (key scope : CString)
  | set (key value scope : CString)
  | unset (key scope : CString)
  deriving DecidableEq

/-! ## The reference -/

structure Maps (T : Type*) where
  global : CString → Option CString
  task : T → CString → Option CString

section Reference

variable {T : Type*} [DecidableEq T] (t : T) (m : Maps T)

def Maps.empty {T : Type*} : Maps T := ⟨fun _ => none, fun _ _ => none⟩

def Maps.setTask (key : CString) (value : Option CString) : Maps T :=
  { m with task := Function.update m.task t (Function.update (m.task t) key value) }

def Maps.setGlobal {T : Type*} (m : Maps T) (key : CString) (value : Option CString) : Maps T :=
  { m with global := Function.update m.global key value }

/-- What a command of task `t` does, and what it answers. -/
def Maps.run : Command → Maps T × Option CString
  | .get key scope =>
    (m,
      if scope = scopeTask then m.task t key
      else if scope = scopeGlobal then m.global key
      else if scope = scopeAll then (m.task t key).or (m.global key)
      else none)
  | .set key value scope =>
    (if scope = scopeTask then m.setTask t key value
      else if scope = scopeGlobal then m.setGlobal key value
      else m, none)
  | .unset key scope =>
    (if scope = scopeTask then m.setTask t key none
      else if scope = scopeGlobal then m.setGlobal key none
      else if scope = scopeAll then (m.setTask t key none).setGlobal key none
      else m, none)

/-- The reference, as an object that tasks use concurrently. -/
abbrev Reference (T : Type*) := Atomic.Obj T (Maps T) Command (Option CString)

abbrev Event (T : Type*) := Atomic.Event T Command (Option CString)

end Reference

/-! ## The commands -/

inductive Pc where
  | idle
  | called (c : Command)
  | locking (c : Command)
  | finding (c : Command)
  | copying (key : CString)
  | inserting (key value : CString)
  | updating (key value : CString)
  | removing (key : CString)
  | unlocking (m : Mode) (ans : Option CString)
  | returned (ans : Option CString)

/-- How a command locks the global variables. -/
def Command.mode : Command → Mode
  | .get .. => .read
  | .set .. | .unset .. => .write

def Pc.hold : Pc → Option Mode
  | .finding c => some c.mode
  | .copying _ => some .read
  | .inserting .. | .updating .. | .removing _ => some .write
  | .unlocking m _ => some m
  | _ => none

/-- A task; `isLocked` is the field `_is_locked` of the engine that it has: it is in
`varnish.shared.eval`. -/
structure Task (D : Type*) where
  state : TaskState D TaskVariables
  isLocked : Bool
  pc : Pc

def Task.hold {D : Type*} (y : Task D) : Option Mode :=
  if y.isLocked then some .write else y.pc.hold

structure StoreSys (T D : Type*) where
  vars : GlobalVariables
  task : T → Task D

/-- A command is called or returns, a task goes on, enters or leaves `varnish.shared.eval`, or
calls a method of the object; an execution ends by storing its result register. -/
inductive Act (T D : Type*) where
  | event (e : Event T)
  | go (t : T) (room : Room)
  | enter (t : T)
  | leave (t : T)
  | init (t : T) (code : Option CString)
  | push (t : T) (arg : Option CString) (room : Bool)
  | execute (t : T) (r : Result D)
  | freeResult (t : T)

def Act.event? {T D : Type*} : Act T D → Option (Event T)
  | .event e => some e
  | _ => none

/-- Every allocation of the action fits the workspace. -/
def Act.Roomy {T D : Type*} : Act T D → Prop
  | .go _ room => room = ⟨true, true, true⟩
  | _ => True

namespace StoreSys

variable {T D : Type*}

def init : StoreSys T D := ⟨⟨0, ∅⟩, fun _ => ⟨⟨∅, .init⟩, false, .idle⟩⟩

variable [DecidableEq T]

def setTask (s : StoreSys T D) (t : T) (y : Task D) : StoreSys T D :=
  { s with task := Function.update s.task t y }

def goto (s : StoreSys T D) (t : T) (pc : Pc) : StoreSys T D :=
  s.setTask t { s.task t with pc := pc }

def setVariables (s : StoreSys T D) (t : T) (vars : TaskVariables) (pc : Pc) : StoreSys T D :=
  s.setTask t { s.task t with state := { (s.task t).state with taskVariables := vars }, pc := pc }

def method (s : StoreSys T D) (t : T)
    (f : TaskState D TaskVariables → TaskState D TaskVariables) : Option (StoreSys T D) :=
  match (s.task t).pc with
  | .idle => some (s.setTask t { s.task t with state := f (s.task t).state })
  | _ => none

variable [Fintype T] (s : StoreSys T D)

def Free (m : Mode) : Prop := RwLock.Free (fun t => (s.task t).hold) m

instance (m : Mode) : Decidable (s.Free m) := inferInstanceAs (Decidable (RwLock.Free _ m))

def next (t : T) (room : Room) : Pc → Option (StoreSys T D)
  | .called (.get key scope) =>
    let vars := (s.task t).state.taskVariables
    match (if scope = scopeTask ∨ scope = scopeAll then vars[key]? else none) with
    | some value => some (s.goto t (.returned value))
    | none =>
      if scope = scopeGlobal ∨ scope = scopeAll then some (s.goto t (.locking (.get key scope)))
      else some (s.goto t (.returned none))
  | .called (.set key value scope) =>
    if scope = scopeTask then
      some (s.setVariables t (taskSet (s.task t).state.taskVariables key value room)
        (.returned none))
    else if scope = scopeGlobal then some (s.goto t (.locking (.set key value scope)))
    else some (s.goto t (.returned none))
  | .called (.unset key scope) =>
    let vars := (s.task t).state.taskVariables
    let vars := if scope = scopeTask ∨ scope = scopeAll then vars.erase key else vars
    let pc := if scope = scopeGlobal ∨ scope = scopeAll then Pc.locking (.unset key scope)
      else .returned none
    some (s.setVariables t vars pc)
  | .locking c =>
    if (s.task t).isLocked ∨ s.Free c.mode then some (s.goto t (.finding c)) else none
  | .finding (.get key _) =>
    match s.vars.list.findVariable key with
    | some _ => some (s.goto t (.copying key))
    | none => some (s.goto t (.unlocking .read none))
  | .finding (.set key value _) =>
    match s.vars.list.findVariable key with
    | some _ => some (s.goto t (.updating key value))
    | none => some (s.goto t (.inserting key value))
  | .finding (.unset key _) =>
    match s.vars.list.findVariable key with
    | some _ => some (s.goto t (.removing key))
    | none => some (s.goto t (.unlocking .write none))
  | .copying key =>
    some (s.goto t (.unlocking .read (if room.value then s.vars.list[key]? else none)))
  | .inserting key value =>
    (s.vars.list.insertNew key value).map fun list =>
      { s.goto t (.unlocking .write none) with vars := ⟨s.vars.n + 1, list⟩ }
  | .updating key value =>
    some { s.goto t (.unlocking .write none) with
      vars := { s.vars with list := s.vars.list.setValue key value } }
  | .removing key =>
    some { s.goto t (.unlocking .write none) with
      vars := ⟨s.vars.n - 1, s.vars.list.erase key⟩ }
  | .unlocking _ ans => some (s.goto t (.returned ans))
  | .idle | .returned _ => none

def step : Act T D → Option (StoreSys T D)
  | .event (.call t c) =>
    match (s.task t).pc with
    | .idle => some (s.goto t (.called c))
    | _ => none
  | .event (.ret t ans) =>
    match (s.task t).pc with
    | .returned ans' => if ans = ans' then some (s.goto t .idle) else none
    | _ => none
  | .go t room => s.next t room (s.task t).pc
  | .enter t =>
    match s.task t with
    | ⟨_, false, .idle⟩ =>
      if s.Free .write then some (s.setTask t { s.task t with isLocked := true }) else none
    | _ => none
  | .leave t =>
    match s.task t with
    | ⟨_, true, .idle⟩ => some (s.setTask t { s.task t with isLocked := false })
    | _ => none
  | .init t code => s.method t fun st => vmodScriptInit st code
  | .push t arg room => s.method t fun st => vmodScriptPush st arg room
  | .execute t r => s.method t fun st => st.withResult r
  | .freeResult t => s.method t vmodScriptFreeResult

end StoreSys

/-! ## The simulation -/

section Simulation

variable {T D : Type*}

/-- The variables of a task are those of the map; no copy failed. -/
def Same (vars : TaskVariables) (m : CString → Option CString) : Prop :=
  ∀ k : CString, vars[k]? = (m k).map some

/-- The command has done its part in the task scope, and goes on in the global scope. -/
def GlobalPart (vars : TaskVariables) (m : CString → Option CString) : Command → Prop
  | .get key scope => Same vars m ∧ (scope = scopeGlobal ∨ scope = scopeAll ∧ m key = none)
  | .set _ _ scope => Same vars m ∧ scope = scopeGlobal
  | .unset key scope =>
    scope = scopeGlobal ∧ Same vars m ∨ scope = scopeAll ∧ Same vars (Function.update m key none)

/-- The task and its map; a command has taken effect when it gives the lock back. -/
def TaskRel (list : File.Variables) (vars : TaskVariables) (m : CString → Option CString)
    (st : Atomic.Status Command (Option CString)) : Pc → Prop
  | .idle => st = .idle ∧ Same vars m
  | .called c => st = .called c ∧ Same vars m
  | .locking c | .finding c => st = .called c ∧ GlobalPart vars m c
  | .copying key => ∃ scope, st = .called (.get key scope) ∧ GlobalPart vars m (.get key scope)
  | .inserting key value => ∃ scope, st = .called (.set key value scope) ∧
    GlobalPart vars m (.set key value scope) ∧ list[key]? = none
  | .updating key value => ∃ scope, st = .called (.set key value scope) ∧
    GlobalPart vars m (.set key value scope) ∧ (list[key]?).isSome
  | .removing key => ∃ scope, st = .called (.unset key scope) ∧
    GlobalPart vars m (.unset key scope) ∧ (list[key]?).isSome
  | .unlocking _ ans | .returned ans => st = .done ans ∧ Same vars m

/-- The tasks, the global variables and the counter agree with the reference. -/
structure Sim (s : StoreSys T D) (x : Reference T) : Prop where
  lock : RwLock.Excluded fun t => (s.task t).hold
  count : s.vars.n = UInt32.ofNat s.vars.list.size
  global : ∀ k : CString, x.state.global k = s.vars.list[k]?
  tasks : ∀ t, TaskRel s.vars.list (s.task t).state.taskVariables (x.state.task t) (x.thr t)
    (s.task t).pc

theorem Sim.init : Sim (StoreSys.init : StoreSys T D) (.init .empty) := by
  refine ⟨RwLock.excluded_init, rfl, fun k => ?_, fun t => ⟨rfl, fun k => ?_⟩⟩
  · simp [StoreSys.init, Atomic.Obj.init, Maps.empty]
  · simp [StoreSys.init, Atomic.Obj.init, Maps.empty]

/-- Who does not hold the lock relies on nothing in the global variables. -/
theorem TaskRel.of_hold {list list' : File.Variables} {vars : TaskVariables}
    {m : CString → Option CString} {st : Atomic.Status Command (Option CString)} {pc : Pc}
    (h : TaskRel list vars m st pc) (hpc : pc.hold = none) : TaskRel list' vars m st pc := by
  cases pc <;> first | exact h | cases hpc

/-! ### The global variables -/

/-- The counter keeps up with the tree. -/
def Counted (vars : GlobalVariables) : Prop := vars.n = UInt32.ofNat vars.list.size

theorem mem_of_find {list : File.Variables} {key : CString} :
    (list.findVariable key).isSome ↔ key ∈ list :=
  Std.ExtTreeMap.mem_iff_isSome_getElem?.symm

theorem Counted.set {vars : GlobalVariables} (h : Counted vars) (key value : CString) :
    Counted (globalSet vars key value) := by
  unfold globalSet Counted
  cases hfind : vars.list.findVariable key with
  | none =>
    have hmem : ¬ key ∈ vars.list := by
      rw [← mem_of_find, hfind]
      simp
    show vars.n + 1 = UInt32.ofNat (vars.list.insert key value).size
    rw [Std.ExtTreeMap.size_insert, if_neg (by simpa using hmem), h, UInt32.ofNat_add]
    rfl
  | some old =>
    have hmem : key ∈ vars.list := by
      rw [← mem_of_find, hfind]
      rfl
    show vars.n = UInt32.ofNat (vars.list.insert key value).size
    rw [Std.ExtTreeMap.size_insert, if_pos (by simpa using hmem), h]

theorem Counted.unset {vars : GlobalVariables} (h : Counted vars) (key : CString) :
    Counted (globalUnset vars key) := by
  unfold globalUnset Counted
  cases hfind : vars.list.findVariable key with
  | none => exact h
  | some old =>
    have hmem : key ∈ vars.list := by
      rw [← mem_of_find, hfind]
      rfl
    show vars.n - 1 = UInt32.ofNat (vars.list.erase key).size
    rw [Std.ExtTreeMap.size_erase, if_pos (by simpa using hmem), h]
    obtain ⟨k, hk⟩ : ∃ k, vars.list.size = k + 1 := by
      apply Nat.exists_eq_succ_of_ne_zero
      intro h0
      rw [Std.ExtTreeMap.eq_empty_iff_size_eq_zero.mpr h0] at hmem
      simp at hmem
    rw [hk, UInt32.ofNat_add]
    simp

/-! ### The variables of a task -/

theorem Same.set {vars : TaskVariables} {m : CString → Option CString} (h : Same vars m)
    (key value : CString) :
    Same (taskSet vars key value ⟨true, true, true⟩) (Function.update m key (some value)) := by
  have hins : Same (vars.insert key (some value)) (Function.update m key (some value)) := by
    intro k
    rw [Std.ExtTreeMap.getElem?_insert, Function.update_apply, h k]
    simp only [compare_eq, @eq_comm _ key k]
    split <;> rfl
  unfold taskSet
  cases vars[key]? <;> simpa using hins

theorem Same.erase {vars : TaskVariables} {m : CString → Option CString} (h : Same vars m)
    (key : CString) : Same (vars.erase key) (Function.update m key none) := by
  intro k
  rw [Std.ExtTreeMap.getElem?_erase, Function.update_apply, h k]
  simp only [compare_eq, @eq_comm _ key k]
  split <;> rfl

section Run

variable [DecidableEq T] {t : T} {m : Maps T} {vars : TaskVariables}

/-- What a command that has done its part in the task scope does to the maps. -/
theorem GlobalPart.run_get {key scope : CString}
    (h : GlobalPart vars (m.task t) (.get key scope)) :
    Maps.run t m (.get key scope) = (m, m.global key) := by
  obtain ⟨htg, hta, hga⟩ := scopes_ne
  obtain ⟨-, rfl | ⟨rfl, hnone⟩⟩ := h
  · simp [Maps.run, htg.symm]
  · simp [Maps.run, hta.symm, hga.symm, hnone]

theorem GlobalPart.run_set {key value scope : CString}
    (h : GlobalPart vars (m.task t) (.set key value scope)) :
    Maps.run t m (.set key value scope) = (m.setGlobal key value, none) := by
  obtain ⟨htg, -, -⟩ := scopes_ne
  obtain ⟨-, rfl⟩ := h
  simp [Maps.run, htg.symm]

theorem GlobalPart.run_unset {key scope : CString}
    (h : GlobalPart vars (m.task t) (.unset key scope)) :
    (Maps.run t m (.unset key scope)).2 = none ∧
      (Maps.run t m (.unset key scope)).1.global = Function.update m.global key none ∧
      Same vars ((Maps.run t m (.unset key scope)).1.task t) ∧
      ∀ u, u ≠ t → (Maps.run t m (.unset key scope)).1.task u = m.task u := by
  obtain ⟨htg, hta, hga⟩ := scopes_ne
  rcases h with ⟨rfl, hsame⟩ | ⟨rfl, hsame⟩
  · simp only [Maps.run, htg.symm, if_false, if_true]
    exact ⟨trivial, rfl, hsame, fun _ _ => rfl⟩
  · simp only [Maps.run, hta.symm, hga.symm, if_false, if_true]
    refine ⟨trivial, rfl, ?_, fun u hu => ?_⟩
    · simpa [Maps.setGlobal, Maps.setTask] using hsame
    · simp [Maps.setGlobal, Maps.setTask, hu]

end Run

/-! ### One task moves -/

section Moves

variable [DecidableEq T] {s : StoreSys T D} {x x' : Reference T} {t : T}

/-- The reference changed for task `t` only, apart from the global map. -/
def OnlyFor (t : T) (x x' : Reference T) : Prop :=
  ∀ u, u ≠ t → x'.state.task u = x.state.task u ∧ x'.thr u = x.thr u

omit [DecidableEq T] in
theorem OnlyFor.refl (t : T) (x : Reference T) : OnlyFor t x x := fun _ _ => ⟨rfl, rfl⟩

theorem OnlyFor.set (t : T) (x : Reference T) (st : Atomic.Status Command (Option CString)) :
    OnlyFor t x (x.set t st) := fun u hu => ⟨rfl, by simp [Atomic.Obj.set, hu]⟩

theorem hold_update (y : Task D) :
    (fun u => ((s.setTask t y).task u).hold) =
      Function.update (fun u => (s.task u).hold) t y.hold :=
  funext fun u => Function.apply_update (fun _ y => Task.hold y) s.task t y u

theorem Sim.move (h : Sim s x) {y : Task D} (hx : OnlyFor t x x')
    (hglobal : ∀ k : CString, x'.state.global k = s.vars.list[k]?)
    (hself : TaskRel s.vars.list y.state.taskVariables (x'.state.task t) (x'.thr t) y.pc)
    (hhold : y.hold = (s.task t).hold ∨ y.hold = none ∨
      ∃ m, y.hold = some m ∧ RwLock.Free (fun u => (s.task u).hold) m) :
    Sim (s.setTask t y) x' := by
  refine ⟨?_, h.count, hglobal, fun u => ?_⟩
  · rw [hold_update]
    exact h.lock.update hhold
  · by_cases hu : u = t
    · subst hu
      simpa [StoreSys.setTask] using hself
    · obtain ⟨hmap, hthr⟩ := hx u hu
      simpa [StoreSys.setTask, hu, hmap, hthr] using h.tasks u

theorem Sim.write (h : Sim s x) {y : Task D} {vars : GlobalVariables} (hx : OnlyFor t x x')
    (hw : (s.task t).hold = some .write) (hcount : Counted vars)
    (hglobal : ∀ k : CString, x'.state.global k = vars.list[k]?)
    (hself : TaskRel vars.list y.state.taskVariables (x'.state.task t) (x'.thr t) y.pc)
    (hhold : y.hold = (s.task t).hold) : Sim { s.setTask t y with vars := vars } x' := by
  refine ⟨?_, hcount, hglobal, fun u => ?_⟩
  · show RwLock.Excluded fun u => ((s.setTask t y).task u).hold
    rw [hold_update]
    exact h.lock.update (.inl hhold)
  · by_cases hu : u = t
    · subst hu
      simpa [StoreSys.setTask] using hself
    · obtain ⟨hmap, hthr⟩ := hx u hu
      have hnone : (s.task u).hold = none := h.lock t u (Ne.symm hu) hw
      have hpc : (s.task u).pc.hold = none := by
        unfold Task.hold at hnone
        split at hnone
        · cases hnone
        · exact hnone
      simpa [StoreSys.setTask, hu, hmap, hthr] using (h.tasks u).of_hold hpc

omit [DecidableEq T] in
/-- A task in `varnish.shared.eval` keeps the lock; another one holds what its place says. -/
theorem hold_pc (y : Task D) (st : TaskState D TaskVariables) {pc : Pc}
    (h : pc.hold = y.pc.hold ∨ pc.hold = none) :
    (⟨st, y.isLocked, pc⟩ : Task D).hold = y.hold ∨
      (⟨st, y.isLocked, pc⟩ : Task D).hold = none := by
  unfold Task.hold
  cases hl : y.isLocked <;> simp [h]

/-! ### Every action is followed -/

variable {s' : StoreSys T D} {c : Command}

/-- The reference can follow to a state that agrees with `s'`, with the given event. -/
def Follows (x : Reference T) (e : Option (Event T)) (s' : StoreSys T D) : Prop :=
  ∃ tr x', exec (Atomic.step Maps.run) x tr = some x' ∧ Sim s' x' ∧
    events Atomic.Act.event? tr = e.toList

theorem Sim.stutter (h : Sim s' x) : Follows x none s' := ⟨[], x, rfl, h, rfl⟩

/-- The reference, after the command of `t` took effect. -/
def effect (x : Reference T) (t : T) (c : Command) : Reference T :=
  { x.set t (.done (Maps.run t x.state c).2) with state := (Maps.run t x.state c).1 }

theorem Sim.effect (hst : x.thr t = .called c) (h : Sim s' (SharedStore.effect x t c)) :
    Follows x none s' :=
  ⟨[.effect t], _, Atomic.exec_effect hst, h, rfl⟩

theorem effect_thr (x : Reference T) (t : T) (c : Command) :
    (SharedStore.effect x t c).thr t = .done (Maps.run t x.state c).2 := by
  simp [SharedStore.effect, Atomic.Obj.set]

theorem OnlyFor.effect (hmaps : ∀ u, u ≠ t → (Maps.run t x.state c).1.task u = x.state.task u) :
    OnlyFor t x (SharedStore.effect x t c) := fun u hu =>
  ⟨hmaps u hu, by simp [SharedStore.effect, Atomic.Obj.set, hu]⟩

theorem Sim.effect_task (h : Sim s x) (hst : x.thr t = .called c) {vars : TaskVariables}
    {ans : Option CString} (hmaps : ∀ u, u ≠ t → (Maps.run t x.state c).1.task u = x.state.task u)
    (hglobal : (Maps.run t x.state c).1.global = x.state.global)
    (hsame : Same vars ((Maps.run t x.state c).1.task t))
    (hans : (Maps.run t x.state c).2 = ans) :
    Follows x none (s.setVariables t vars (.returned ans)) := by
  refine Sim.effect hst (h.move (.effect hmaps) (fun k => ?_) ⟨?_, hsame⟩ ?_)
  · rw [← h.global k]
    exact congrFun hglobal k
  · rw [effect_thr, hans]
  · exact (hold_pc (s.task t) _ (.inr rfl)).imp_right .inl

theorem Sim.locking (h : Sim s x) (hst : x.thr t = .called c) {vars : TaskVariables}
    (hpart : GlobalPart vars (x.state.task t) c) :
    Follows x none (s.setVariables t vars (.locking c)) :=
  Sim.stutter (h.move (.refl t x) h.global ⟨hst, hpart⟩
    ((hold_pc (s.task t) _ (.inr rfl)).imp_right .inl))

variable [Fintype T]

theorem Sim.called_get (h : Sim s x) {key scope : CString} (hst : x.thr t = .called (.get key scope))
    (hsame : Same (s.task t).state.taskVariables (x.state.task t))
    (hs : s.next t ⟨true, true, true⟩ (.called (.get key scope)) = some s') : Follows x none s' := by
  obtain ⟨htg, hta, hga⟩ := scopes_ne
  have hanswer : ∀ {ans}, (Maps.run t x.state (.get key scope)).2 = ans →
      Follows x none (s.goto t (.returned ans)) :=
    fun hans => h.effect_task hst (fun _ _ => rfl) rfl hsame hans
  simp only [StoreSys.next] at hs
  by_cases hscope : scope = scopeTask ∨ scope = scopeAll
  · rw [if_pos hscope, hsame key] at hs
    cases hkey : x.state.task t key with
    | some v =>
      rw [hkey] at hs
      cases hs
      apply hanswer
      rcases hscope with rfl | rfl
      · simp [Maps.run, hkey]
      · simp [Maps.run, hta.symm, hga.symm, hkey]
    | none =>
      rw [hkey] at hs
      simp only [Option.map_none] at hs
      split at hs
      · rename_i hg
        cases hs
        refine h.locking hst ⟨hsame, .inr ⟨?_, hkey⟩⟩
        rcases hg with rfl | hg
        · rcases hscope with heq | heq
          · exact absurd heq.symm htg
          · exact heq
        · exact hg
      · rename_i hg
        cases hs
        apply hanswer
        rcases hscope with rfl | rfl
        · simp [Maps.run, hkey]
        · exact absurd (.inr rfl) hg
  · rw [if_neg hscope] at hs
    simp only at hs
    obtain ⟨hnt, hna⟩ := not_or.mp hscope
    split at hs
    · rename_i hg
      cases hs
      exact h.locking hst ⟨hsame, .inl (hg.resolve_right hna)⟩
    · rename_i hg
      cases hs
      apply hanswer
      simp [Maps.run, hnt, hna, (not_or.mp hg).1]

theorem Sim.called_set (h : Sim s x) {key value scope : CString}
    (hst : x.thr t = .called (.set key value scope))
    (hsame : Same (s.task t).state.taskVariables (x.state.task t))
    (hs : s.next t ⟨true, true, true⟩ (.called (.set key value scope)) = some s') :
    Follows x none s' := by
  simp only [StoreSys.next] at hs
  split at hs
  · rename_i htask
    cases hs
    subst htask
    refine h.effect_task hst (fun u hu => ?_) ?_ ?_ rfl
    · simp [Maps.run, Maps.setTask, hu]
    · simp [Maps.run, Maps.setTask]
    · simpa [Maps.run, Maps.setTask] using hsame.set key value
  · rename_i hnt
    split at hs
    · rename_i hglobal
      cases hs
      exact h.locking hst ⟨hsame, hglobal⟩
    · rename_i hng
      cases hs
      refine h.effect_task hst (fun u hu => ?_) ?_ ?_ rfl
      · simp [Maps.run, hnt, hng]
      · simp [Maps.run, hnt, hng]
      · simpa [Maps.run, hnt, hng] using hsame

theorem Sim.called_unset (h : Sim s x) {key scope : CString}
    (hst : x.thr t = .called (.unset key scope))
    (hsame : Same (s.task t).state.taskVariables (x.state.task t))
    (hs : s.next t ⟨true, true, true⟩ (.called (.unset key scope)) = some s') :
    Follows x none s' := by
  obtain ⟨htg, hta, hga⟩ := scopes_ne
  simp only [StoreSys.next] at hs
  cases hs
  by_cases htask : scope = scopeTask
  · subst htask
    simp only [true_or, if_true, htg, hta, or_self, if_false]
    refine h.effect_task hst (fun u hu => ?_) ?_ ?_ ?_
    · simp [Maps.run, Maps.setTask, hu]
    · simp [Maps.run, Maps.setTask]
    · simpa [Maps.run, Maps.setTask] using hsame.erase key
    · simp [Maps.run]
  · by_cases hglobal : scope = scopeGlobal
    · subst hglobal
      simp only [htg.symm, hga, or_self, if_false, true_or, if_true]
      exact h.locking hst (.inl ⟨rfl, hsame⟩)
    · by_cases hall : scope = scopeAll
      · subst hall
        simp only [or_true, if_true]
        exact h.locking hst (.inr ⟨rfl, hsame.erase key⟩)
      · simp only [htask, hglobal, hall, or_self, if_false]
        refine h.effect_task hst (fun u hu => ?_) ?_ ?_ ?_
        · simp [Maps.run, htask, hglobal, hall]
        · simp [Maps.run, htask, hglobal, hall]
        · simpa [Maps.run, htask, hglobal, hall] using hsame
        · simp [Maps.run]

/-! #### In the global scope -/

omit [DecidableEq T] [Fintype T] in
theorem hold_write {y : Task D} (h : y.pc.hold = some .write) : y.hold = some .write := by
  unfold Task.hold
  rw [h]
  split <;> rfl

omit [Fintype T] in
theorem Sim.goto (h : Sim s x) {pc : Pc} (hhold : pc.hold = (s.task t).pc.hold ∨ pc.hold = none)
    (hself : TaskRel s.vars.list (s.task t).state.taskVariables (x.state.task t) (x.thr t) pc) :
    Sim (s.goto t pc) x :=
  h.move (.refl t x) h.global hself ((hold_pc (s.task t) _ hhold).imp_right .inl)

omit [Fintype T] in
theorem Sim.effect_read (h : Sim s x) (hst : x.thr t = .called c) {m : Mode} {ans : Option CString}
    (hpc : (s.task t).pc.hold = some m)
    (hmaps : ∀ u, u ≠ t → (Maps.run t x.state c).1.task u = x.state.task u)
    (hglobal : (Maps.run t x.state c).1.global = x.state.global)
    (hsame : Same (s.task t).state.taskVariables ((Maps.run t x.state c).1.task t))
    (hans : (Maps.run t x.state c).2 = ans) : Follows x none (s.goto t (.unlocking m ans)) := by
  refine Sim.effect hst (h.move (.effect hmaps) (fun k => ?_) ⟨?_, hsame⟩ ?_)
  · rw [← h.global k]
    exact congrFun hglobal k
  · rw [effect_thr, hans]
  · have hkeep : (Pc.unlocking m ans).hold = (s.task t).pc.hold := hpc.symm
    exact (hold_pc (s.task t) _ (.inl hkeep)).imp_right .inl

omit [Fintype T] in
theorem Sim.effect_write (h : Sim s x) (hst : x.thr t = .called c) {vars : GlobalVariables}
    (hpc : (s.task t).pc.hold = some .write) (hcount : Counted vars)
    (hmaps : ∀ u, u ≠ t → (Maps.run t x.state c).1.task u = x.state.task u)
    (hglobal : ∀ k : CString, (Maps.run t x.state c).1.global k = vars.list[k]?)
    (hsame : Same (s.task t).state.taskVariables ((Maps.run t x.state c).1.task t))
    (hans : (Maps.run t x.state c).2 = none) :
    Follows x none { s.goto t (.unlocking .write none) with vars := vars } := by
  refine Sim.effect hst (h.write (.effect hmaps) (hold_write hpc) hcount hglobal ⟨?_, hsame⟩ ?_)
  · rw [effect_thr, hans]
  · exact (hold_write (y := ⟨_, _, _⟩) rfl).trans (hold_write hpc).symm

omit [Fintype T] in
theorem Sim.effect_get (h : Sim s x) {key scope : CString} (hst : x.thr t = .called (.get key scope))
    (hpc : (s.task t).pc.hold = some .read)
    (hpart : GlobalPart (s.task t).state.taskVariables (x.state.task t) (.get key scope)) :
    Follows x none (s.goto t (.unlocking .read (s.vars.list[key]?))) := by
  have hrun := hpart.run_get
  refine h.effect_read hst hpc (fun u _ => ?_) ?_ ?_ ?_
  · rw [hrun]
  · rw [hrun]
  · rw [hrun]
    exact hpart.1
  · rw [hrun]
    exact h.global key

omit [Fintype T] in
theorem Sim.effect_set (h : Sim s x) {key value scope : CString}
    (hst : x.thr t = .called (.set key value scope)) (hpc : (s.task t).pc.hold = some .write)
    (hpart : GlobalPart (s.task t).state.taskVariables (x.state.task t) (.set key value scope)) :
    Follows x none { s.goto t (.unlocking .write none) with
      vars := globalSet s.vars key value } := by
  have hrun := hpart.run_set
  refine h.effect_write hst hpc (Counted.set h.count key value) (fun u _ => ?_) (fun k => ?_) ?_ ?_
  · rw [hrun]
    rfl
  · rw [hrun, globalSet_list, ← funext h.global]
    rfl
  · rw [hrun]
    exact hpart.1
  · rw [hrun]

omit [Fintype T] in
theorem Sim.effect_unset (h : Sim s x) {key scope : CString}
    (hst : x.thr t = .called (.unset key scope)) (hpc : (s.task t).pc.hold = some .write)
    (hpart : GlobalPart (s.task t).state.taskVariables (x.state.task t) (.unset key scope)) :
    Follows x none { s.goto t (.unlocking .write none) with
      vars := globalUnset s.vars key } := by
  obtain ⟨hans, hglobal, hsame, hmaps⟩ := hpart.run_unset
  refine h.effect_write hst hpc (Counted.unset h.count key) hmaps (fun k => ?_) hsame hans
  rw [hglobal, globalUnset_list, ← funext h.global]

theorem Sim.finding (h : Sim s x) (hpc : (s.task t).pc = .finding c) (hst : x.thr t = .called c)
    (hpart : GlobalPart (s.task t).state.taskVariables (x.state.task t) c)
    (hs : s.next t ⟨true, true, true⟩ (.finding c) = some s') : Follows x none s' := by
  have hhold : (s.task t).pc.hold = some c.mode := by rw [hpc]; rfl
  cases c with
  | get key scope =>
    simp only [StoreSys.next] at hs
    split at hs
    · cases hs
      exact Sim.stutter (h.goto (.inl hhold.symm) ⟨scope, hst, hpart⟩)
    · rename_i hnone
      cases hs
      have hfollows := h.effect_get hst hhold hpart
      rwa [show s.vars.list[key]? = none from hnone] at hfollows
  | set key value scope =>
    simp only [StoreSys.next] at hs
    split at hs
    · rename_i old hsome
      cases hs
      exact Sim.stutter (h.goto (.inl hhold.symm)
        ⟨scope, hst, hpart, Option.isSome_iff_exists.2 ⟨old, hsome⟩⟩)
    · rename_i hnone
      cases hs
      exact Sim.stutter (h.goto (.inl hhold.symm) ⟨scope, hst, hpart, hnone⟩)
  | unset key scope =>
    simp only [StoreSys.next] at hs
    split at hs
    · rename_i old hsome
      cases hs
      exact Sim.stutter (h.goto (.inl hhold.symm)
        ⟨scope, hst, hpart, Option.isSome_iff_exists.2 ⟨old, hsome⟩⟩)
    · rename_i hnone
      cases hs
      have hfollows := h.effect_unset hst hhold hpart
      rwa [show globalUnset s.vars key = s.vars by rw [globalUnset, hnone]] at hfollows

/-- **Step lemma**: the reference follows a task that goes on in a command. -/
theorem Sim.next (h : Sim s x)
    (hs : s.next t ⟨true, true, true⟩ (s.task t).pc = some s') : Follows x none s' := by
  have hself := h.tasks t
  cases hpc : (s.task t).pc with
  | idle =>
    rw [hpc] at hs
    cases hs
  | returned ans =>
    rw [hpc] at hs
    cases hs
  | called c =>
    rw [hpc] at hs hself
    obtain ⟨hst, hsame⟩ := hself
    cases c with
    | get key scope => exact h.called_get hst hsame hs
    | set key value scope => exact h.called_set hst hsame hs
    | unset key scope => exact h.called_unset hst hsame hs
  | locking c =>
    rw [hpc] at hs hself
    simp only [StoreSys.next] at hs
    split at hs
    · rename_i hlock
      cases hs
      refine Sim.stutter (h.move (.refl t x) h.global hself ?_)
      rcases hlock with hlocked | hfree
      · exact .inl (by simp [Task.hold, hlocked])
      · by_cases hlocked : (s.task t).isLocked
        · exact .inl (by simp [Task.hold, hlocked])
        · exact .inr (.inr ⟨c.mode, by simp [Task.hold, hlocked, Pc.hold], hfree⟩)
    · cases hs
  | finding c =>
    rw [hpc] at hs hself
    exact h.finding hpc hself.1 hself.2 hs
  | copying key =>
    rw [hpc] at hs hself
    obtain ⟨scope, hst, hpart⟩ := hself
    cases hs
    exact h.effect_get hst (by rw [hpc]; rfl) hpart
  | inserting key value =>
    rw [hpc] at hs hself
    obtain ⟨scope, hst, hpart, hnone⟩ := hself
    have hfollows := h.effect_set hst (by rw [hpc]; rfl) hpart
    have hset : globalSet s.vars key value = ⟨s.vars.n + 1, s.vars.list.insert key value⟩ := by
      rw [globalSet, show s.vars.list.findVariable key = none from hnone]
    simp only [StoreSys.next, File.Variables.insertNew] at hs
    split at hs
    · cases hs
    · cases hs
      rwa [hset] at hfollows
  | updating key value =>
    rw [hpc] at hs hself
    obtain ⟨scope, hst, hpart, hsome⟩ := hself
    have hfollows := h.effect_set hst (by rw [hpc]; rfl) hpart
    obtain ⟨old, hold⟩ := Option.isSome_iff_exists.1 hsome
    have hset : globalSet s.vars key value =
        { s.vars with list := s.vars.list.setValue key value } := by
      rw [globalSet, show s.vars.list.findVariable key = some old from hold]
    cases hs
    rwa [hset] at hfollows
  | removing key =>
    rw [hpc] at hs hself
    obtain ⟨scope, hst, hpart, hsome⟩ := hself
    have hfollows := h.effect_unset hst (by rw [hpc]; rfl) hpart
    obtain ⟨old, hold⟩ := Option.isSome_iff_exists.1 hsome
    have hunset : globalUnset s.vars key = ⟨s.vars.n - 1, s.vars.list.erase key⟩ := by
      rw [globalUnset, show s.vars.list.findVariable key = some old from hold]
    cases hs
    rwa [hunset] at hfollows
  | unlocking m ans =>
    rw [hpc] at hs hself
    cases hs
    exact Sim.stutter (h.goto (.inr rfl) hself)

omit [Fintype T] in
theorem method_setTask {t : T} {f : TaskState D TaskVariables → TaskState D TaskVariables}
    (hs : s.method t f = some s') :
    s' = s.setTask t { s.task t with state := f (s.task t).state } := by
  unfold StoreSys.method at hs
  split at hs <;> cases hs
  rfl

omit [Fintype T] in
/-- A method of the object leaves the variables of the task alone. -/
theorem Sim.method (h : Sim s x) {f : TaskState D TaskVariables → TaskState D TaskVariables}
    (hf : ∀ st, (f st).taskVariables = st.taskVariables) (hs : s.method t f = some s') :
    Follows x none s' := by
  have hself := h.tasks t
  obtain rfl := method_setTask hs
  refine Sim.stutter (h.move (.refl t x) h.global ?_ (.inl rfl))
  simpa only [hf] using hself

theorem taskVariables_push (st : TaskState D TaskVariables) (arg : Option CString) (room : Bool) :
    (vmodScriptPush st arg room).taskVariables = st.taskVariables := by
  unfold vmodScriptPush
  split
  · rfl
  · split
    · split <;> rfl
    · rfl

/-- **Step lemma**: the reference follows every action, with the same event. -/
theorem Sim.step {a : Act T D} (h : Sim s x) (hroom : a.Roomy) (hs : s.step a = some s') :
    Follows x a.event? s' := by
  cases a with
  | event e =>
    cases e with
    | call t c =>
      have hself := h.tasks t
      simp only [StoreSys.step] at hs
      split at hs
      · rename_i hpc
        rw [hpc] at hself
        cases hs
        refine ⟨[.event (.call t c)], _, Atomic.exec_call hself.1, ?_, rfl⟩
        refine h.move (.set t x _) h.global ⟨?_, hself.2⟩
          ((hold_pc (s.task t) _ (.inr rfl)).imp_right .inl)
        simp [Atomic.Obj.set]
      · cases hs
    | ret t ans =>
      have hself := h.tasks t
      simp only [StoreSys.step] at hs
      split at hs
      · rename_i ans' hpc
        rw [hpc] at hself
        split at hs
        · rename_i hans
          subst hans
          cases hs
          refine ⟨[.event (.ret t ans)], _, Atomic.exec_ret hself.1, ?_, rfl⟩
          refine h.move (.set t x _) h.global ⟨?_, hself.2⟩
            ((hold_pc (s.task t) _ (.inr rfl)).imp_right .inl)
          simp [Atomic.Obj.set]
        · cases hs
      · cases hs
  | go t room =>
    cases hroom
    exact h.next hs
  | enter t =>
    have hself := h.tasks t
    simp only [StoreSys.step] at hs
    split at hs
    · rename_i st ht
      rw [ht] at hself
      split at hs
      · rename_i hfree
        cases hs
        rw [ht]
        exact Sim.stutter (h.move (.refl t x) h.global hself (.inr (.inr ⟨.write, rfl, hfree⟩)))
      · cases hs
    · cases hs
  | leave t =>
    have hself := h.tasks t
    simp only [StoreSys.step] at hs
    split at hs
    · rename_i st ht
      rw [ht] at hself
      cases hs
      rw [ht]
      exact Sim.stutter (h.move (.refl t x) h.global hself (.inr (.inl rfl)))
    · cases hs
  | init t code => exact h.method (f := fun st => vmodScriptInit st code) (fun _ => rfl) hs
  | push t arg room => exact h.method (fun st => taskVariables_push st arg room) hs
  | execute t r => exact h.method (f := fun st => st.withResult r) (fun _ => rfl) hs
  | freeResult t => exact h.method (f := vmodScriptFreeResult) (fun _ => rfl) hs

theorem Sim.reach {tr : List (Act T D)} (hroom : ∀ a ∈ tr, a.Roomy)
    (hex : exec StoreSys.step .init tr = some s) :
    ∃ tr' x, exec (Atomic.step Maps.run) (.init .empty) tr' = some x ∧ Sim s x ∧
      events Atomic.Act.event? tr' = events Act.event? tr := by
  rw [← trace_eq_events hex]
  exact exec_simulates (fun _ => Act.event?) Atomic.Act.event? Sim
    (fun _ _ _ _ hok h hs => h.step hok hs) (along_of_forall hroom) .init hex

end Moves

/-! ## The methods of the object -/

theorem next_task [DecidableEq T] [Fintype T] {s s' : StoreSys T D} {t : T} {room : Room} {pc : Pc}
    (hs : s.next t room pc = some s') : ∃ y, s'.task = Function.update s.task t y := by
  cases pc with
  | called c =>
    cases c with
    | get key scope =>
      simp only [StoreSys.next] at hs
      split at hs
      · cases hs
        exact ⟨_, rfl⟩
      · split at hs <;> cases hs <;> exact ⟨_, rfl⟩
    | set key value scope =>
      simp only [StoreSys.next] at hs
      split at hs
      · cases hs
        exact ⟨_, rfl⟩
      · split at hs <;> cases hs <;> exact ⟨_, rfl⟩
    | unset key scope =>
      cases hs
      exact ⟨_, rfl⟩
  | locking c =>
    simp only [StoreSys.next] at hs
    split at hs <;> cases hs
    exact ⟨_, rfl⟩
  | finding c =>
    cases c <;> simp only [StoreSys.next] at hs <;> split at hs <;> cases hs <;> exact ⟨_, rfl⟩
  | inserting key value =>
    simp only [StoreSys.next, Option.map_eq_some_iff] at hs
    obtain ⟨list, -, rfl⟩ := hs
    exact ⟨_, rfl⟩
  | _ =>
    cases hs <;> exact ⟨_, rfl⟩

theorem step_setTask [DecidableEq T] [Fintype T] {s s' : StoreSys T D} {a : Act T D}
    (hs : s.step a = some s') (ha : ∀ t room, a ≠ .go t room) :
    ∃ t y, s' = s.setTask t y ∧
      y.state.taskVariables = (s.task t).state.taskVariables := by
  cases a with
  | event e =>
    cases e <;> simp only [StoreSys.step] at hs <;> split at hs
    · cases hs
      exact ⟨_, _, rfl, rfl⟩
    · cases hs
    · split at hs <;> cases hs
      exact ⟨_, _, rfl, rfl⟩
    · cases hs
  | go t room => exact absurd rfl (ha t room)
  | enter t =>
    simp only [StoreSys.step] at hs
    split at hs
    · split at hs <;> cases hs
      exact ⟨_, _, rfl, rfl⟩
    · cases hs
  | leave t =>
    simp only [StoreSys.step] at hs
    split at hs <;> cases hs
    exact ⟨_, _, rfl, rfl⟩
  | init t code =>
    exact ⟨t, _, method_setTask (f := fun st => vmodScriptInit st code) hs, rfl⟩
  | push t arg room =>
    exact ⟨t, _, method_setTask (f := fun st => vmodScriptPush st arg room) hs,
      taskVariables_push _ arg room⟩
  | execute t r => exact ⟨t, _, method_setTask (f := fun st => st.withResult r) hs, rfl⟩
  | freeResult t => exact ⟨t, _, method_setTask (f := vmodScriptFreeResult) hs, rfl⟩

/-- The variables of a task change only while a command of the task goes on. -/
theorem taskVariables_step [DecidableEq T] [Fintype T] {s s' : StoreSys T D} {a : Act T D} {t : T}
    (hs : s.step a = some s') (ha : ∀ room, a ≠ .go t room) :
    (s'.task t).state.taskVariables = (s.task t).state.taskVariables := by
  by_cases hgo : ∃ u room, a = .go u room
  · obtain ⟨u, room, rfl⟩ := hgo
    obtain ⟨y, hy⟩ := next_task hs
    rw [hy, Function.update_of_ne]
    intro hu
    exact ha room (by rw [hu])
  · obtain ⟨u, y, rfl, hy⟩ := step_setTask hs fun u room h => hgo ⟨u, room, h⟩
    by_cases hu : t = u
    · subst hu
      simpa [StoreSys.setTask] using hy
    · simp [StoreSys.setTask, hu]

end Simulation

/-! ## The refinement -/

/-- **The store refines the maps**: every run with enough workspace has the calls and the answers
of a run of the reference, and ends with its maps; the assertion of an insertion holds, and the
counter is the number of global variables modulo 2^32. The variables of a task change only by its
own commands: methods of the object leave them alone, an execution but for its script. -/
theorem shared_variables_refine_maps {T D : Type} [DecidableEq T] [Fintype T]
    (tr : List (Act T D)) (hroom : ∀ a ∈ tr, a.Roomy) :
    (∀ s, exec StoreSys.step .init tr = some s →
      (∃ tr' x, exec (Atomic.step Maps.run) (.init .empty) tr' = some x ∧
        events Atomic.Act.event? tr' = events Act.event? tr ∧
        (∀ k : CString, x.state.global k = s.vars.list[k]?) ∧
        ∀ t, (s.task t).pc = .idle → Same (s.task t).state.taskVariables (x.state.task t)) ∧
      (∀ t key value, (s.task t).pc = .inserting key value →
        (s.vars.list.insertNew key value).isSome) ∧
      s.vars.n.toNat = s.vars.list.toList.length % 2 ^ 32) ∧
    Along StoreSys.step (fun s a => ∀ s' t, s.step a = some s' → (∀ room, a ≠ .go t room) →
      (s'.task t).state.taskVariables = (s.task t).state.taskVariables) .init tr ∧
    (∀ (G E : Type) (I : Interp G (E × TaskVariables) (LuaValue D)) cfg s s' st st' env env' gc,
      I.Keeps (fun env => env.2 = st.taskVariables) →
      vmodScriptExecute I cfg (executeLua I) s st env gc = .returned (st', s', env') →
      st'.taskVariables = st.taskVariables) ∧
    (∀ (G E : Type) (I : Interp G (E × TaskVariables) (JsValue D)) cfg s s' st st' env env' gc,
      I.Keeps (fun env => env.2 = st.taskVariables) →
      vmodScriptExecute I cfg (executeJavascript I) s st env gc = .returned (st', s', env') →
      st'.taskVariables = st.taskVariables) := by
  refine ⟨fun s hex => ?_, ?_, fun G E I cfg s s' st st' env env' gc hI h => ?_,
    fun G E I cfg s s' st st' env env' gc hI h => ?_⟩
  · obtain ⟨tr', x, hex', hsim, hevents⟩ := Sim.reach hroom hex
    refine ⟨⟨tr', x, hex', hevents, hsim.global, fun t hidle => ?_⟩, fun t key value hpc => ?_, ?_⟩
    · have hself := hsim.tasks t
      rw [hidle] at hself
      exact hself.2
    · have hself := hsim.tasks t
      rw [hpc] at hself
      obtain ⟨scope, -, -, hnone⟩ := hself
      rw [File.Variables.insertNew, if_neg]
      · rfl
      · rw [← mem_of_find]
        simp [File.Variables.findVariable, hnone]
    · rw [hsim.count, Std.ExtTreeMap.length_toList]
      exact UInt32.toNat_ofNat'
  · exact along_mono (fun s a _ s' t hs ha => taskVariables_step hs ha) (along_true _ tr)
  · exact vmodScriptExecute_taskVariables hI (executeLua_keeps hI) rfl h
  · exact vmodScriptExecute_taskVariables hI (executeJavascript_keeps hI) rfl h

/-! ## Two tasks, and 2^32 global variables -/

section Example

/-- With enough workspace -/
abbrev roomy : Room := ⟨true, true, true⟩

/-- Task 1 reads in both scopes while task 0 sets the variable in `varnish.shared.eval`. -/
def twoTasks : List (Act (Fin 2) Unit) :=
  [.enter 0, .event (.call 1 (.get scopeTask scopeAll)),
    .event (.call 0 (.set scopeTask scopeGlobal scopeGlobal)), .go 1 roomy] ++
  List.replicate 5 (.go 0 roomy) ++
  [.event (.ret 0 none), .leave 0] ++
  List.replicate 4 (.go 1 roomy) ++
  [.event (.ret 1 (some scopeGlobal))]

theorem shared_variables_refine_maps_twoTasks :
    ∃ s, exec StoreSys.step .init twoTasks = some s ∧ s.vars.n = 1 ∧
      ∃ tr' x, exec (Atomic.step Maps.run) (.init .empty) tr' = some x ∧
        events Atomic.Act.event? tr' = events Act.event? twoTasks := by
  have hroom : ∀ a ∈ twoTasks, a.Roomy := by
    intro a ha
    simp only [twoTasks, List.mem_append, List.mem_cons, List.mem_replicate, List.not_mem_nil,
      or_false] at ha
    rcases ha with (((((rfl | rfl | rfl | rfl) | ⟨-, rfl⟩) | rfl | rfl) | ⟨-, rfl⟩) | rfl) <;>
      first | rfl | trivial
  obtain ⟨tr', x, hex, hevents, -⟩ := ((shared_variables_refine_maps twoTasks hroom).1 _ rfl).1
  exact ⟨_, rfl, rfl, tr', x, hex, hevents⟩

/-- One task sets a global variable to the empty string. -/
def setCall (key : CString) : List (Act Unit Unit) :=
  [.event (.call () (.set key .empty scopeGlobal))] ++ List.replicate 5 (.go () roomy) ++
    [.event (.ret () none)]

theorem setCall_roomy (key : CString) : ∀ a ∈ setCall key, a.Roomy := by
  intro a ha
  simp only [setCall, List.mem_append, List.mem_cons, List.mem_replicate, List.not_mem_nil,
    or_false] at ha
  rcases ha with (rfl | ⟨-, rfl⟩) | rfl <;> first | rfl | trivial

theorem store_one {vars : GlobalVariables} {st : TaskState Unit TaskVariables} {key : CString}
    (hnew : key ∉ vars.list) :
    exec StoreSys.step ⟨vars, fun _ => ⟨st, false, .idle⟩⟩ (setCall key) =
      some ⟨⟨vars.n + 1, vars.list.insert key .empty⟩, fun _ => ⟨st, false, .idle⟩⟩ := by
  have hthr : ∀ (f : Unit → Task Unit) y, Function.update f () y = fun _ => y := by
    intro f y
    funext u
    simp [Function.update]
  have hnone : vars.list.findVariable key = none := Std.ExtTreeMap.getElem?_eq_none hnew
  simp [setCall, List.replicate, exec, StoreSys.step, StoreSys.next, StoreSys.goto,
    StoreSys.setTask, StoreSys.Free, RwLock.Free, Task.hold, Pc.hold, hthr, hnone,
    File.Variables.insertNew, hnew, scopes_ne.1.symm]

/-- One task can set any number of global variables that fits an address space. -/
theorem store_many (k : Nat) (hk : k ≤ 2 ^ 64) :
    ∃ tr vars, (∀ a ∈ tr, a.Roomy) ∧
      exec StoreSys.step (.init : StoreSys Unit Unit) tr =
        some ⟨vars, fun _ => ⟨⟨∅, .init⟩, false, .idle⟩⟩ ∧
      vars.list.size = k ∧ ∀ key ∈ vars.list, ∃ j < k, key = .binary j := by
  induction k with
  | zero => exact ⟨[], ⟨0, ∅⟩, nofun, rfl, rfl, fun key h => by simp at h⟩
  | succ k ih =>
    obtain ⟨tr, vars, hroom, hex, hsize, hall⟩ := ih (by omega)
    have hnew : .binary k ∉ vars.list := by
      intro hmem
      obtain ⟨j, hj, heq⟩ := hall _ hmem
      have := CString.binary_injective (by omega) (by omega) heq
      omega
    refine ⟨tr ++ setCall (.binary k), ⟨vars.n + 1, vars.list.insert (.binary k) .empty⟩, ?_, ?_,
      ?_, ?_⟩
    · intro a ha
      exact (List.mem_append.mp ha).elim (hroom a) (setCall_roomy _ a)
    · rw [exec_append, hex]
      exact store_one hnew
    · rw [Std.ExtTreeMap.size_insert, if_neg (by simpa using hnew), hsize]
    · intro key hkey
      rw [Std.ExtTreeMap.mem_insert] at hkey
      rcases hkey with heq | hmem
      · exact ⟨k, by omega, (Std.LawfulEqCmp.eq_of_compare heq).symm⟩
      · obtain ⟨j, hj, rfl⟩ := hall key hmem
        exact ⟨j, by omega, rfl⟩

/-- **The counter wraps**: 2^32 global variables are counted as none. -/
theorem variables_counter_wraps :
    ∃ tr s, (∀ a ∈ tr, a.Roomy) ∧ exec StoreSys.step (.init : StoreSys Unit Unit) tr = some s ∧
      s.vars.list.toList.length = 2 ^ 32 ∧ s.vars.n = 0 := by
  obtain ⟨tr, vars, hroom, hex, hsize, -⟩ := store_many (2 ^ 32) (by omega)
  obtain ⟨_, _, -, hsim, -⟩ := Sim.reach hroom hex
  refine ⟨tr, _, hroom, hex, ?_, ?_⟩
  · rw [Std.ExtTreeMap.length_toList, hsize]
  · rw [hsim.count, hsize]
    rfl

end Example

end VmodCfg.Script.SharedStore
