import Mathlib.Data.Fintype.Basic
import VmodCfg.Lib.Machine
import VmodCfg.Script.Pool

/-!
# Threads over one engine pool

Any finite set `T` of threads calls `lock_engine`, executes, and calls
`unlock_engine` on one script object. An action is one critical section under
`script->state.mutex`, a spurious wakeup, or one side of an execution (which
touches only the engine its thread holds). `runs` counts the executions that
each engine started; it is bookkeeping, nothing reads it.

`Inv` ties the two lists, the counters and the threads together: every engine in
`busy` has exactly one holder.
-/

namespace VmodCfg.Script

open Machine

inductive Pc where
  | idle
  | sleeping
  | signalled
  | woken
  | locked (e : EngineId)
  | executing (e : EngineId)
  | executed (e : EngineId)
  deriving DecidableEq, Repr

def Pc.engine : Pc → Option EngineId
  | .locked e | .executing e | .executed e => some e
  | _ => none

inductive Act (T C : Type*) where
  | lock (t : T) (ctx : C) (memory : Int)
  | spurious (t : T)
  | relock (t : T) (ctx : C) (memory : Int)
  | execute (t : T)
  | cycle (t : T) (ctx : C)
  | unlock (t : T) (memory : Int) (W : Finset T)

structure PoolSys (T C : Type*) where
  pool : Pool C
  pc : T → Pc
  runs : EngineId → Nat

section Defs

variable {T C : Type*} [DecidableEq T] [Fintype T] (cfg : PoolCfg) (s : PoolSys T C)

def PoolSys.init : PoolSys T C := ⟨.init, fun _ => .idle, fun _ => 0⟩

/-- The thread leaves the section of `lock_engine` with an engine, or sleeps in it. -/
def PoolSys.leave (t : T) (r : Option EngineId × Pool C) : PoolSys T C :=
  { s with
    pool := r.2
    pc := Function.update s.pc t (match r.1 with
      | some e => .locked e
      | none => .sleeping) }

/-- The sleepers a signal may wake: at least one, if there is one. -/
def PoolSys.Wakes (W : Finset T) : Prop :=
  (∀ t ∈ W, s.pc t = .sleeping) ∧ ((∃ t, s.pc t = .sleeping) → W.Nonempty)

instance (W : Finset T) : Decidable (s.Wakes W) := inferInstanceAs (Decidable (_ ∧ _))

def step : Act T C → Option (PoolSys T C)
  | .lock t ctx memory =>
    if s.pc t = .idle then some (s.leave t (lockEngine cfg s.pool ctx memory)) else none
  | .spurious t =>
    if s.pc t = .sleeping then some { s with pc := Function.update s.pc t .woken } else none
  | .relock t ctx memory =>
    if s.pc t = .signalled ∨ s.pc t = .woken then
      some (s.leave t (lockEngine cfg (countBlocked s.pool) ctx memory))
    else none
  | .execute t =>
    match s.pc t with
    | .locked e => some { s with
        pc := Function.update s.pc t (.executing e)
        runs := Function.update s.runs e (s.runs e + 1) }
    | _ => none
  | .cycle t ctx =>
    match s.pc t with
    | .executing e => some { s with
        pool := cycleEngine s.pool e ctx
        pc := Function.update s.pc t (.executed e) }
    | _ => none
  | .unlock t memory W =>
    match s.pc t with
    | .executed e =>
      if s.Wakes W then some { s with
        pool := unlockEngine s.pool e memory
        pc := fun u => if u ∈ W then .signalled else Function.update s.pc t .idle u }
      else none
    | _ => none

/-- What holds between any two critical sections. -/
structure Inv : Prop where
  pool : PoolOk cfg s.pool
  held : ∀ e, e ∈ s.pool.busy ↔ ∃ t, (s.pc t).engine = some e
  unique : ∀ t u e, (s.pc t).engine = some e → (s.pc u).engine = some e → t = u

end Defs

variable {T C : Type*} {cfg : PoolCfg} {s s' : PoolSys T C}

/-! ## What a step can do -/

/-- Everything an action does: `retry` is `lockEngine` after a wait, in a pool that has counted it. -/
inductive StepCase [DecidableEq T] (cfg : PoolCfg) (s : PoolSys T C) : PoolSys T C → Prop where
  | lock {t : T} (ctx : C) (memory : Int) : s.pc t = .idle →
      StepCase cfg s (s.leave t (lockEngine cfg s.pool ctx memory))
  | retry {t : T} (ctx : C) (memory : Int) : s.pc t = .signalled ∨ s.pc t = .woken →
      StepCase cfg s (PoolSys.leave { s with pool := countBlocked s.pool } t
        (lockEngine cfg (countBlocked s.pool) ctx memory))
  | spurious {t : T} : s.pc t = .sleeping →
      StepCase cfg s { s with pc := Function.update s.pc t .woken }
  | execute {t : T} {e : EngineId} : s.pc t = .locked e →
      StepCase cfg s { s with
        pc := Function.update s.pc t (.executing e)
        runs := Function.update s.runs e (s.runs e + 1) }
  | cycle {t : T} {e : EngineId} (ctx : C) : s.pc t = .executing e →
      StepCase cfg s { s with
        pool := cycleEngine s.pool e ctx
        pc := Function.update s.pc t (.executed e) }
  | unlock {t : T} {e : EngineId} (memory : Int) {W : Finset T} : s.pc t = .executed e →
      s.Wakes W → StepCase cfg s { s with
        pool := unlockEngine s.pool e memory
        pc := fun u => if u ∈ W then .signalled else Function.update s.pc t .idle u }

theorem step_cases [DecidableEq T] [Fintype T] {a : Act T C} (h : step cfg s a = some s') :
    StepCase cfg s s' := by
  cases a with
  | lock t ctx memory =>
    simp only [step] at h
    split at h
    · cases h
      exact .lock ctx memory ‹_›
    · cases h
  | spurious t =>
    simp only [step] at h
    split at h
    · cases h
      exact .spurious ‹_›
    · cases h
  | relock t ctx memory =>
    simp only [step] at h
    split at h
    · cases h
      exact .retry ctx memory ‹_›
    · cases h
  | execute t =>
    simp only [step] at h
    split at h
    · rename_i e ht
      cases h
      exact .execute ht
    · cases h
  | cycle t ctx =>
    simp only [step] at h
    split at h
    · rename_i e ht
      cases h
      exact .cycle ctx ht
    · cases h
  | unlock t memory W =>
    simp only [step] at h
    split at h
    · rename_i e ht
      split at h
      · cases h
        exact .unlock memory ht ‹_›
      · cases h
    · cases h

/-! ## Lists, counters and owners -/

theorem Inv.init : Inv cfg (PoolSys.init : PoolSys T C) :=
  ⟨PoolOk.init, fun e => by simp [PoolSys.init, Pool.init, Pc.engine],
    fun t u e h => by simp [PoolSys.init, Pc.engine] at h⟩

theorem Inv.holders (h : Inv cfg s) : Holders cfg s.pool fun t => (s.pc t).engine :=
  ⟨h.pool, h.held, h.unique⟩

theorem Inv.of_holders {eng : T → Option EngineId} (h : Holders cfg s.pool eng)
    (heng : ∀ t, (s.pc t).engine = eng t) : Inv cfg s :=
  ⟨h.pool, fun e => by simp only [heng, h.busy], fun t u e => by simp only [heng]; exact h.unique t u e⟩

theorem Inv.same_owners (h : Inv cfg s) (hp : PoolOk cfg s'.pool) (hb : s'.pool.busy = s.pool.busy)
    (hpc : ∀ u, (s'.pc u).engine = (s.pc u).engine) : Inv cfg s' :=
  .of_holders (h.holders.same hp hb) hpc

theorem Inv.countBlocked (h : Inv cfg s) : Inv cfg { s with pool := countBlocked s.pool } :=
  h.same_owners (countBlocked_ok h.pool) rfl fun _ => rfl

variable [DecidableEq T]

theorem Inv.leave (h : Inv cfg s) {t : T} (ht : (s.pc t).engine = none)
    {r : Option EngineId × Pool C} (hr : LockCase cfg s.pool r) : Inv cfg (s.leave t r) := by
  refine .of_holders (h.holders.take ht hr) fun u => ?_
  by_cases hu : u = t
  · subst hu
    cases h1 : r.1 <;> simp [PoolSys.leave, h1, Pc.engine]
  · simp [PoolSys.leave, hu]

theorem engine_update {pc : T → Pc} {t : T} {x : Pc} (hx : x.engine = (pc t).engine) (u : T) :
    (Function.update pc t x u).engine = (pc u).engine := by
  by_cases hu : u = t
  · subst hu; simpa using hx
  · simp [hu]

theorem Inv.unlock (h : Inv cfg s) {t : T} {e : EngineId} (ht : s.pc t = .executed e)
    (memory : Int) {W : Finset T} (hW : s.Wakes W) :
    Inv cfg { s with
      pool := unlockEngine s.pool e memory
      pc := fun u => if u ∈ W then .signalled else Function.update s.pc t .idle u } := by
  have hte : (s.pc t).engine = some e := by rw [ht]; rfl
  refine .of_holders (h.holders.give hte memory) fun u => ?_
  show Pc.engine (if u ∈ W then .signalled else Function.update s.pc t .idle u) = _
  by_cases hut : u = t
  · subst hut
    have : u ∉ W := fun hu => by rw [hW.1 u hu] at ht; cases ht
    simp [this, Pc.engine]
  · by_cases hu : u ∈ W
    · simp [hu, hut, hW.1 u hu, Pc.engine]
    · simp [hu, hut]

variable [Fintype T]

theorem Inv.step (h : Inv cfg s) {a : Act T C} (hs : Script.step cfg s a = some s') :
    Inv cfg s' := by
  cases step_cases hs with
  | lock ctx memory ht => exact h.leave (by rw [ht]; rfl) (lockEngine_cases h.pool.nodup ctx memory)
  | @retry t ctx memory ht =>
    refine h.countBlocked.leave ?_ (lockEngine_cases h.countBlocked.pool.nodup ctx memory)
    show (s.pc t).engine = none
    rcases ht with ht | ht <;> rw [ht] <;> rfl
  | spurious ht => exact h.same_owners h.pool rfl (engine_update (by rw [ht]; rfl))
  | execute ht => exact h.same_owners h.pool rfl (engine_update (by rw [ht]; rfl))
  | cycle ctx ht =>
    exact h.same_owners (cycleEngine_ok h.pool _ ctx) rfl (engine_update (by rw [ht]; rfl))
  | unlock memory ht hW => exact h.unlock ht memory hW

theorem Inv.reach {tr : List (Act T C)} (h : exec (Script.step cfg) .init tr = some s) : Inv cfg s :=
  exec_inv' (fun _ _ _ hi hs => hi.step hs) Inv.init h

end VmodCfg.Script
