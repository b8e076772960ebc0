import VmodCfg.Lib.Monitor
import VmodCfg.Script.PoolThreads

/-!
# The engine pool as a monitor

`engines.cond` with the engine pool behind it is a monitor (`Mon`): the units are
the free engines and the room for new ones. `step_mon` is the refinement, and the
counting invariant of monitors carries over to the pool.
-/

namespace VmodCfg.Script

open Machine

def Pc.waiter : Pc → Waiter
  | .sleeping => .asleep
  | .signalled => .signalled
  | .woken => .awake
  | _ => .out

def PoolSys.mon {T C : Type*} (cfg : PoolCfg) (s : PoolSys T C) : Mon T :=
  ⟨s.pool.capacity cfg, fun t => (s.pc t).waiter⟩

variable {T C : Type*} {cfg : PoolCfg} {s s' : PoolSys T C}

theorem mon_init [Fintype T] : (PoolSys.mon cfg (.init : PoolSys T C)).NoLostWakeup := by
  rintro ⟨t, ht⟩
  cases ht

variable [DecidableEq T]

theorem mon_silent (hcap : s'.pool.capacity cfg = s.pool.capacity cfg)
    (hpc : ∀ u, (s'.pc u).waiter = (s.pc u).waiter) : Mon.Step (s.mon cfg) (s'.mon cfg) := by
  have hm : s'.mon cfg = s.mon cfg := by simp only [PoolSys.mon, hcap, hpc]
  rw [hm]
  exact .silent

theorem waiter_update {pc : T → Pc} {t : T} {x : Pc} (hx : x.waiter = (pc t).waiter) (u : T) :
    (Function.update pc t x u).waiter = (pc u).waiter := by
  by_cases hu : u = t
  · subst hu; simpa using hx
  · simp [hu]

theorem mon_leave (h : Inv cfg s) {t : T} (ht : (s.pc t).waiter ≠ .asleep)
    {r : Option EngineId × Pool C} (hr : LockCase cfg s.pool r) :
    Mon.Step (s.mon cfg) ((s.leave t r).mon cfg) := by
  have hst : ∀ x : Pc, (fun u => (Function.update s.pc t x u).waiter) =
      Function.update (s.mon cfg).st t x.waiter := fun x =>
    Function.comp_update Pc.waiter s.pc t x
  unfold PoolSys.leave
  cases he : r.1 with
  | none =>
    obtain ⟨h0, h1⟩ := hr.capacity_none h.pool he
    have hm : PoolSys.mon cfg { s with pool := r.2, pc := Function.update s.pc t .sleeping } =
        ⟨0, Function.update (s.mon cfg).st t .asleep⟩ := by
      simp only [PoolSys.mon, h1]
      exact congrArg _ (hst .sleeping)
    rw [hm]
    exact .sleep ht h0
  | some e =>
    have hcap := hr.capacity_some h.pool he
    have hm : PoolSys.mon cfg { s with pool := r.2, pc := Function.update s.pc t (.locked e) } =
        ⟨r.2.capacity cfg, Function.update (s.mon cfg).st t .out⟩ := by
      simp only [PoolSys.mon]
      exact congrArg _ (hst (.locked e))
    rw [hm]
    exact .take ht hcap

theorem mon_unlock {t : T} {e : EngineId} (ht : s.pc t = .executed e) (memory : Int) {W : Finset T}
    (hW : s.Wakes W) :
    Mon.Step (s.mon cfg) (PoolSys.mon cfg { s with
      pool := unlockEngine s.pool e memory
      pc := fun u => if u ∈ W then .signalled else Function.update s.pc t .idle u }) := by
  have hst : ∀ u, (s.mon cfg).st u = .asleep ↔ s.pc u = .sleeping := fun u => by
    show (s.pc u).waiter = _ ↔ _
    cases s.pc u <;> simp [Pc.waiter]
  have hm : PoolSys.mon cfg { s with
        pool := unlockEngine s.pool e memory
        pc := fun u => if u ∈ W then .signalled else Function.update s.pc t .idle u } =
      ⟨(s.mon cfg).cap + 1, fun u => if u ∈ W then .signalled else (s.mon cfg).st u⟩ := by
    simp only [PoolSys.mon, Mon.mk.injEq]
    refine ⟨by simp [Pool.capacity, unlockEngine]; omega, funext fun u => ?_⟩
    by_cases hu : u ∈ W
    · simp [hu, Pc.waiter]
    · simp only [hu, if_false]
      exact waiter_update (by rw [ht]; rfl) u
  rw [hm]
  refine .release (fun u hu => (hst u).2 (hW.1 u hu)) fun hsleep => ?_
  obtain ⟨u, hu⟩ := hsleep
  exact hW.2 ⟨u, (hst u).1 hu⟩

variable [Fintype T]

/-- **Refinement**: every action on the pool is a step of the monitor. -/
theorem step_mon (h : Inv cfg s) {a : Act T C} (hs : Script.step cfg s a = some s') :
    Mon.Step (s.mon cfg) (s'.mon cfg) := by
  cases step_cases hs with
  | lock ctx memory ht =>
    exact mon_leave h (by rw [ht]; decide) (lockEngine_cases h.pool.nodup ctx memory)
  | @retry t ctx memory ht =>
    refine mon_leave (s := { s with pool := countBlocked s.pool }) h.countBlocked (t := t) ?_
      (lockEngine_cases h.countBlocked.pool.nodup ctx memory)
    show (s.pc t).waiter ≠ _
    rcases ht with ht | ht <;> rw [ht] <;> decide
  | @spurious t ht =>
    have hm : PoolSys.mon cfg { s with pc := Function.update s.pc t .woken } =
        { s.mon cfg with st := Function.update (s.mon cfg).st t .awake } := by
      simp only [PoolSys.mon]
      exact congrArg _ (Function.comp_update Pc.waiter s.pc t .woken)
    rw [hm]
    exact .spurious (by simp [PoolSys.mon, ht, Pc.waiter])
  | @execute t e ht =>
    have hpc : ∀ u, (Function.update s.pc t (.executing e) u).waiter = (s.pc u).waiter :=
      waiter_update (by rw [ht]; rfl)
    exact mon_silent rfl hpc
  | @cycle t e ctx ht =>
    have hpc : ∀ u, (Function.update s.pc t (.executed e) u).waiter = (s.pc u).waiter :=
      waiter_update (by rw [ht]; rfl)
    exact mon_silent rfl hpc
  | unlock memory ht hW => exact mon_unlock ht memory hW

/-- **No lost wakeup in the pool**: while a thread sleeps on `engines.cond` unsignalled, the free
engines and the spare room are covered by threads that were signalled and are not back yet. -/
theorem sleeper_has_no_unclaimed_engine {tr : List (Act T C)}
    (h : exec (Script.step cfg) .init tr = some s) (hsleep : ∃ t, s.pc t = .sleeping) :
    s.pool.free.length + (cfg.maxEngines - s.pool.n) ≤
      (Finset.univ.filter fun t => s.pc t = .signalled).card := by
  have hinv : Inv cfg s ∧ (s.mon cfg).NoLostWakeup :=
    exec_inv' (I := fun s => Inv cfg s ∧ (s.mon cfg).NoLostWakeup)
      (fun _ _ _ hi hs => ⟨hi.1.step hs, hi.2.step (step_mon hi.1 hs)⟩) ⟨Inv.init, mon_init⟩ h
  obtain ⟨t, ht⟩ := hsleep
  have hcap : s.pool.capacity cfg ≤ (s.mon cfg).pending.card :=
    hinv.2 ⟨t, by simp [PoolSys.mon, ht, Pc.waiter]⟩
  have hpend : (s.mon cfg).pending = Finset.univ.filter fun t => s.pc t = .signalled := by
    ext u
    rw [Mon.mem_pending, Finset.mem_filter]
    show (s.pc u).waiter = _ ↔ _
    cases s.pc u <;> simp [Pc.waiter]
  rwa [hpend] at hcap

/-- One engine, three threads: the release signals thread 1 and leaves thread 2 asleep. -/
def twoSleepers : List (Act (Fin 3) Unit) :=
  [.lock 0 () 0, .lock 1 () 0, .lock 2 () 0, .execute 0, .cycle 0 (), .unlock 0 0 {1}]

theorem sleeper_has_no_unclaimed_engine_two_sleepers :
    ∃ s : PoolSys (Fin 3) Unit, exec (Script.step ⟨1, 0⟩) .init twoSleepers = some s ∧
      s.pc 2 = .sleeping ∧ s.pool.free.length + (1 - s.pool.n) ≤
        (Finset.univ.filter fun t => s.pc t = .signalled).card := by
  have hrun : ((exec (Script.step ⟨1, 0⟩) .init twoSleepers).map fun s => s.pc 2) =
      some .sleeping := by decide
  obtain ⟨s, hs, h2⟩ := Option.map_eq_some_iff.mp hrun
  exact ⟨s, hs, h2, sleeper_has_no_unclaimed_engine hs ⟨2, h2⟩⟩

end VmodCfg.Script
