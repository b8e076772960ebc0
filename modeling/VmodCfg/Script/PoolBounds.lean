import VmodCfg.Script.PoolThreads

/-!
# Bounds on the engines of a pool

When `max_cycles` is set, the executions that an engine started are what its
`ncycles` counter says (plus the one in progress), and no engine starts more
than `max_cycles` of them: `lock_engine` hands out an engine only below the
limit, and the holder runs it once.
-/

namespace VmodCfg.Script

open Machine

section Defs

variable {T C : Type*} (cfg : PoolCfg) (s : PoolSys T C)

/-- The state of the counter of an engine, as its list or its holder knows it. -/
def CyclesOk : Pc → Prop
  | .locked e => s.runs e = (s.pool.ncycles e).toNat ∧ s.pool.ncycles e < cfg.maxCycles
  | .executing e => s.runs e = (s.pool.ncycles e).toNat + 1 ∧ s.pool.ncycles e < cfg.maxCycles
  | .executed e => s.runs e = (s.pool.ncycles e).toNat
  | _ => True

/-- What holds of the execution counters when engines expire. -/
structure CycleInv : Prop where
  fresh : ∀ e, s.pool.fresh ≤ e → s.runs e = 0
  bound : ∀ e, s.runs e ≤ cfg.maxCycles.toNat
  free : ∀ e ∈ s.pool.free, s.runs e = (s.pool.ncycles e).toNat
  threads : ∀ t, CyclesOk cfg s (s.pc t)

end Defs

variable {T C : Type*} {cfg : PoolCfg} {s s' : PoolSys T C}

theorem ncycles_congr {p q : Pool C} {e : EngineId} (h : q.heap e = p.heap e) :
    q.ncycles e = p.ncycles e := by
  simp only [Pool.ncycles, h]

theorem CyclesOk.congr {x : Pc} (h : CyclesOk cfg s x)
    (hsame : ∀ e, x.engine = some e → s'.runs e = s.runs e ∧ s'.pool.ncycles e = s.pool.ncycles e) :
    CyclesOk cfg s' x := by
  cases x with
  | locked e =>
    obtain ⟨h1, h2⟩ := hsame e rfl
    simp only [CyclesOk, h1, h2]
    exact h
  | executing e =>
    obtain ⟨h1, h2⟩ := hsame e rfl
    simp only [CyclesOk, h1, h2]
    exact h
  | executed e =>
    obtain ⟨h1, h2⟩ := hsame e rfl
    simp only [CyclesOk, h1, h2]
    exact h
  | _ => trivial

theorem CycleInv.init : CycleInv cfg (PoolSys.init : PoolSys T C) :=
  ⟨fun _ _ => rfl, fun _ => Nat.zero_le _, fun e he => by simp [PoolSys.init, Pool.init] at he,
    fun _ => trivial⟩

theorem ncycles_cycle {e : EngineId} {ctx : C} (he : (s.pool.heap e).isSome) :
    (cycleEngine s.pool e ctx).ncycles e = s.pool.ncycles e + 1 := by
  obtain ⟨x, hx⟩ := Option.isSome_iff_exists.mp he
  simp [Pool.ncycles, cycleEngine, hx]

theorem ncycles_unlockEngine {p : Pool C} (e : EngineId) (memory : Int) (x : EngineId) :
    (unlockEngine p e memory).ncycles x = p.ncycles x := by
  by_cases hx : x = e
  · subst hx
    cases hh : p.heap x <;> simp [Pool.ncycles, unlockEngine, hh]
  · exact ncycles_congr (by simp [unlockEngine, hx])

variable [DecidableEq T]

theorem CycleInv.leave (hc : CycleInv cfg s) (h : Inv cfg s) (hm : 0 < cfg.maxCycles) {t : T}
    {r : Option EngineId × Pool C} (hr : LockCase cfg s.pool r) : CycleInv cfg (s.leave t r) := by
  refine ⟨fun e he => hc.fresh e (hr.fresh.trans he), hc.bound, fun e he => ?_, fun u => ?_⟩
  · show s.runs e = (r.2.ncycles e).toNat
    rw [ncycles_congr (hr.heap h.pool (List.mem_append_left _ he))]
    exact hc.free e (hr.free he)
  · by_cases hut : u = t
    · subst hut
      simp only [PoolSys.leave, Function.update_self]
      cases he : r.1 with
      | none => trivial
      | some e =>
        show s.runs e = (r.2.ncycles e).toNat ∧ r.2.ncycles e < cfg.maxCycles
        rcases hr.result h.pool he with ⟨hf, hx, hn⟩ | ⟨rfl, hn⟩
        · rw [hn]
          refine ⟨hc.free e hf, ?_⟩
          simp only [Pool.Expired, not_and, UInt32.not_le] at hx
          exact hx hm
        · rw [hn]
          exact ⟨hc.fresh _ (Nat.le_refl _), hm⟩
    · have hu : (s.leave t r).pc u = s.pc u := by simp [PoolSys.leave, hut]
      rw [hu]
      refine (hc.threads u).congr fun e he => ⟨rfl, ncycles_congr (hr.heap h.pool ?_)⟩
      exact List.mem_append_right _ ((h.held e).2 ⟨u, he⟩)

/-- A step of the holder of `e` that touches the counters of `e` only. -/
theorem CycleInv.own (hc : CycleInv cfg s) (h : Inv cfg s) {t : T} {e : EngineId} {x : Pc}
    (ht : (s.pc t).engine = some e) (hpc : s'.pc = Function.update s.pc t x)
    (hfree : s'.pool.free = s.pool.free) (hfresh : s'.pool.fresh = s.pool.fresh)
    (hother : ∀ e', e' ≠ e → s'.runs e' = s.runs e' ∧ s'.pool.ncycles e' = s.pool.ncycles e')
    (hle : s'.runs e ≤ cfg.maxCycles.toNat) (hx : CyclesOk cfg s' x) : CycleInv cfg s' := by
  have heb : e ∈ s.pool.busy := (h.held e).2 ⟨t, ht⟩
  refine ⟨fun e' he' => ?_, fun e' => ?_, fun e' he' => ?_, fun u => ?_⟩
  · have hlt := h.pool.old e (List.mem_append_right _ heb)
    rw [hfresh] at he'
    have hne : e' ≠ e := Nat.ne_of_gt (Nat.lt_of_lt_of_le hlt he')
    rw [(hother e' hne).1]
    exact hc.fresh e' he'
  · by_cases hne : e' = e
    · subst hne; exact hle
    · rw [(hother e' hne).1]; exact hc.bound e'
  · rw [hfree] at he'
    have hne : e' ≠ e := (List.nodup_append.mp h.pool.nodup).2.2 e' he' e heb
    rw [(hother e' hne).1, (hother e' hne).2]
    exact hc.free e' he'
  · rw [hpc]
    by_cases hut : u = t
    · subst hut; simpa using hx
    · rw [Function.update_of_ne hut]
      refine (hc.threads u).congr fun e' he' => hother e' ?_
      rintro rfl
      exact hut (h.unique u t e' he' ht)

variable [Fintype T]

theorem CycleInv.step (hc : CycleInv cfg s) (h : Inv cfg s) (hm : 0 < cfg.maxCycles) {a : Act T C}
    (hs : Script.step cfg s a = some s') : CycleInv cfg s' := by
  cases step_cases hs with
  | lock ctx memory _ => exact hc.leave h hm (lockEngine_cases h.pool.nodup ctx memory)
  | retry ctx memory _ =>
    have hc' : CycleInv cfg { s with pool := countBlocked s.pool } :=
      ⟨hc.fresh, hc.bound, hc.free, fun u => (hc.threads u).congr fun _ _ => ⟨rfl, rfl⟩⟩
    exact hc'.leave h.countBlocked hm (lockEngine_cases h.countBlocked.pool.nodup ctx memory)
  | @spurious t _ =>
    refine ⟨hc.fresh, hc.bound, hc.free, fun u => ?_⟩
    by_cases hut : u = t
    · subst hut; simp [CyclesOk]
    · simp only [Function.update_of_ne hut]
      exact (hc.threads u).congr fun _ _ => ⟨rfl, rfl⟩
  | @execute t e ht =>
    have hok : CyclesOk cfg s (.locked e) := ht ▸ hc.threads t
    have hlt := UInt32.lt_iff_toNat_lt.mp hok.2
    refine hc.own h (by rw [ht]; rfl) rfl rfl rfl (fun e' hne => ⟨by simp [hne], rfl⟩) ?_ ?_
    · simp only [Function.update_self]
      have := hok.1
      omega
    · refine ⟨?_, hok.2⟩
      simp only [Function.update_self]
      rw [hok.1]
  | @cycle t e ctx ht =>
    have hok : CyclesOk cfg s (.executing e) := ht ▸ hc.threads t
    have hte : (s.pc t).engine = some e := by rw [ht]; rfl
    have hlive := (h.pool.live e).2 (List.mem_append_right _ ((h.held e).2 ⟨t, hte⟩))
    refine hc.own h hte rfl rfl rfl (fun e' hne => ⟨rfl, ?_⟩) (hc.bound e) ?_
    · exact ncycles_congr (by simp [cycleEngine, hne])
    · show s.runs e = ((cycleEngine s.pool e ctx).ncycles e).toNat
      -- the counter does not wrap: it was below `max_cycles`
      have hlt := UInt32.lt_iff_toNat_lt.mp hok.2
      have hmax := cfg.maxCycles.toNat_lt
      rw [ncycles_cycle hlive, UInt32.toNat_add, hok.1]
      simp only [UInt32.toNat_one]
      omega
  | @unlock t e memory W ht _ =>
    have hok : CyclesOk cfg s (.executed e) := ht ▸ hc.threads t
    refine ⟨hc.fresh, hc.bound, fun x hx => ?_, fun u => ?_⟩
    · show s.runs x = ((unlockEngine s.pool e memory).ncycles x).toNat
      rw [ncycles_unlockEngine]
      rcases List.mem_append.mp hx with hx | hx
      · exact hc.free x hx
      · rw [List.mem_singleton.mp hx]; exact hok
    · by_cases hu : u ∈ W
      · simp [hu, CyclesOk]
      · simp only [hu, if_false]
        by_cases hut : u = t
        · subst hut; simp [CyclesOk]
        · simp only [Function.update_of_ne hut]
          exact (hc.threads u).congr fun x _ => ⟨rfl, ncycles_unlockEngine e memory x⟩

theorem CycleInv.reach (hm : 0 < cfg.maxCycles) {tr : List (Act T C)}
    (h : exec (Script.step cfg) .init tr = some s) : CycleInv cfg s :=
  (exec_inv' (I := fun s => Inv cfg s ∧ CycleInv cfg s)
    (fun _ _ _ hi hs => ⟨hi.1.step hs, hi.2.step hi.1 hm hs⟩) ⟨Inv.init, CycleInv.init⟩ h).2

/-- **The engine pool invariant**, in every state between critical sections. -/
theorem engine_pool_invariant {tr : List (Act T C)}
    (h : exec (Script.step cfg) .init tr = some s) :
    (s.pool.n = s.pool.free.length + s.pool.busy.length ∧ s.pool.n ≤ cfg.maxEngines) ∧
    ((s.pool.free ++ s.pool.busy).Nodup ∧
      ∀ e, (s.pool.heap e).isSome ↔ e ∈ s.pool.free ∨ e ∈ s.pool.busy) ∧
    ((∀ t u e, (s.pc t).engine = some e → (s.pc u).engine = some e → t = u) ∧
      ∀ e, e ∈ s.pool.busy ↔ ∃ t, (s.pc t).engine = some e) ∧
    s.pool.stats.enginesTotal =
      UInt64.ofNat s.pool.n + s.pool.stats.enginesDroppedCycles ∧
    (0 < cfg.maxCycles → ∀ e, s.runs e ≤ cfg.maxCycles.toNat) := by
  have hi := Inv.reach h
  refine ⟨⟨hi.pool.count, hi.pool.bound⟩, ⟨hi.pool.nodup, fun e => ?_⟩, ⟨hi.unique, hi.held⟩,
    hi.pool.created, fun hm => (CycleInv.reach hm h).bound⟩
  rw [hi.pool.live, List.mem_append]

/-- One engine and one execution each: the sleeper drops the expired engine and creates its own. -/
def expireAndRetry : List (Act (Fin 2) Unit) :=
  [.lock 0 () 0, .lock 1 () 0, .execute 0, .cycle 0 (), .unlock 0 0 {1}, .relock 1 () 0, .execute 1]

theorem engine_pool_invariant_expire_and_retry :
    ∃ s : PoolSys (Fin 2) Unit, exec (Script.step ⟨1, 1⟩) .init expireAndRetry = some s ∧
      s.pool.busy = [1] ∧ s.pool.n = s.pool.free.length + s.pool.busy.length ∧
      s.pool.stats.enginesTotal =
        UInt64.ofNat s.pool.n + s.pool.stats.enginesDroppedCycles ∧ ∀ e, s.runs e ≤ 1 := by
  have hrun : ((exec (Script.step ⟨1, 1⟩) .init expireAndRetry).map fun s => s.pool.busy) =
      some [1] := by decide
  obtain ⟨s, hs, hb⟩ := Option.map_eq_some_iff.mp hrun
  obtain ⟨⟨hn, -⟩, -, -, hst, hr⟩ := engine_pool_invariant hs
  exact ⟨s, hs, hb, hn, hst, hr (by decide)⟩

end VmodCfg.Script
