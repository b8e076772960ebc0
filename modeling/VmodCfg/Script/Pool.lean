import Mathlib.Data.List.Nodup
import Mathlib.Logic.Function.Basic
import Mathlib.Tactic.Tauto

/-!
# The engine pool of a script object

`engine_t`, the `engines` and `stats` parts of `vmod_cfg_script->state`, and the
critical sections of `lock_engine` and `unlock_engine` (script_helpers.c). The
interpreter inside an engine (`ctx`) is a type parameter. Engines are heap
objects: the two lists hold addresses, `heap` what they point to.

`extractFree_spec` and `lockEngine_cases` say everything the section of
`lock_engine` can do; no later proof unfolds the loop.
-/

namespace VmodCfg.Script

abbrev EngineId := Nat

structure Engine (C : Type*) where
  ctx : C
  ncycles : UInt32
  memory : Int
  deriving DecidableEq, Repr

structure PoolCfg where
  maxEngines : Nat
  maxCycles : UInt32
  deriving DecidableEq, Repr

structure Stats where
  enginesTotal : UInt64 := 0
  enginesDroppedCycles : UInt64 := 0
  workersBlocked : UInt64 := 0
  executionsTotal : UInt64 := 0
  executionsUnknown : UInt64 := 0
  executionsFailed : UInt64 := 0
  executionsGc : UInt64 := 0
  deriving DecidableEq, Repr

/-- `script->state.engines` and `script->state.stats`; `fresh` is the next address handed out. -/
structure Pool (C : Type*) where
  n : Nat
  free : List EngineId
  busy : List EngineId
  heap : EngineId → Option (Engine C)
  fresh : EngineId
  stats : Stats

section Defs

variable {C : Type*} (cfg : PoolCfg) (p : Pool C)

def Pool.init : Pool C := ⟨0, [], [], fun _ => none, 0, {}⟩

def Pool.ncycles (e : EngineId) : UInt32 :=
  match p.heap e with
  | some x => x.ncycles
  | none => 0

def Pool.Expired (e : EngineId) : Prop := 0 < cfg.maxCycles ∧ cfg.maxCycles ≤ p.ncycles e

instance (e : EngineId) : Decidable (p.Expired cfg e) := inferInstanceAs (Decidable (_ ∧ _))

def isValidEngine (e : EngineId) : Bool × Pool C :=
  if p.Expired cfg e then
    (false, { p with stats :=
      { p.stats with enginesDroppedCycles := p.stats.enginesDroppedCycles + 1 } })
  else (true, p)

/-- `free_engine`, after the engine left the lists. -/
def freeEngine (e : EngineId) : Pool C := { p with heap := Function.update p.heap e none }

/-- The loop of `lock_engine` over `engines.free`: engines are moved to `busy` one by one,
expired ones are dropped, and the first valid one is the result. -/
def extractFree : List EngineId → Pool C → Option EngineId × Pool C
  | [], p => (none, p)
  | e :: rest, p =>
    match isValidEngine cfg { p with free := rest, busy := p.busy ++ [e] } e with
    | (false, q) => extractFree rest (freeEngine { q with busy := q.busy.erase e, n := q.n - 1 } e)
    | (true, q) => (some e, q)

/-- `api.new_engine` and the bookkeeping around it; `ctx` and `memory` are what the interpreter's
`new_context` and `get_engine_used_memory` give. -/
def createEngine (ctx : C) (memory : Int) : Option EngineId × Pool C :=
  (some p.fresh,
    { p with
      heap := Function.update p.heap p.fresh (some ⟨ctx, 0, memory⟩)
      fresh := p.fresh + 1
      stats := { p.stats with enginesTotal := p.stats.enginesTotal + 1 }
      busy := p.busy ++ [p.fresh]
      n := p.n + 1 })

/-- `lock_engine` from `retry:` up to `Lck_CondWait` (no engine) or `Lck_Unlock` (an engine). -/
def lockEngine (ctx : C) (memory : Int) : Option EngineId × Pool C :=
  match extractFree cfg p.free p with
  | (some e, q) => (some e, q)
  | (none, q) => if cfg.maxEngines ≤ q.n then (none, q) else createEngine q ctx memory

/-- `workers.blocked++` after `Lck_CondWait` came back. -/
def countBlocked : Pool C :=
  { p with stats := { p.stats with workersBlocked := p.stats.workersBlocked + 1 } }

/-- The lists of `unlock_engine`, with `engine->memory` refreshed. -/
def unlockEngine (e : EngineId) (memory : Int) : Pool C :=
  { p with
    heap := Function.update p.heap e ((p.heap e).map fun x => { x with memory := memory })
    busy := p.busy.erase e
    free := p.free ++ [e] }

/-- `engine->ncycles++` at the end of `execute_lua` and `execute_javascript`; `ctx` is the
interpreter as the execution left it. -/
def cycleEngine (e : EngineId) (ctx : C) : Pool C :=
  { p with
    heap := Function.update p.heap e
      ((p.heap e).map fun x => { x with ctx := ctx, ncycles := x.ncycles + 1 }) }

/-- Units that a thread could claim: free engines and room to create new ones. -/
def Pool.capacity : Nat := p.free.length + (cfg.maxEngines - p.n)

end Defs

variable {C : Type*} {cfg : PoolCfg} {p q : Pool C}

/-! ## What the section of `lock_engine` can do -/

/-- The loop dropped `d` and ended with the result `r`. -/
structure Extracted (cfg : PoolCfg) (p : Pool C) (d : List EngineId) (r : Option EngineId)
    (q : Pool C) : Prop where
  free : p.free = d ++ (r.toList ++ q.free)
  busy : q.busy = p.busy ++ r.toList
  n : q.n = p.n - d.length
  stats : q.stats = { p.stats with
    enginesDroppedCycles := p.stats.enginesDroppedCycles + UInt64.ofNat d.length }
  heap : ∀ e, q.heap e = if e ∈ d then none else p.heap e
  fresh : q.fresh = p.fresh
  expired : ∀ e ∈ d, p.Expired cfg e
  valid : ∀ e ∈ r, ¬ p.Expired cfg e
  drained : r = none → q.free = []

theorem extractFree_spec (cfg : PoolCfg) : ∀ (l : List EngineId) (p : Pool C), p.free = l →
    (l ++ p.busy).Nodup → ∃ d, Extracted cfg p d (extractFree cfg l p).1 (extractFree cfg l p).2
  | [], p, hl, _ => ⟨[], by
      constructor <;> simp [extractFree, hl]⟩
  | e :: rest, p, hl, hnd => by
    have he : e ∉ p.busy := fun h =>
      (List.nodup_append.mp hnd).2.2 e List.mem_cons_self e h rfl
    have her : e ∉ rest := (List.nodup_cons.mp (List.nodup_append.mp hnd).1).1
    by_cases hx : p.Expired cfg e
    · -- the engine is dropped: the loop goes on with the rest of the list
      have hbusy : (p.busy ++ [e]).erase e = p.busy := by
        rw [List.erase_append_right _ he]; simp
      let q := freeEngine { p with
        free := rest
        n := p.n - 1
        stats := { p.stats with enginesDroppedCycles := p.stats.enginesDroppedCycles + 1 } } e
      have hstep : extractFree cfg (e :: rest) p = extractFree cfg rest q := by
        have hx' : Pool.Expired cfg { p with free := rest, busy := p.busy ++ [e] } e := hx
        simp only [extractFree, isValidEngine, hx', if_true, hbusy]
        rfl
      obtain ⟨d, hd⟩ := extractFree_spec cfg rest q rfl (by
        show (rest ++ p.busy).Nodup
        exact (List.nodup_cons.mp hnd).2)
      have hq : ∀ x, x ≠ e → (Pool.Expired cfg q x ↔ p.Expired cfg x) := fun x hne => by
        simp [Pool.Expired, Pool.ncycles, q, freeEngine, hne]
      have hfree : rest = d ++ ((extractFree cfg rest q).1.toList ++ (extractFree cfg rest q).2.free) :=
        hd.free
      rw [hstep]
      refine ⟨e :: d, ⟨?_, hd.busy, ?_, ?_, ?_, hd.fresh, ?_, ?_, hd.drained⟩⟩
      · rw [hl, List.cons_append, ← hfree]
      · rw [hd.n]
        show p.n - 1 - d.length = p.n - (d.length + 1)
        omega
      · rw [hd.stats]
        show { p.stats with enginesDroppedCycles :=
          p.stats.enginesDroppedCycles + 1 + UInt64.ofNat d.length } = _
        rw [List.length_cons, Nat.add_comm d.length 1, UInt64.ofNat_add, ← UInt64.add_assoc]
        rfl
      · intro x
        rw [hd.heap]
        by_cases hxe : x = e
        · subst hxe; simp [q, freeEngine]
        · simp [q, freeEngine, hxe]
      · intro x hxd
        rcases List.mem_cons.mp hxd with rfl | hxd
        · exact hx
        · have hne : x ≠ e := fun h => her (by rw [hfree, ← h]; simp [hxd])
          exact (hq x hne).1 (hd.expired x hxd)
      · intro x hxr
        have hne : x ≠ e := fun h => her (by
          rw [hfree, ← h]; simp [Option.mem_toList.mpr hxr])
        exact fun h => hd.valid x hxr ((hq x hne).2 h)
    · -- the engine is valid: it is the result, already in `busy`
      have hx' : ¬ Pool.Expired cfg { p with free := rest, busy := p.busy ++ [e] } e := hx
      refine ⟨[], ?_⟩
      simp only [extractFree, isValidEngine, hx', if_false]
      constructor <;> simp [hl, hx]

/-- Everything `lock_engine` can do in one section: it drops expired engines `d`, and then takes
a free engine, creates one, or has to wait. -/
inductive LockCase (cfg : PoolCfg) (p : Pool C) : Option EngineId × Pool C → Prop where
  | reuse {d : List EngineId} {e : EngineId} {q : Pool C} :
      Extracted cfg p d (some e) q → LockCase cfg p (some e, q)
  | create {d : List EngineId} {q : Pool C} {ctx : C} {memory : Int} :
      Extracted cfg p d none q → q.n < cfg.maxEngines → LockCase cfg p (createEngine q ctx memory)
  | wait {d : List EngineId} {q : Pool C} :
      Extracted cfg p d none q → cfg.maxEngines ≤ q.n → LockCase cfg p (none, q)

theorem lockEngine_cases (hnd : (p.free ++ p.busy).Nodup) (ctx : C) (memory : Int) :
    LockCase cfg p (lockEngine cfg p ctx memory) := by
  obtain ⟨d, hd⟩ := extractFree_spec cfg p.free p rfl hnd
  unfold lockEngine
  split
  · rename_i e q heq
    rw [heq] at hd
    exact .reuse hd
  · rename_i q heq
    rw [heq] at hd
    split
    · exact .wait hd ‹_›
    · exact .create hd (by omega)

/-! ## The invariant of a pool -/

/-- What holds of a pool outside the mutex, the threads left aside. -/
structure PoolOk (cfg : PoolCfg) (p : Pool C) : Prop where
  nodup : (p.free ++ p.busy).Nodup
  count : p.n = p.free.length + p.busy.length
  bound : p.n ≤ cfg.maxEngines
  live : ∀ e, (p.heap e).isSome ↔ e ∈ p.free ++ p.busy
  old : ∀ e ∈ p.free ++ p.busy, e < p.fresh
  created : p.stats.enginesTotal = UInt64.ofNat p.n + p.stats.enginesDroppedCycles

theorem PoolOk.init : PoolOk cfg (Pool.init : Pool C) := by
  constructor <;> simp [Pool.init]

section Extracted

variable {d : List EngineId} {r : Option EngineId}

theorem Extracted.mem (h : Extracted cfg p d r q) (hnd : (p.free ++ p.busy).Nodup) (e : EngineId) :
    e ∈ q.free ++ q.busy ↔ e ∈ p.free ++ p.busy ∧ e ∉ d := by
  rw [h.free] at hnd ⊢
  rw [h.busy]
  grind

theorem Extracted.nodup (h : Extracted cfg p d r q) (hnd : (p.free ++ p.busy).Nodup) :
    (q.free ++ q.busy).Nodup := by
  rw [h.free] at hnd
  rw [h.busy]
  cases r <;> simp only [Option.toList_none, Option.toList_some] at * <;> grind

theorem Extracted.ok (h : Extracted cfg p d r q) (hp : PoolOk cfg p) : PoolOk cfg q := by
  have hlen : p.free.length = d.length + (r.toList.length + q.free.length) := by
    rw [h.free]; simp
  have hbusy : q.busy.length = p.busy.length + r.toList.length := by rw [h.busy]; simp
  have hcount := hp.count
  have hn := h.n
  refine ⟨h.nodup hp.nodup, by omega, by have := hp.bound; omega, fun e => ?_, fun e he => ?_, ?_⟩
  · rw [h.mem hp.nodup, h.heap, ← hp.live]
    by_cases hd : e ∈ d <;> simp [hd]
  · rw [h.fresh]
    exact hp.old e ((h.mem hp.nodup e).1 he).1
  · rw [h.stats]
    show p.stats.enginesTotal =
      UInt64.ofNat q.n + (p.stats.enginesDroppedCycles + UInt64.ofNat d.length)
    rw [hp.created, show p.n = q.n + d.length by omega, UInt64.ofNat_add]
    ac_rfl

theorem Extracted.not_busy {e : EngineId} (h : Extracted cfg p d (some e) q)
    (hp : PoolOk cfg p) : e ∉ p.busy := fun he =>
  (List.nodup_append.mp hp.nodup).2.2 e (by rw [h.free]; simp) e he rfl

end Extracted

theorem createEngine_ok (hp : PoolOk cfg p) (hn : p.n < cfg.maxEngines) (ctx : C) (memory : Int) :
    PoolOk cfg (createEngine p ctx memory).2 := by
  have hnew : p.fresh ∉ p.free ++ p.busy := fun h => Nat.lt_irrefl _ (hp.old _ h)
  have hcount := hp.count
  refine ⟨?_, ?_, hn, fun e => ?_, fun e he => ?_, ?_⟩
  · have hnd := hp.nodup
    simp only [createEngine]
    grind
  · simp [createEngine, hcount, Nat.add_assoc]
  · have hl := hp.live e
    by_cases he : e = p.fresh
    · subst he; simp [createEngine]
    · simpa [createEngine, he] using hl
  · have ho := hp.old e
    simp only [createEngine, List.mem_append, List.mem_singleton] at he ho ⊢
    rcases he with he | he | rfl
    · exact Nat.lt_succ_of_lt (ho (.inl he))
    · exact Nat.lt_succ_of_lt (ho (.inr he))
    · exact Nat.lt_succ_self _
  · show p.stats.enginesTotal + 1 = UInt64.ofNat (p.n + 1) + p.stats.enginesDroppedCycles
    rw [hp.created, UInt64.ofNat_add]
    show _ = UInt64.ofNat p.n + 1 + p.stats.enginesDroppedCycles
    ac_rfl

theorem LockCase.ok {r : Option EngineId × Pool C} (h : LockCase cfg p r) (hp : PoolOk cfg p) :
    PoolOk cfg r.2 := by
  cases h with
  | reuse hx => exact hx.ok hp
  | create hx hn => exact createEngine_ok (hx.ok hp) hn _ _
  | wait hx _ => exact hx.ok hp

theorem LockCase.busy {r : Option EngineId × Pool C} (h : LockCase cfg p r) :
    r.2.busy = p.busy ++ r.1.toList := by
  cases h with
  | reuse hx => exact hx.busy
  | create hx _ => simp [createEngine, hx.busy]
  | wait hx _ => exact hx.busy

theorem LockCase.not_busy {r : Option EngineId × Pool C} {e : EngineId} (h : LockCase cfg p r)
    (hp : PoolOk cfg p) (he : r.1 = some e) : e ∉ p.busy := by
  cases h with
  | reuse hx =>
    cases he
    exact hx.not_busy hp
  | create hx _ =>
    cases he
    rw [hx.fresh]
    exact fun h => Nat.lt_irrefl _ (hp.old _ (List.mem_append_right _ h))
  | wait => cases he

/-- A thread that gets an engine takes one unit of capacity. -/
theorem LockCase.capacity_some {r : Option EngineId × Pool C} {e : EngineId}
    (h : LockCase cfg p r) (hp : PoolOk cfg p) (he : r.1 = some e) :
    p.capacity cfg = r.2.capacity cfg + 1 := by
  have hcount := hp.count
  have hbound := hp.bound
  cases h with
  | reuse hx =>
    have hn := hx.n
    have hlen := congrArg List.length hx.free
    simp only [List.length_append, Option.toList_some, List.length_singleton] at hlen
    simp only [Pool.capacity]
    omega
  | create hx hlt =>
    have hn := hx.n
    have hlen := congrArg List.length hx.free
    simp only [List.length_append, Option.toList_none, List.length_nil, hx.drained rfl] at hlen
    simp only [Pool.capacity, createEngine, hx.drained rfl, List.length_nil]
    omega
  | wait => cases he

/-- A thread only waits when there is no capacity, and then nothing was dropped. -/
theorem LockCase.capacity_none {r : Option EngineId × Pool C} (h : LockCase cfg p r)
    (hp : PoolOk cfg p) (he : r.1 = none) : p.capacity cfg = 0 ∧ r.2.capacity cfg = 0 := by
  have hcount := hp.count
  have hbound := hp.bound
  cases h with
  | reuse => cases he
  | create => cases he
  | wait hx hle =>
    have hn := hx.n
    have hlen := congrArg List.length hx.free
    simp only [List.length_append, Option.toList_none, List.length_nil, hx.drained rfl] at hlen
    simp only [Pool.capacity, hx.drained rfl, List.length_nil]
    omega

/-- The section leaves alone the engines it finds busy and those it leaves free. -/
theorem LockCase.heap {r : Option EngineId × Pool C} {e : EngineId} (h : LockCase cfg p r)
    (hp : PoolOk cfg p) (he : e ∈ r.2.free ++ p.busy) : r.2.heap e = p.heap e := by
  have hkeep : ∀ {d r' q}, Extracted cfg p d r' q → e ∈ q.free ++ p.busy →
      q.heap e = p.heap e := fun {d r' q} hx he => by
    have hnd := hp.nodup
    rw [hx.free] at hnd
    rw [hx.heap, if_neg (by grind)]
  cases h with
  | reuse hx => exact hkeep hx he
  | @create d q ctx memory hx _ =>
    have hold : e ∈ p.free ++ p.busy := by
      rw [hx.free]
      simp only [createEngine, List.mem_append] at he ⊢
      tauto
    have hne : e ≠ q.fresh := by
      rw [hx.fresh]
      exact Nat.ne_of_lt (hp.old e hold)
    simp only [createEngine, Function.update_of_ne hne]
    exact hkeep hx he
  | wait hx _ => exact hkeep hx he

theorem LockCase.free {r : Option EngineId × Pool C} {e : EngineId} (h : LockCase cfg p r)
    (he : e ∈ r.2.free) : e ∈ p.free := by
  cases h with
  | reuse hx => rw [hx.free]; simp [he]
  | create hx _ => rw [hx.free]; exact List.mem_append_right _ (List.mem_append_right _ he)
  | wait hx _ => rw [hx.free]; simp [he]

theorem LockCase.fresh {r : Option EngineId × Pool C} (h : LockCase cfg p r) :
    p.fresh ≤ r.2.fresh := by
  cases h with
  | reuse hx => exact Nat.le_of_eq hx.fresh.symm
  | create hx _ => exact Nat.le_succ_of_le (Nat.le_of_eq hx.fresh.symm)
  | wait hx _ => exact Nat.le_of_eq hx.fresh.symm

/-- The engine a thread gets is a free one that did not expire, or a new one. -/
theorem LockCase.result {r : Option EngineId × Pool C} {e : EngineId} (h : LockCase cfg p r)
    (hp : PoolOk cfg p) (he : r.1 = some e) :
    (e ∈ p.free ∧ ¬ p.Expired cfg e ∧ r.2.ncycles e = p.ncycles e) ∨
      (e = p.fresh ∧ r.2.ncycles e = 0) := by
  cases h with
  | reuse hx =>
    cases he
    have hnd := hp.nodup
    rw [hx.free] at hnd
    refine .inl ⟨by rw [hx.free]; simp, hx.valid _ rfl, ?_⟩
    simp only [Pool.ncycles]
    rw [hx.heap, if_neg (by grind)]
  | create hx _ =>
    cases he
    exact .inr ⟨hx.fresh, by simp [Pool.ncycles, createEngine]⟩
  | wait => cases he

theorem countBlocked_ok (hp : PoolOk cfg p) : PoolOk cfg (countBlocked p) :=
  ⟨hp.nodup, hp.count, hp.bound, hp.live, hp.old, hp.created⟩

theorem unlockEngine_ok {e : EngineId} (hp : PoolOk cfg p) (he : e ∈ p.busy) (memory : Int) :
    PoolOk cfg (unlockEngine p e memory) := by
  have hcount := hp.count
  have hpos := List.length_pos_of_mem he
  have hlen := List.length_erase_of_mem he
  have hperm : (p.free ++ [e] ++ p.busy.erase e).Perm (p.free ++ p.busy) := by
    rw [List.append_assoc]
    exact List.Perm.append_left _ (List.perm_cons_erase he).symm
  refine ⟨hperm.nodup_iff.mpr hp.nodup, ?_, hp.bound, fun x => ?_, fun x hx => ?_, hp.created⟩
  · simp only [unlockEngine, List.length_append, List.length_singleton]
    omega
  · rw [show (unlockEngine p e memory).free ++ (unlockEngine p e memory).busy =
      p.free ++ [e] ++ p.busy.erase e from rfl, hperm.mem_iff, ← hp.live]
    by_cases hxe : x = e
    · subst hxe; simp [unlockEngine]
    · simp [unlockEngine, hxe]
  · exact hp.old x (hperm.mem_iff.mp hx)

theorem cycleEngine_ok (hp : PoolOk cfg p) (e : EngineId) (ctx : C) :
    PoolOk cfg (cycleEngine p e ctx) := by
  refine ⟨hp.nodup, hp.count, hp.bound, fun x => ?_, hp.old, hp.created⟩
  show _ ↔ x ∈ p.free ++ p.busy
  rw [← hp.live]
  by_cases hx : x = e
  · subst hx; simp [cycleEngine]
  · simp [cycleEngine, hx]

/-! ## Holders -/

/-- Threads `T` and the engine that each of them holds: the engines in `busy` are those held, each
by one thread. -/
structure Holders {T : Type*} (cfg : PoolCfg) (p : Pool C) (eng : T → Option EngineId) : Prop where
  pool : PoolOk cfg p
  busy : ∀ e, e ∈ p.busy ↔ ∃ t, eng t = some e
  unique : ∀ t u e, eng t = some e → eng u = some e → t = u

section Holders

variable {T : Type*} {eng : T → Option EngineId}

/-- An engine that the section of `lock_engine` gives to a thread was nobody's. -/
theorem Holders.not_held (h : Holders cfg p eng) {r : Option EngineId × Pool C}
    (hr : LockCase cfg p r) {e : EngineId} (he : r.1 = some e) (u : T) : eng u ≠ some e :=
  fun hu => hr.not_busy h.pool he ((h.busy e).2 ⟨u, hu⟩)

theorem Holders.same (h : Holders cfg p eng) (hq : PoolOk cfg q) (hb : q.busy = p.busy) :
    Holders cfg q eng :=
  ⟨hq, fun e => by rw [hb, h.busy], h.unique⟩

variable [DecidableEq T]

theorem Holders.take (h : Holders cfg p eng) {t : T} (ht : eng t = none)
    {r : Option EngineId × Pool C} (hr : LockCase cfg p r) :
    Holders cfg r.2 (Function.update eng t r.1) := by
  have heng : ∀ u, Function.update eng t r.1 u = if u = t then r.1 else eng u := fun u => by
    by_cases hu : u = t
    · subst hu; simp
    · simp [hu]
  refine ⟨hr.ok h.pool, fun e => ?_, fun u v e hu hv => ?_⟩
  · rw [hr.busy, List.mem_append, Option.mem_toList, h.busy]
    constructor
    · rintro (⟨u, hu⟩ | he)
      · refine ⟨u, ?_⟩
        have hut : u ≠ t := by
          rintro rfl
          rw [ht] at hu
          cases hu
        rw [heng, if_neg hut, hu]
      · exact ⟨t, by rw [heng, if_pos rfl]; exact he⟩
    · rintro ⟨u, hu⟩
      rw [heng] at hu
      split at hu
      · exact .inr hu
      · exact .inl ⟨u, hu⟩
  · rw [heng] at hu hv
    split at hu <;> split at hv
    · subst_vars; rfl
    · exact absurd hv (h.not_held hr hu v)
    · exact absurd hu (h.not_held hr hv u)
    · exact h.unique u v e hu hv

theorem Holders.give (h : Holders cfg p eng) {t : T} {e : EngineId} (ht : eng t = some e)
    (memory : Int) : Holders cfg (unlockEngine p e memory) (Function.update eng t none) := by
  have heb : e ∈ p.busy := (h.busy e).2 ⟨t, ht⟩
  have hnodup : p.busy.Nodup := (List.nodup_append.mp h.pool.nodup).2.1
  have heng : ∀ u x, Function.update eng t none u = some x ↔ u ≠ t ∧ eng u = some x := fun u x => by
    by_cases hu : u = t
    · subst hu; simp
    · simp [hu]
  refine ⟨unlockEngine_ok h.pool heb memory, fun x => ?_, fun u v x hu hv => ?_⟩
  · show x ∈ p.busy.erase e ↔ _
    simp only [hnodup.mem_erase_iff, h.busy, heng]
    constructor
    · rintro ⟨hne, u, hu⟩
      refine ⟨u, ?_, hu⟩
      rintro rfl
      rw [ht] at hu
      exact hne (Option.some.inj hu).symm
    · rintro ⟨u, hut, hu⟩
      refine ⟨?_, u, hu⟩
      rintro rfl
      exact hut (h.unique u t x hu ht)
  · exact h.unique u v x ((heng u x).1 hu).2 ((heng v x).1 hv).2

end Holders

end VmodCfg.Script
