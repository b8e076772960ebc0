import VmodCfg.Script.Program

/-!
# What the code does to locks, flags and engines

`Effect` lists what an operation of a thread can do to the flags, to the pool
and to the locks of the thread. `Inv` says who holds which engine, and that the
flag of an engine is set while its holder is in `eval`; every effect keeps it.
-/

namespace VmodCfg.Shared

open Locking Machine Script

abbrev Holds := List (Hold Lock Site)

/-! ## The flags of a pool -/

section Flags

variable {p q : Pool Context} {cfg : PoolCfg}

theorem isLocked_setIsLocked (p : Pool Context) (e x : EngineId) (b : Bool) :
    isLocked (setIsLocked p e b) x = if x = e ∧ (p.heap e).isSome then b else isLocked p x := by
  unfold isLocked setIsLocked
  by_cases hx : x = e
  · subst hx
    cases p.heap x <;> simp
  · simp [hx]

theorem setIsLocked_ok (hp : PoolOk cfg p) (e : EngineId) (b : Bool) :
    PoolOk cfg (setIsLocked p e b) := by
  refine ⟨hp.nodup, hp.count, hp.bound, fun x => ?_, hp.old, hp.created⟩
  show _ ↔ x ∈ p.free ++ p.busy
  rw [← hp.live]
  by_cases hx : x = e
  · subst hx; simp [setIsLocked]
  · simp [setIsLocked, hx]

theorem isLocked_lockEngine (hp : PoolOk cfg p) {memory : Int} {e : EngineId}
    (h : isLocked (Script.lockEngine cfg p ⟨false⟩ memory).2 e = true) : isLocked p e = true := by
  obtain ⟨d, hd⟩ := extractFree_spec cfg p.free p rfl hp.nodup
  have hkeep : isLocked (extractFree cfg p.free p).2 e = true → isLocked p e = true := by
    unfold isLocked
    rw [hd.heap]
    by_cases he : e ∈ d <;> simp [he]
  unfold Script.lockEngine at h
  split at h
  · rename_i x q heq
    exact hkeep (by rw [heq]; exact h)
  · rename_i q heq
    rw [heq] at hkeep
    split at h
    · exact hkeep h
    · by_cases he : e = q.fresh
      · subst he
        simp [isLocked, createEngine] at h
      · refine hkeep ?_
        simpa [isLocked, createEngine, he] using h

/-- A change of the pool that concerns no flag and no holder of an engine. -/
structure SamePool (cfg : PoolCfg) (p q : Pool Context) : Prop where
  ok : PoolOk cfg p → PoolOk cfg q
  busy : q.busy = p.busy
  flag : ∀ e, isLocked q e = isLocked p e

theorem SamePool.refl (p : Pool Context) : SamePool cfg p p := ⟨id, rfl, fun _ => rfl⟩

theorem SamePool.updateStats (p : Pool Context) {f : Stats → Stats}
    (hf : ∀ s, (f s).enginesTotal = s.enginesTotal ∧
      (f s).enginesDroppedCycles = s.enginesDroppedCycles) :
    SamePool cfg p { p with stats := f p.stats } := by
  refine ⟨fun hp => ⟨hp.nodup, hp.count, hp.bound, hp.live, hp.old, ?_⟩, rfl, fun _ => rfl⟩
  rw [(hf p.stats).1, (hf p.stats).2]
  exact hp.created

theorem SamePool.cycleEngine (p : Pool Context) (e : EngineId) :
    SamePool cfg p (cycleEngine p e ⟨isLocked p e⟩) := by
  refine ⟨fun hp => cycleEngine_ok hp e _, rfl, fun x => ?_⟩
  unfold isLocked Script.cycleEngine
  by_cases hx : x = e
  · subst hx
    cases p.heap x <;> simp
  · simp [hx]

end Flags

/-! ## Effects -/

/-- What an operation of a thread can do to the object, to the thread and to its locks. -/
inductive Effect {R : Type} (cfg : PoolCfg) (o : Object R) (l : Local) (held : Holds) :
    Object R → Local → Holds → Prop where
  | quiet {o' : Object R} {l' : Local} {held' : Holds} : l'.engine = l.engine →
      SamePool cfg o.pool o'.pool → (evalHold ∈ held' ↔ evalHold ∈ held) →
      Effect cfg o l held o' l' held'
  | enter {e : EngineId} : l.engine = some e →
      Effect cfg o l held { o with pool := setIsLocked o.pool e true } l (evalHold :: held)
  | leave {e : EngineId} {held' : Holds} : l.engine = some e → evalHold ∉ held' →
      Effect cfg o l held { o with pool := setIsLocked o.pool e false } l held'
  | take {p : Pool Context} {memory : Int} : l.engine = none → evalHold ∉ held →
      SamePool cfg o.pool p →
      Effect cfg o l held { o with pool := (Script.lockEngine cfg p ⟨false⟩ memory).2 }
        { l with engine := (Script.lockEngine cfg p ⟨false⟩ memory).1 } held
  | give {e : EngineId} {memory : Int} : l.engine = some e → evalHold ∉ held →
      Effect cfg o l held { o with pool := unlockEngine o.pool e memory }
        { l with engine := none } held

/-- What a thread knows of the object: the flag of its engine tells whether it is in `eval`. -/
structure View {R : Type} (cfg : PoolCfg) (o : Object R) (l : Local) (held : Holds) : Prop where
  pool : PoolOk cfg o.pool
  flag : ∀ e, l.engine = some e → (isLocked o.pool e = true ↔ evalHold ∈ held)

def contract {R : Type} (cfg : PoolCfg) : Contract Lock Site (Object R) Local where
  View := View cfg
  Step := Effect cfg

/-- What holds of an object and of the threads that use it. -/
structure Inv {T R : Type} (cfg : PoolCfg) (o : Object R) (loc : T → Local) (held : T → Holds) :
    Prop where
  holders : Holders cfg o.pool fun t => (loc t).engine
  flag : ∀ e, isLocked o.pool e = true ↔ ∃ t, (loc t).engine = some e ∧ evalHold ∈ held t

section Invariant

variable {T R : Type} {cfg : PoolCfg} {o o' : Object R} {loc : T → Local} {held : T → Holds}

theorem Inv.view (h : Inv cfg o loc held) (t : T) : View cfg o (loc t) (held t) := by
  refine ⟨h.holders.pool, fun e he => (h.flag e).trans ⟨?_, fun ht => ⟨t, he, ht⟩⟩⟩
  rintro ⟨u, hu, hmem⟩
  rwa [h.holders.unique t u e he hu]

variable [DecidableEq T]

theorem engine_update (loc : T → Local) (t : T) (l' : Local) :
    (fun u => (Function.update loc t l' u).engine) =
      Function.update (fun u => (loc u).engine) t l'.engine :=
  funext fun u => Function.apply_update (fun _ l => Local.engine l) loc t l' u

theorem Inv.same_engine (h : Inv cfg o loc held) {t : T} {l' : Local} {held' : Holds}
    (hl : l'.engine = (loc t).engine) (hok : PoolOk cfg o'.pool) (hb : o'.pool.busy = o.pool.busy)
    (hflag : ∀ e, isLocked o'.pool e = true ↔
      if (loc t).engine = some e then evalHold ∈ held' else isLocked o.pool e = true) :
    Inv cfg o' (Function.update loc t l') (Function.update held t held') := by
  have hloc : (fun u => (Function.update loc t l' u).engine) = fun u => (loc u).engine := by
    rw [engine_update, hl]
    exact Function.update_eq_self t _
  refine ⟨by rw [hloc]; exact h.holders.same hok hb, fun e => ?_⟩
  rw [hflag]
  simp only [congrFun hloc]
  split
  · rename_i ht
    constructor
    · exact fun hmem => ⟨t, ht, by simpa using hmem⟩
    · rintro ⟨u, hu, hmem⟩
      rw [h.holders.unique u t e hu ht] at hmem
      simpa using hmem
  · rename_i ht
    rw [h.flag]
    refine exists_congr fun u => and_congr_right fun hu => ?_
    have hut : u ≠ t := by
      rintro rfl
      exact ht hu
    rw [Function.update_of_ne hut]

theorem Inv.quiet (h : Inv cfg o loc held) {t : T} {l' : Local} {held' : Holds}
    (hl : l'.engine = (loc t).engine) (hp : SamePool cfg o.pool o'.pool)
    (hheld : evalHold ∈ held' ↔ evalHold ∈ held t) :
    Inv cfg o' (Function.update loc t l') (Function.update held t held') := by
  apply h.same_engine hl (hp.ok h.holders.pool) hp.busy
  intro e
  rw [hp.flag]
  split
  · rename_i ht
    rw [(h.view t).flag e ht, hheld]
  · exact Iff.rfl

theorem Inv.setIsLocked (h : Inv cfg o loc held) {t : T} {e : EngineId} {held' : Holds} {b : Bool}
    (ht : (loc t).engine = some e) (hheld : evalHold ∈ held' ↔ b = true) :
    Inv cfg { o with pool := setIsLocked o.pool e b } (Function.update loc t (loc t))
      (Function.update held t held') := by
  have hlive : (o.pool.heap e).isSome := (h.holders.pool.live e).2
    (List.mem_append_right _ ((h.holders.busy e).2 ⟨t, ht⟩))
  refine h.same_engine rfl (setIsLocked_ok h.holders.pool e b) rfl fun x => ?_
  rw [isLocked_setIsLocked, ht]
  by_cases hx : x = e
  · subst hx
    simp [hlive, hheld]
  · simp [hx, Ne.symm hx]

theorem Inv.change_engine (h : Inv cfg o loc held) {t : T} {eng : Option EngineId}
    (hh : Holders cfg o'.pool (Function.update (fun u => (loc u).engine) t eng))
    (hheld : evalHold ∉ held t)
    (hmono : ∀ e, isLocked o'.pool e = true → isLocked o.pool e = true)
    (hkeep : ∀ u e, u ≠ t → (loc u).engine = some e → isLocked o.pool e = true →
      isLocked o'.pool e = true) :
    Inv cfg o' (Function.update loc t { loc t with engine := eng })
      (Function.update held t (held t)) := by
  rw [Function.update_eq_self]
  refine ⟨by rw [engine_update]; exact hh, fun e => ⟨fun he => ?_, ?_⟩⟩
  · obtain ⟨u, hu, hmem⟩ := (h.flag e).1 (hmono e he)
    have hut : u ≠ t := by
      rintro rfl
      exact hheld hmem
    exact ⟨u, by rw [Function.update_of_ne hut]; exact hu, hmem⟩
  · rintro ⟨u, hu, hmem⟩
    have hut : u ≠ t := by
      rintro rfl
      exact hheld hmem
    rw [Function.update_of_ne hut] at hu
    exact hkeep u e hut hu ((h.flag e).2 ⟨u, hu, hmem⟩)

theorem Inv.take (h : Inv cfg o loc held) {t : T} (ht : (loc t).engine = none)
    {p : Pool Context} (hp : SamePool cfg o.pool p) (memory : Int) (hheld : evalHold ∉ held t) :
    Inv cfg { o with pool := (Script.lockEngine cfg p ⟨false⟩ memory).2 }
      (Function.update loc t
        { loc t with engine := (Script.lockEngine cfg p ⟨false⟩ memory).1 })
      (Function.update held t (held t)) := by
  have hh := h.holders.same (hp.ok h.holders.pool) hp.busy
  have hr : LockCase cfg p (Script.lockEngine cfg p ⟨false⟩ memory) :=
    lockEngine_cases hh.pool.nodup ⟨false⟩ memory
  refine h.change_engine (hh.take ht hr) hheld (fun e he => ?_) fun u e _ hu he => ?_
  · rw [← hp.flag]
    exact isLocked_lockEngine hh.pool he
  · -- the engine of another thread is busy: the section leaves it alone
    have hbusy : e ∈ p.busy := (hh.busy e).2 ⟨u, hu⟩
    show isLocked _ e = true
    unfold isLocked
    rw [hr.heap hh.pool (List.mem_append_right _ hbusy)]
    exact (hp.flag e).trans he

theorem Inv.give (h : Inv cfg o loc held) {t : T} {e : EngineId} (ht : (loc t).engine = some e)
    (memory : Int) (hheld : evalHold ∉ held t) :
    Inv cfg { o with pool := unlockEngine o.pool e memory }
      (Function.update loc t { loc t with engine := none })
      (Function.update held t (held t)) := by
  have hflag : ∀ x, isLocked (unlockEngine o.pool e memory) x = isLocked o.pool x := fun x => by
    unfold isLocked unlockEngine
    by_cases hx : x = e
    · subst hx
      cases o.pool.heap x <;> simp
    · simp [hx]
  refine h.change_engine (h.holders.give ht memory) hheld (fun x hx => ?_) fun u x _ _ hx => ?_
  · rw [← hflag]
    exact hx
  · exact (hflag x).trans hx

/-- **Every effect keeps the invariant.** -/
theorem Inv.step (h : Inv cfg o loc held) {t : T} {l' : Local} {held' : Holds}
    (he : Effect cfg o (loc t) (held t) o' l' held') :
    Inv cfg o' (Function.update loc t l') (Function.update held t held') := by
  cases he with
  | quiet hl hp hheld => exact h.quiet hl hp hheld
  | enter ht => exact h.setIsLocked ht (by simp)
  | leave ht hheld => exact h.setIsLocked ht (by simpa using hheld)
  | take ht hheld hp => exact h.take ht hp _ hheld
  | give ht hheld => exact h.give ht _ hheld

end Invariant

end VmodCfg.Shared
