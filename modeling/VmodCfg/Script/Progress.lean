import VmodCfg.Script.LockOrder

/-!
# No deadlock among scripts

Threads wait for the locks of a script object and for its engines. A thread that
sleeps for an engine holds no lock, and the one that waits for the greatest lock
waits for a thread that can run: so whatever the scripts are, some thread goes
on, until none has anything to do.
-/

namespace VmodCfg.Shared

open Locking Machine Script

/-- The thread waits for a call, or for an engine. -/
def Ctl.Rests {K V : Type} (a : Ctl K V) : Prop := a = .idle ∨ ∃ j, a = .sleeping j

/-- An error of an accessor that is called from `post_execute`: it ends the process. -/
def Ctl.aborts {K V : Type} : Ctl K V → Bool
  | .running _ (.raise _) (.accessor _ :: _) => true
  | _ => false

def aborts {T K V R : Type} (s : System T K V R) (t : T) : Bool :=
  match s.prog t with
  | .done a => a.aborts
  | .op .. => false

section Points

variable {K D V R : Type} {cfg : ScriptCfg} {X : Vre R} {L : Lang K D V}

theorem raise_isSome {j : Job} {e : V} {stack : List (Frame K V)}
    (h : Ctl.aborts (.running j (.raise e) stack) = false) : ∃ p, raise (R := R) j e stack = some p := by
  cases stack with
  | nil => exact ⟨_, rfl⟩
  | cons frame stack =>
    cases frame with
    | eval isLocked next => exact ⟨_, rfl⟩
    | protect next => exact ⟨_, rfl⟩
    | accessor rest => cases h

theorem resume_isSome {a : Ctl K V} (hrests : ¬ a.Rests) (haborts : a.aborts = false) :
    ∃ ev p, resume cfg X L a ev = some p := by
  cases a with
  | idle => exact absurd (.inl rfl) hrests
  | sleeping j => exact absurd (.inr ⟨j, rfl⟩) hrests
  | ready j => exact ⟨.lookup true, _, rfl⟩
  | storing j rest => exact ⟨.store true, _, by cases rest <;> rfl⟩
  | finished j success => exact ⟨.finish 0, _, rfl⟩
  | running j c stack =>
    have hroom : ∃ p, interpret (R := R) X L j stack ⟨true, true, true⟩ c = some p := by
      cases c with
      | raise e => exact raise_isSome haborts
      | _ => exact ⟨_, rfl⟩
    obtain ⟨p, hp⟩ := hroom
    exact ⟨.run ⟨true, true, true⟩, p, hp⟩

end Points

section Runs

variable {T K D V R : Type} [DecidableEq T] [Fintype T] (cfg : ScriptCfg) (X : Vre R)
  (L : Lang K D V) {s : System T K V R}

theorem eval_lockEngine (j : Job) (memory : Int) (o : Object R) (l : Local) :
    ((lockEngine cfg j true memory : Proc R (Ctl K V)).eval (o, l)).1 =
      match (Script.lockEngine cfg.pool (countBlocked o.pool) ⟨false⟩ memory).1 with
      | some _ => .ready j
      | none => .sleeping j := by
  show (Prog.eval (match (Script.lockEngine cfg.pool (countBlocked o.pool) ⟨false⟩ memory).1 with
    | some _ => pure (.ready j)
    | none => pure (.sleeping j) : Proc R (Ctl K V)) _).1 = _
  split <;> rfl

/-- When nobody has an engine, a thread that wakes up gets one. -/
theorem wake_gets_engine (hmax : 0 < cfg.pool.maxEngines)
    (hs : Sound s (contract cfg.pool) Point (Inv cfg.pool)) (hheld : ∀ u, s.held u = [])
    (hfree : ∀ u, (s.loc u).engine = none) {t : T} {j : Job} (ht : s.prog t = .done (.sleeping j))
    (memory : Int) :
    ∃ k s', exec (Locking.step (resume cfg X L)) s
      (.input t (.wake memory) :: List.replicate k (.op t)) = some s' ∧
      s'.prog t = .done (.ready j) := by
  obtain ⟨e, he⟩ : ∃ e, (Script.lockEngine cfg.pool (countBlocked s.shared.pool) ⟨false⟩ memory).1 =
      some e := by
    have hpool : PoolOk cfg.pool s.shared.pool := hs.inv.holders.pool
    have hcases : LockCase cfg.pool (countBlocked s.shared.pool) (Script.lockEngine cfg.pool
        (countBlocked s.shared.pool) ⟨false⟩ memory) :=
      lockEngine_cases (p := countBlocked s.shared.pool) hpool.nodup ⟨false⟩ memory
    rw [← Option.ne_none_iff_exists']
    intro hnone
    have hzero := (hcases.capacity_none (countBlocked_ok hpool) hnone).1
    have hbusy : s.shared.pool.busy = [] := by
      refine List.eq_nil_iff_forall_not_mem.mpr fun e he => ?_
      obtain ⟨u, hu⟩ := (hs.inv.holders.busy e).mp he
      rw [hfree u] at hu
      cases hu
    have hcount := hpool.count
    have hbound := hpool.bound
    rw [hbusy] at hcount
    simp only [Pool.capacity, countBlocked, List.length_nil] at hzero hcount
    omega
  have hin : Locking.step (resume cfg X L) s (.input t (.wake memory)) =
      some { s with prog := Function.update s.prog t (Shared.lockEngine cfg j true memory) } := by
    simp only [Locking.step, ht]
    rfl
  obtain ⟨k, s', hex, hend⟩ := (hs.step (verified cfg X L) hin).solo (verified cfg X L)
    (Function.update_self ..) fun u _ => hheld u
  refine ⟨k, s', by rw [exec, hin, Option.bind_some, hex], ?_⟩
  rw [hend, eval_lockEngine, he]

/-- **No deadlock**: in every state that is reached some thread goes on, unless all are idle: it
performs an operation, or goes on from a control point; or all that are not idle sleep, and each
that wakes up gets an engine. -/
theorem no_deadlock (hmax : 0 < cfg.pool.maxEngines) {tr : List (Locking.Act T Event)}
    (hex : exec (Locking.step (resume cfg X L)) System.init tr = some s)
    (habort : ∀ t, aborts s t = false) {t : T} (ht : s.prog t ≠ .done .idle) :
    (∃ u s', Locking.step (resume cfg X L) s (.op u) = some s') ∨
      (∃ u a ev s', s.prog u = .done a ∧ ¬ a.Rests ∧
        Locking.step (resume cfg X L) s (.input u ev) = some s') ∨
      ∃ j, s.prog t = .done (.sleeping j) ∧ ∀ memory, ∃ k s',
        exec (Locking.step (resume cfg X L)) s
          (.input t (.wake memory) :: List.replicate k (.op t)) = some s' ∧
        s'.prog t = .done (.ready j) := by
  have hs := (sound_init cfg).reach (verified cfg X L) hex
  -- a control point where nobody waits
  have hpoint : ∀ u a, s.prog u = .done a → ¬ a.Rests →
      ∃ u a ev s', s.prog u = .done a ∧ ¬ a.Rests ∧
        Locking.step (resume cfg X L) s (.input u ev) = some s' := by
    intro u a hu hrests
    have haborts : a.aborts = false := by
      have h := habort u
      rwa [aborts, hu] at h
    obtain ⟨ev, p, hp⟩ : ∃ ev p, resume cfg X L a ev = some p := resume_isSome hrests haborts
    refine ⟨u, a, ev, { s with prog := Function.update s.prog u p }, hu, hrests, ?_⟩
    simp only [Locking.step, hu, hp, Option.map_some]
  by_cases hop : ∃ u o upd next, s.prog u = .op o upd next
  · obtain ⟨u, o, upd, next, hu⟩ := hop
    rcases hs.exists_enabled hu with ⟨u, o, upd, next, hu, he⟩ | ⟨u, a, hu, hheld⟩
    · exact .inl ⟨u, _, step_op hu he⟩
    · refine .inr (.inl (hpoint u a hu ?_))
      rintro (rfl | ⟨j, rfl⟩)
      · exact hheld (hs.point hu).2
      · exact hheld (hs.point hu).2
  have hdone : ∀ u, ∃ a, s.prog u = .done a := by
    intro u
    cases hu : s.prog u with
    | done a => exact ⟨a, rfl⟩
    | op o upd next => exact absurd ⟨u, o, upd, next, hu⟩ hop
  by_cases hgo : ∃ u a, s.prog u = .done a ∧ ¬ a.Rests
  · obtain ⟨u, a, hu, hrests⟩ := hgo
    exact .inr (.inl (hpoint u a hu hrests))
  -- nobody goes on, so nobody has an engine
  have hrests : ∀ u, (s.loc u).engine = none ∧ s.held u = [] := by
    intro u
    obtain ⟨a, hu⟩ := hdone u
    have hpoint := hs.point hu
    rcases not_not.mp fun h => hgo ⟨u, a, hu, h⟩ with rfl | ⟨j, rfl⟩
    · exact hpoint
    · exact hpoint
  obtain ⟨a, ha⟩ := hdone t
  rcases not_not.mp fun h => hgo ⟨t, a, ha, h⟩ with rfl | ⟨j, rfl⟩
  · exact absurd ha ht
  · exact .inr (.inr ⟨j, ha, wake_gets_engine cfg X L hmax hs (fun u => (hrests u).2)
      (fun u => (hrests u).1) ha⟩)

end Runs

/-- While a script is in `eval`, another thread waits for the lock of the variables. -/
theorem no_deadlock_nested : nestedState.prog 1 ≠ .done .idle ∧
    ((∃ u s', Locking.step (resume nestedCfg nestedVre nestedLang) nestedState (.op u) = some s') ∨
      (∃ u a ev s', nestedState.prog u = .done a ∧ ¬ a.Rests ∧
        Locking.step (resume nestedCfg nestedVre nestedLang) nestedState (.input u ev) = some s') ∨
      ∃ j, nestedState.prog 1 = .done (.sleeping j) ∧ ∀ memory, ∃ k s',
        exec (Locking.step (resume nestedCfg nestedVre nestedLang)) nestedState
          (.input 1 (.wake memory) :: List.replicate k (.op 1)) = some s' ∧
        s'.prog 1 = .done (.ready j)) := by
  have hbusy : nestedState.prog 1 ≠ .done .idle := by
    intro h
    have hop : (match nestedState.prog 1 with
      | .op .. => true
      | .done _ => false) = true := by decide
    rw [h] at hop
    cases hop
  exact ⟨hbusy, no_deadlock nestedCfg nestedVre nestedLang (by decide)
    (Option.some_get nestedTrace_runs).symm (by decide) hbusy⟩

end VmodCfg.Shared
