import Mathlib.Algebra.BigOperators.Group.Finset.Basic
import VmodCfg.Lib.Machine

/-!
# Atomic objects

An object with a sequential specification `run`, used by any number of threads: a call takes
effect in one atomic step between its invocation and its return. A concurrent implementation is
linearizable if every run of it can be followed by a run of the atomic object with the same
invocations and returns. Where the calls add up, `exec_sum` says what they add up to.
-/

namespace Atomic

open Machine

variable {T M C A : Type*}

inductive Status (C A : Type*) where
  | idle
  | called (c : C)
  | done (ans : A)
  deriving DecidableEq

structure Obj (T M C A : Type*) where
  state : M
  thr : T → Status C A

/-- What is seen from outside. -/
inductive Event (T C A : Type*) where
  | call (t : T) (c : C)
  | ret (t : T) (ans : A)
  deriving DecidableEq

inductive Act (T C A : Type*) where
  | event (e : Event T C A)
  | effect (t : T)

def Act.event? : Act T C A → Option (Event T C A)
  | .event e => some e
  | .effect _ => none

def Obj.init (m : M) : Obj T M C A := ⟨m, fun _ => .idle⟩

variable [DecidableEq T] [DecidableEq A] (run : T → M → C → M × A)

def Obj.set (x : Obj T M C A) (t : T) (st : Status C A) : Obj T M C A :=
  { x with thr := Function.update x.thr t st }

def step (x : Obj T M C A) : Act T C A → Option (Obj T M C A)
  | .event (.call t c) =>
    match x.thr t with
    | .idle => some (x.set t (.called c))
    | _ => none
  | .effect t =>
    match x.thr t with
    | .called c => some { x.set t (.done (run t x.state c).2) with state := (run t x.state c).1 }
    | _ => none
  | .event (.ret t ans) =>
    match x.thr t with
    | .done ans' => if ans = ans' then some (x.set t .idle) else none
    | _ => none

variable {run} {x : Obj T M C A} {t : T}

theorem exec_call {c : C} (h : x.thr t = .idle) :
    exec (step run) x [.event (.call t c)] = some (x.set t (.called c)) := by
  simp [exec, step, h]

theorem exec_effect {c : C} (h : x.thr t = .called c) :
    exec (step run) x [.effect t] =
      some { x.set t (.done (run t x.state c).2) with state := (run t x.state c).1 } := by
  simp [exec, step, h]

theorem exec_ret {ans : A} (h : x.thr t = .done ans) :
    exec (step run) x [.event (.ret t ans)] = some (x.set t .idle) := by
  simp [exec, step, h]

/-! ## Objects that add up what they are called with -/

section Sums

variable {T M A : Type*} [AddCommMonoid M]

/-- What a call is going to add. -/
def Status.pending : Status M A → M
  | .called c => c
  | _ => 0

@[simp] theorem pending_idle : (.idle : Status M A).pending = 0 := rfl

@[simp] theorem pending_called (c : M) : (.called c : Status M A).pending = c := rfl

@[simp] theorem pending_done (ans : A) : (.done ans : Status M A).pending = 0 := rfl

def Event.amount : Event T M A → M
  | .call _ c => c
  | .ret .. => 0

variable [Fintype T] [DecidableEq T] [DecidableEq A] {run : T → M → M → M × A}
  {x x' : Obj T M M A}

omit [DecidableEq A] in
theorem sum_pending_set (x : Obj T M M A) (t : T) (st : Status M A) :
    ∑ u, ((x.set t st).thr u).pending + (x.thr t).pending =
      ∑ u, (x.thr u).pending + st.pending := by
  have hrest : ∑ u ∈ Finset.univ.erase t, ((x.set t st).thr u).pending =
      ∑ u ∈ Finset.univ.erase t, (x.thr u).pending := by
    refine Finset.sum_congr rfl fun u hu => ?_
    simp only [Obj.set, Function.update_of_ne (Finset.ne_of_mem_erase hu)]
  rw [← Finset.add_sum_erase _ _ (Finset.mem_univ t), hrest,
    ← Finset.add_sum_erase _ (fun u => (x.thr u).pending) (Finset.mem_univ t)]
  simp only [Obj.set, Function.update_self]
  ac_rfl

/-- What was called is in the state, or is going to be added. -/
theorem step_sum (hrun : ∀ t m c, (run t m c).1 = m + c) {a : Act T M A}
    (hs : step run x a = some x') :
    x'.state + ∑ t, (x'.thr t).pending =
      x.state + ∑ t, (x.thr t).pending + (a.event?.elim 0 Event.amount) := by
  cases a with
  | event e =>
    cases e with
    | call t c =>
      simp only [step] at hs
      split at hs
      · rename_i ht
        cases hs
        have hsum := sum_pending_set x t (.called c)
        simp only [ht, pending_idle, pending_called, add_zero] at hsum
        show x.state + _ = x.state + _ + c
        rw [add_assoc, ← hsum]
      · cases hs
    | ret t ans =>
      simp only [step] at hs
      split at hs
      · rename_i ans' ht
        split at hs
        · cases hs
          have hsum := sum_pending_set x t .idle
          simp only [ht, pending_idle, pending_done, add_zero] at hsum
          show x.state + _ = x.state + _ + 0
          rw [add_zero, ← hsum]
        · cases hs
      · cases hs
  | effect t =>
    simp only [step] at hs
    split at hs
    · rename_i c ht
      cases hs
      have hsum := sum_pending_set x t (.done (run t x.state c).2)
      simp only [ht, pending_called, pending_done, add_zero] at hsum
      show (run t x.state c).1 + _ = x.state + _ + 0
      rw [hrun, add_zero, add_assoc, ← hsum, add_comm c]
    · cases hs

/-- **Run lemma**: the calls of a run are in the state, or are going to be added. -/
theorem exec_sum (hrun : ∀ t m c, (run t m c).1 = m + c) {tr : List (Act T M A)}
    (hex : exec (step run) x tr = some x') :
    x'.state + ∑ t, (x'.thr t).pending =
      x.state + ∑ t, (x.thr t).pending + ((events Act.event? tr).map Event.amount).sum := by
  induction tr generalizing x with
  | nil =>
    cases hex
    simp [events]
  | cons a tr ih =>
    obtain ⟨x₁, h₁, h₂⟩ := exec_cons_some hex
    rw [ih h₂, step_sum hrun h₁]
    cases ha : a.event? <;> simp [events, ha, add_assoc]

end Sums

end Atomic
