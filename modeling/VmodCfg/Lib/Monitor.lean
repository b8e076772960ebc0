import Mathlib.Data.Finset.Card
import Mathlib.Data.Fintype.Basic
import Mathlib.Logic.Function.Basic

/-!
# Monitors: units of capacity behind one mutex and one condition variable

`Mon T` is the abstract state of a monitor that hands out units of capacity: how
many are unclaimed, and where each thread of `T` stands with respect to the
condition variable. `Step` is one critical section. A thread only goes to sleep
when nothing is unclaimed; giving a unit back signals, and a signal wakes at
least one sleeper when there is one. `NoLostWakeup` is the counting invariant:
while somebody sleeps unsignalled, the unclaimed capacity is covered by threads
that were signalled and did not get the mutex back yet.
-/

inductive Waiter where
  | out
  | asleep
  | signalled
  | awake
  deriving DecidableEq, Repr

/-- A monitor over `T`: unclaimed units, and the threads. -/
structure Mon (T : Type*) where
  cap : Nat
  st : T → Waiter

namespace Mon

variable {T : Type*} [Fintype T] {m m' : Mon T}

/-- The threads signalled and not yet back in the mutex. -/
def pending (m : Mon T) : Finset T :=
  Finset.univ.filter fun t => m.st t = .signalled

@[simp] theorem mem_pending {t : T} : t ∈ m.pending ↔ m.st t = .signalled := by
  simp [pending]

/-- **No lost wakeup**: a sleeper leaves no more capacity unclaimed than wakeups are pending. -/
def NoLostWakeup (m : Mon T) : Prop :=
  (∃ t, m.st t = .asleep) → m.cap ≤ m.pending.card

variable [DecidableEq T]

/-- One critical section of a thread, or a wakeup without a signal. -/
inductive Step {T : Type*} [DecidableEq T] : Mon T → Mon T → Prop where
  | take {m : Mon T} {t : T} {c : Nat} : m.st t ≠ .asleep → m.cap = c + 1 →
      Step m ⟨c, Function.update m.st t .out⟩
  | sleep {m : Mon T} {t : T} : m.st t ≠ .asleep → m.cap = 0 →
      Step m ⟨0, Function.update m.st t .asleep⟩
  | release {m : Mon T} {W : Finset T} : (∀ t ∈ W, m.st t = .asleep) →
      ((∃ t, m.st t = .asleep) → W.Nonempty) →
      Step m ⟨m.cap + 1, fun t => if t ∈ W then .signalled else m.st t⟩
  | spurious {m : Mon T} {t : T} : m.st t = .asleep →
      Step m { m with st := Function.update m.st t .awake }
  | silent {m : Mon T} : Step m m

/-- Moving one thread loses at most one pending wakeup. -/
theorem pending_update {c : Nat} {t : T} {w : Waiter} :
    m.pending.card ≤ (Mon.pending ⟨c, Function.update m.st t w⟩).card + 1 := by
  have hsub : m.pending.erase t ⊆ Mon.pending ⟨c, Function.update m.st t w⟩ := by
    intro u hu
    obtain ⟨hne, hu⟩ := Finset.mem_erase.mp hu
    simpa [hne] using hu
  have h1 := Finset.card_le_card hsub
  have h2 := Finset.pred_card_le_card_erase (s := m.pending) (a := t)
  omega

theorem pending_update_of_ne {c : Nat} {t : T} {w : Waiter} (ht : m.st t ≠ .signalled) :
    m.pending.card ≤ (Mon.pending ⟨c, Function.update m.st t w⟩).card := by
  apply Finset.card_le_card
  intro u hu
  have hu' := mem_pending.mp hu
  have hne : u ≠ t := by
    rintro rfl
    exact ht hu'
  simpa [hne] using hu'

theorem pending_release {c : Nat} {W : Finset T} (hW : ∀ t ∈ W, m.st t = .asleep) :
    m.pending.card + W.card ≤
      (Mon.pending ⟨c, fun t => if t ∈ W then .signalled else m.st t⟩).card := by
  have hdis : Disjoint m.pending W := by
    apply Finset.disjoint_left.mpr
    intro u hu hw
    rw [mem_pending, hW u hw] at hu
    cases hu
  rw [← Finset.card_union_of_disjoint hdis]
  apply Finset.card_le_card
  intro u hu
  rw [mem_pending]
  by_cases hw : u ∈ W
  · simp [hw]
  · have := (Finset.mem_union.mp hu).resolve_right hw
    simpa [hw] using this

/-- **Step lemma**: every critical section keeps the counting invariant. -/
theorem NoLostWakeup.step (h : m.NoLostWakeup) (hs : Step m m') : m'.NoLostWakeup := by
  cases hs with
  | @take t c hne hc =>
    rintro ⟨u, hu⟩
    have hut : u ≠ t := by
      rintro rfl
      simp at hu
    have h1 := h ⟨u, by simpa [hut] using hu⟩
    have h2 : m.pending.card ≤ (Mon.pending ⟨c, Function.update m.st t .out⟩).card + 1 :=
      pending_update
    show c ≤ _
    omega
  | sleep => exact fun _ => Nat.zero_le _
  | @release W hW hne =>
    rintro ⟨u, hu⟩
    have hu' : m.st u = .asleep := by
      by_cases hw : u ∈ W
      · simp [hw] at hu
      · simpa [hw] using hu
    have h1 := h ⟨u, hu'⟩
    have h2 := pending_release (c := m.cap + 1) hW
    have h3 := (hne ⟨u, hu'⟩).card_pos
    show m.cap + 1 ≤ _
    omega
  | @spurious t ht =>
    rintro ⟨u, hu⟩
    have hut : u ≠ t := by
      rintro rfl
      simp at hu
    have h1 := h ⟨u, by simpa [hut] using hu⟩
    have h2 : m.pending.card ≤ (Mon.pending ⟨m.cap, Function.update m.st t .awake⟩).card :=
      pending_update_of_ne (by rw [ht]; decide)
    exact h1.trans h2
  | silent => exact h

end Mon
