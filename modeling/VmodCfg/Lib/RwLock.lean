import Mathlib.Data.Fintype.Basic
import VmodCfg.Lib.Locking

/-!
# One read-write lock

`hold t` is how thread `t` holds the lock, if it does. `Free` is what a request waits for, and
`Excluded` what it gives: who holds the lock for writing holds it alone.
-/

namespace RwLock

open Locking

variable {T : Type*} (hold : T → Option Mode)

/-- A request in the mode can be met. -/
def Free (m : Mode) : Prop := ∀ u, hold u = none ∨ hold u = some .read ∧ m = .read

instance [Fintype T] (m : Mode) : Decidable (Free hold m) :=
  inferInstanceAs (Decidable (∀ _, _ ∨ _ ∧ _))

def Excluded : Prop := ∀ t u, t ≠ u → hold t = some .write → hold u = none

variable {hold}

theorem excluded_init : Excluded fun _ : T => none := fun _ _ _ h => by cases h

variable [DecidableEq T]

/-- A thread keeps its hold, gives it up, or takes the lock when it is free. -/
theorem Excluded.update (h : Excluded hold) {t : T} {x : Option Mode}
    (hx : x = hold t ∨ x = none ∨ ∃ m, x = some m ∧ Free hold m) :
    Excluded (Function.update hold t x) := by
  intro u v huv hu
  by_cases hut : u = t
  · subst hut
    rw [Function.update_self] at hu
    rw [Function.update_of_ne huv.symm]
    rcases hx with hx | hx | ⟨m, hx, hfree⟩
    · exact h u v huv (hx ▸ hu)
    · rw [hx] at hu
      cases hu
    · rcases hfree v with hv | ⟨-, hm⟩
      · exact hv
      · rw [hx, hm] at hu
        cases hu
  · rw [Function.update_of_ne hut] at hu
    by_cases hvt : v = t
    · subst hvt
      rw [Function.update_self]
      rcases hx with hx | hx | ⟨m, hx, hfree⟩
      · exact hx.trans (h u v huv hu)
      · exact hx
      · rcases hfree u with hu' | ⟨hu', -⟩ <;> rw [hu] at hu' <;> cases hu'
    · rw [Function.update_of_ne hvt]
      exact h u v huv hu

end RwLock
