import Mathlib.Logic.Function.Basic

/-!
# Purging the calls of others

Calls of several owners act on one state. `outputs a` lists what the calls of
the owner `a` answer; noninterference says that the list is the same when the
calls of all others are removed from the run.

`outputs_purge` is the unwinding rule for runs under a condition that keeps a
record `γ` of what the others did.
-/

namespace Purge

variable {ι α β σ γ : Type*} [DecidableEq ι]
variable (step : σ → ι → α → β × Option σ)

/-- What the calls of `a` answer; a call that does not return ends the run. -/
def outputs (a : ι) : σ → List (ι × α) → List β
  | _, [] => []
  | s, (i, c) :: cs =>
    let r := step s i c
    let rest := match r.2 with
      | none => []
      | some s' => outputs a s' cs
    if i = a then r.1 :: rest else rest

/-- Every call of the run meets `ok`; `next` brings the record up to date after a call. -/
def Guarded (ok : γ → σ → ι → α → Prop) (next : γ → σ → ι → α → σ → γ) :
    γ → σ → List (ι × α) → Prop
  | _, _, [] => True
  | g, s, (i, c) :: cs => ok g s i c ∧
    match (step s i c).2 with
    | none => True
    | some s' => Guarded ok next (next g s i c s') s' cs

variable {step}

/-- **Unwinding rule**: `R g s t` relates the states of the run and of the purged run. -/
theorem outputs_purge {a : ι} {ok : γ → σ → ι → α → Prop} {next : γ → σ → ι → α → σ → γ}
    {R : γ → σ → σ → Prop}
    (hown : ∀ g s t c, R g s t → ok g s a c → (step s a c).1 = (step t a c).1 ∧
      ((step s a c).2 = none ∧ (step t a c).2 = none ∨
        ∃ s' t', (step s a c).2 = some s' ∧ (step t a c).2 = some t' ∧ R (next g s a c s') s' t'))
    (hother : ∀ g s t i c, i ≠ a → R g s t → ok g s i c →
      ∃ s', (step s i c).2 = some s' ∧ R (next g s i c s') s' t)
    {g : γ} {s t : σ} {cs : List (ι × α)} (hR : R g s t) (hok : Guarded step ok next g s cs) :
    outputs step a s cs = outputs step a t (cs.filter fun x => x.1 = a) := by
  induction cs generalizing g s t with
  | nil => rfl
  | cons x cs ih =>
    obtain ⟨i, c⟩ := x
    obtain ⟨h₁, h₂⟩ := hok
    by_cases hi : i = a
    · subst hi
      obtain ⟨hout, hnext⟩ := hown g s t c hR h₁
      rw [List.filter_cons_of_pos (by simp)]
      simp only [outputs, if_true]
      obtain ⟨hs, ht⟩ | ⟨s', t', hs, ht, hR'⟩ := hnext
      · simp only [hs, ht, hout]
      · simp only [hs] at h₂
        simp only [hs, ht, hout, ih hR' h₂]
    · obtain ⟨s', hs, hR'⟩ := hother g s t i c hi hR h₁
      rw [List.filter_cons_of_neg (by simpa using hi)]
      simp only [hs] at h₂
      simp only [outputs, hi, if_false, hs]
      exact ih hR' h₂

end Purge
