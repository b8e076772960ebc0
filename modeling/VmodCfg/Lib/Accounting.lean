import Mathlib.Algebra.BigOperators.Group.Finset.Basic
import VmodCfg.Lib.Locking

/-!
# Counters that any number of threads add to

`Counts s n` says that the counters in the shared state `s` show the tally `n`.
A program `Adds m` when it adds `m` in all, whatever it reads. In every run the
counters show what the inputs were worth, less what the programs that are still
under way have yet to add; so no thread's contribution is lost or made twice.
-/

namespace Locking

open Machine

universe u

section Programs

variable {L S σ τ N : Type*} {A B : Type u} [AddCommMonoid N] (Counts : σ → N → Prop)

def Prog.Adds (m : N) : Prog L S σ τ A → Prop
  | .done _ => m = 0
  | .op _ upd next => ∃ d e, m = d + e ∧
      ∀ x, (∀ n, Counts x.1 n → Counts (upd x).1 (n + d)) ∧ (next x).Adds e

variable {Counts} {m n : N}

theorem adds_pure (a : A) : (pure a : Prog L S σ τ A).Adds Counts 0 := rfl

/-- **Sequencing rule.** -/
theorem Prog.Adds.bind {p : Prog L S σ τ A} {f : A → Prog L S σ τ B} (hp : p.Adds Counts m)
    (hf : ∀ a, (f a).Adds Counts n) : (p >>= f).Adds Counts (m + n) := by
  induction p generalizing m with
  | done a =>
    cases hp
    rw [zero_add]
    exact hf a
  | op o upd next ih =>
    obtain ⟨d, e, rfl, h⟩ := hp
    exact ⟨d, e + n, add_assoc d e n, fun x => ⟨(h x).1, ih x (h x).2⟩⟩

/-- The sequencing rule for a program that adds nothing. -/
theorem Prog.Adds.then {p : Prog L S σ τ A} {f : A → Prog L S σ τ B} (hp : p.Adds Counts 0)
    (hf : ∀ a, (f a).Adds Counts n) : (p >>= f).Adds Counts n := by
  have h := hp.bind hf
  rwa [zero_add] at h

theorem Prog.Adds.ite {c : Prop} [Decidable c] {p q : Prog L S σ τ A} (hp : p.Adds Counts m)
    (hq : q.Adds Counts m) : (if c then p else q).Adds Counts m := by
  split
  · exact hp
  · exact hq

theorem adds_peek {f : σ → τ → A} : (peek f : Prog L S σ τ A).Adds Counts 0 :=
  ⟨0, 0, (add_zero 0).symm, fun x => ⟨fun n h => by rwa [add_zero], rfl⟩⟩

theorem adds_modify {f : σ × τ → σ × τ} (hf : ∀ x n, Counts x.1 n → Counts (f x).1 (n + m)) :
    (modify f : Prog L S σ τ Unit).Adds Counts m :=
  ⟨m, 0, (add_zero m).symm, fun x => ⟨hf x, rfl⟩⟩

theorem Prog.Adds.guarded {h : Hold L S} {p : Prog L S σ τ A} (hp : p.Adds Counts m) :
    (guarded h p).Adds Counts m := by
  have hend : ∀ a, (Prog.op (.release h.lock) id fun _ => .done a : Prog L S σ τ A).Adds Counts 0 :=
    fun a => ⟨0, 0, (add_zero 0).symm, fun x => ⟨fun n h => by rwa [add_zero], rfl⟩⟩
  have hall := hp.bind hend
  rw [add_zero] at hall
  exact ⟨0, m, (zero_add m).symm, fun x => ⟨fun n h => by rwa [add_zero], hall⟩⟩

end Programs

/-! ## The system -/

section System

variable {T L S σ τ A I N : Type*} [AddCommMonoid N] (Counts : σ → N → Prop)
  (weight : A → I → N)

/-- What an action is worth: an input at a control point. -/
def Sys.worth (s : Sys T L S σ τ A) : Act T I → Option N
  | .op _ => none
  | .input t i =>
    match s.prog t with
    | .done a => some (weight a i)
    | .op .. => none

variable [Fintype T]

/-- The counters show a total of which the programs under way have yet to add their part. -/
def Balanced (s : Sys T L S σ τ A) (total : N) : Prop :=
  ∃ (n : N) (owed : T → N), Counts s.shared n ∧ (∀ t, (s.prog t).Adds Counts (owed t)) ∧
    n + ∑ t, owed t = total

variable {Counts weight} {resume : A → I → Option (Prog L S σ τ A)} {s s' : Sys T L S σ τ A}
  {total : N}

/-- At control points nothing is owed. -/
theorem Balanced.counts (h : Balanced Counts s total) (hdone : ∀ t, ∃ a, s.prog t = .done a) :
    Counts s.shared total := by
  obtain ⟨n, owed, hn, howed, rfl⟩ := h
  have hzero : ∀ t, owed t = 0 := by
    intro t
    obtain ⟨a, ha⟩ := hdone t
    have h := howed t
    rwa [ha] at h
  rw [Finset.sum_eq_zero fun t _ => hzero t, add_zero]
  exact hn

variable [LinearOrder L] [DecidableEq T]

theorem sum_update (owed : T → N) (t : T) :
    ∃ others, ∑ u, owed u = owed t + others ∧
      ∀ m, ∑ u, Function.update owed t m u = m + others := by
  refine ⟨_, (Finset.add_sum_erase _ owed (Finset.mem_univ t)).symm, fun m => ?_⟩
  rw [← Finset.add_sum_erase _ _ (Finset.mem_univ t), Function.update_self]
  congr 1
  exact Finset.sum_congr rfl fun u hu => Function.update_of_ne (Finset.ne_of_mem_erase hu) m owed

theorem Balanced.step (hresume : ∀ {a i p}, resume a i = some p → p.Adds Counts (weight a i))
    (h : Balanced Counts s total) {a : Act T I} (hs : Locking.step resume s a = some s') :
    Balanced Counts s' (total + ((s.worth weight a).toList).sum) := by
  obtain ⟨n, owed, hn, howed, rfl⟩ := h
  cases a with
  | op t =>
    simp only [Locking.step] at hs
    split at hs
    · cases hs
    · rename_i o upd next ht
      split at hs
      · cases hs
        -- the operation adds a part of what the thread owes
        have hprog := howed t
        rw [ht] at hprog
        obtain ⟨d, e, hde, hadds⟩ := hprog
        obtain ⟨others, hsum, hupdate⟩ := sum_update owed t
        refine ⟨n + d, Function.update owed t e, (hadds (s.shared, s.loc t)).1 n hn, ?_, ?_⟩
        · intro u
          by_cases hu : u = t
          · subst hu
            simpa only [Sys.perform, Function.update_self] using (hadds (s.shared, s.loc u)).2
          · simpa only [Sys.perform, Function.update_of_ne hu] using howed u
        · rw [hupdate, hsum, hde]
          simp only [Sys.worth, Option.toList_none, List.sum_nil]
          ac_rfl
      · cases hs
  | input t i =>
    simp only [Locking.step] at hs
    split at hs
    · rename_i a ht
      obtain ⟨p, hp, rfl⟩ := Option.map_eq_some_iff.mp hs
      -- the program that begins owes what the input is worth
      have hzero : owed t = 0 := by
        have h := howed t
        rwa [ht] at h
      obtain ⟨others, hsum, hupdate⟩ := sum_update owed t
      refine ⟨n, Function.update owed t (weight a i), hn, ?_, ?_⟩
      · intro u
        by_cases hu : u = t
        · subst hu
          simpa only [Function.update_self] using hresume hp
        · simpa only [Function.update_of_ne hu] using howed u
      · rw [hupdate, hsum, hzero]
        simp only [Sys.worth, ht, Option.toList_some, List.sum_singleton]
        ac_rfl
    · cases hs

/-- **Accounting**: from a state in which no program is under way, the counters show in every state
that is reached what the inputs are worth, less what is still owed. -/
theorem Balanced.reach (hresume : ∀ {a i p}, resume a i = some p → p.Adds Counts (weight a i))
    (h : Balanced Counts s total) {tr : List (Act T I)}
    (hex : exec (Locking.step resume) s tr = some s') :
    Balanced Counts s' (total + (trace (Locking.step resume) (Sys.worth weight) s tr).sum) := by
  induction tr generalizing s total with
  | nil =>
    cases hex
    simpa only [trace, List.sum_nil, add_zero] using h
  | cons a tr ih =>
    obtain ⟨s₁, h₁, h₂⟩ := exec_cons_some hex
    have hend := ih (h.step hresume h₁) h₂
    rw [add_assoc, ← List.sum_append] at hend
    simpa only [trace, h₁] using hend

end System

end Locking
