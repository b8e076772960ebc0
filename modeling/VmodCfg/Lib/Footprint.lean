import Mathlib.Algebra.Order.Group.Multiset
import Mathlib.Data.Multiset.Fintype
import Mathlib.Logic.Function.Basic
import Mathlib.Tactic.Abel

/-!
# Programs over memory, with their footprints

The memory holds cells at addresses. A program reads and writes cells through
pointers that may be NULL, and has a register; it fails when it uses a pointer
that is NULL or dangling. `Spec r m x v r' m'` says what `x` does to the cells
`m` when the memory holds them and any others: it ends with `v`, the cells are
`m'` then, and the others are as before. So a specification of a program is one
of every memory that its cells are part of.
-/

namespace Footprint

variable {ρ P C α β : Type}

structure State (ρ P C : Type) where
  reg : ρ
  mem : P → Option C

/-- A program, which may fail. -/
abbrev Prog (ρ P C : Type) := StateT (State ρ P C) Option

def Holds (h : P → Option C) (m : Multiset (P × C)) : Prop :=
  (m.map Prod.fst).Nodup ∧ ∀ p c, h p = some c ↔ (p, c) ∈ m

theorem Holds.not_mem {h : P → Option C} {m : Multiset (P × C)} {p : P} (hm : Holds h m)
    (hp : h p = none) : p ∉ m.map Prod.fst := by
  intro hmem
  obtain ⟨⟨q, c⟩, hc, rfl⟩ := Multiset.mem_map.mp hmem
  rw [(hm.2 q c).mpr hc] at hp
  cases hp

theorem Holds.eq {h h' : P → Option C} {m : Multiset (P × C)} (hm : Holds h m)
    (hm' : Holds h' m) : h' = h := by
  funext p
  refine Option.ext fun c => ?_
  rw [hm.2, hm'.2]

/-! ## The operations -/

def getReg : Prog ρ P C ρ := fun s => some (s.reg, s)

def setReg (r : ρ) : Prog ρ P C Unit := fun s => some ((), { s with reg := r })

def field (p : Option P) (f : C → β) : Prog ρ P C β := fun s =>
  (p.bind s.mem).map fun c => (f c, s)

def update [DecidableEq P] (p : Option P) (f : C → C) : Prog ρ P C Unit := fun s =>
  p.bind fun p => (s.mem p).map fun c => ((), { s with mem := Function.update s.mem p (some (f c)) })

def alloc [DecidableEq P] (p : P) (c : C) : Prog ρ P C Unit := fun s =>
  match s.mem p with
  | none => some ((), { s with mem := Function.update s.mem p (some c) })
  | some _ => none

def free [DecidableEq P] (p : Option P) : Prog ρ P C Unit := fun s =>
  p.bind fun p => (s.mem p).map fun _ => ((), { s with mem := Function.update s.mem p none })

/-! ## Specifications -/

theorem Holds.nodup_cons {h : P → Option C} {m : Multiset (P × C)} {p : P} {c : C}
    (hm : Holds h ({(p, c)} + m)) :
    p ∉ m.map Prod.fst ∧ (m.map Prod.fst).Nodup := by
  have hnd := hm.1
  rwa [Multiset.singleton_add, Multiset.map_cons, Multiset.nodup_cons] at hnd

/-- What the program does to its cells. -/
def Spec (r : ρ) (m : Multiset (P × C)) (x : Prog ρ P C α) (v : α) (r' : ρ)
    (m' : Multiset (P × C)) : Prop :=
  ∀ h F, Holds h (m + F) → ∃ h', x ⟨r, h⟩ = some (v, ⟨r', h'⟩) ∧ Holds h' (m' + F)

namespace Spec

variable {r r₁ r' : ρ} {m m₁ m' F : Multiset (P × C)} {x : Prog ρ P C α} {k : α → Prog ρ P C β}
  {v : α} {w : β}

theorem pure : Spec r m (Pure.pure v : Prog ρ P C α) v r m :=
  fun h _ hm => ⟨h, rfl, hm⟩

theorem bind (hx : Spec r m x v r₁ m₁) (hk : Spec r₁ m₁ (k v) w r' m') :
    Spec r m (x >>= k) w r' m' := by
  intro h F hm
  obtain ⟨h₁, hrun, hm₁⟩ := hx h F hm
  obtain ⟨h₂, hrun₂, hm₂⟩ := hk h₁ F hm₁
  refine ⟨h₂, ?_, hm₂⟩
  show (x ⟨r, h⟩).bind (fun y => k y.1 y.2) = _
  rw [hrun]
  exact hrun₂

/-- **Frame rule**: cells that are not in the footprint stay. -/
theorem frame (hx : Spec r m x v r' m') (F : Multiset (P × C)) :
    Spec r (m + F) x v r' (m' + F) := by
  intro h G hm
  rw [add_assoc] at hm
  obtain ⟨h', hrun, hm'⟩ := hx h (F + G) hm
  exact ⟨h', hrun, by rwa [add_assoc]⟩

theorem call (hx : Spec r m₁ x v r₁ m') (F : Multiset (P × C)) (hm : m = m₁ + F)
    {n : Multiset (P × C)} (hk : Spec r₁ (m' + F) (k v) w r' n) : Spec r m (x >>= k) w r' n :=
  hm ▸ (hx.frame F).bind hk

theorem getReg : Spec r m (Footprint.getReg : Prog ρ P C ρ) r r m :=
  fun h _ hm => ⟨h, rfl, hm⟩

theorem setReg : Spec r m (Footprint.setReg r' : Prog ρ P C Unit) () r' m :=
  fun h _ hm => ⟨h, rfl, hm⟩

theorem field {p : P} {c : C} {f : C → β} (hc : (p, c) ∈ m) :
    Spec r m (Footprint.field (some p) f) (f c) r m := by
  intro h F hm
  have hp : h p = some c := (hm.2 p c).mpr (Multiset.mem_add.mpr (.inl hc))
  exact ⟨h, by simp [Footprint.field, hp], hm⟩

variable [DecidableEq P]

theorem update {p : P} {c : C} {f : C → C} :
    Spec r {(p, c)} (Footprint.update (some p) f) () r {(p, f c)} := by
  intro h F hm
  have hp : h p = some c := (hm.2 p c).mpr (by simp)
  refine ⟨Function.update h p (some (f c)), by simp [Footprint.update, hp], ?_⟩
  obtain ⟨hnot, hnd⟩ := hm.nodup_cons
  refine ⟨by simpa using ⟨by simpa using hnot, hnd⟩, ?_⟩
  intro q d
  rw [Multiset.singleton_add, Multiset.mem_cons]
  by_cases hq : q = p
  · subst hq
    have hmem : ∀ e, (q, e) ∉ F := fun e he => hnot (Multiset.mem_map.mpr ⟨(q, e), he, rfl⟩)
    simp [hmem, eq_comm]
  · rw [Function.update_of_ne hq, hm.2 q d, Multiset.singleton_add, Multiset.mem_cons]
    simp [hq]

theorem alloc {p : P} {c : C} {h : P → Option C} (hm : Holds h m) (hp : h p = none) :
    ∃ h', Footprint.alloc p c ⟨r, h⟩ = some ((), ⟨r, h'⟩) ∧ Holds h' ((p, c) ::ₘ m) := by
  refine ⟨Function.update h p (some c), by simp [Footprint.alloc, hp], ?_⟩
  have hnot := hm.not_mem hp
  refine ⟨by simpa using ⟨by simpa using hnot, hm.1⟩, ?_⟩
  intro q d
  rw [Multiset.mem_cons]
  by_cases hq : q = p
  · subst hq
    have hmem : (q, d) ∉ m := fun hmem => hnot (Multiset.mem_map_of_mem Prod.fst hmem)
    simp [hmem, eq_comm]
  · rw [Function.update_of_ne hq, hm.2 q d]
    simp [hq]

theorem free {p : P} {c : C} : Spec r {(p, c)} (Footprint.free (some p)) () r 0 := by
  intro h F hm
  have hp : h p = some c := (hm.2 p c).mpr (by simp)
  refine ⟨Function.update h p none, by simp [Footprint.free, hp], ?_⟩
  obtain ⟨hnot, hnd⟩ := hm.nodup_cons
  rw [zero_add]
  refine ⟨hnd, ?_⟩
  intro q d
  by_cases hq : q = p
  · subst hq
    have hmem : ∀ e, (q, e) ∉ F := fun e he => hnot (Multiset.mem_map.mpr ⟨(q, e), he, rfl⟩)
    simp [hmem]
  · rw [Function.update_of_ne hq, hm.2 q d, Multiset.singleton_add, Multiset.mem_cons]
    simp [hq]

end Spec

end Footprint
