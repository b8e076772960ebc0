import Mathlib.Logic.Basic

/-!
# Arenas: allocations that remember what was freed

An arena is the memory of one kind of object. `alloc` gives a reference no
earlier allocation has, `free` marks a cell dead and keeps what it held, so
that a statement can speak of the object a dangling reference once pointed to.
-/

structure Cell (α : Type*) where
  val : α
  live : Bool
  deriving DecidableEq

abbrev Ref := Nat

/-- The cells, in order of allocation. -/
structure Arena (α : Type*) where
  cells : List (Cell α)

namespace Arena

variable {α : Type*} (a : Arena α) {x : α} {r q : Ref}

def size : Nat := a.cells.length

/-- What `r` was allocated with. -/
def val? (r : Ref) : Option α := a.cells[r]?.map Cell.val

/-- `r` is allocated and not freed. -/
def Live (r : Ref) : Prop := (a.cells[r]?.map Cell.live) = some true

instance (r : Ref) : Decidable (a.Live r) := inferInstanceAs (Decidable (_ = _))

/-- `r` was allocated, and freed. -/
def Dead (r : Ref) : Prop := r < a.size ∧ ¬ a.Live r

def alloc (x : α) : Arena α := ⟨a.cells ++ [⟨x, true⟩]⟩

def free (r : Ref) : Arena α := ⟨a.cells.modify r fun c => { c with live := false }⟩

/-- `free` of a pointer that may be NULL. -/
def free? : Option Ref → Arena α
  | none => a
  | some r => a.free r

/-! ## Allocation -/

@[simp] theorem size_alloc : (a.alloc x).size = a.size + 1 := by
  simp [size, alloc]

@[simp] theorem val?_alloc_self : (a.alloc x).val? a.size = some x := by
  simp [val?, alloc, size]

theorem val?_alloc_of_lt (h : r < a.size) : (a.alloc x).val? r = a.val? r := by
  simp only [val?, alloc]
  rw [List.getElem?_append_left h]

theorem val?_isSome : (a.val? r).isSome ↔ r < a.size := by
  simp [val?, size]

theorem val?_lt (h : a.val? r = some x) : r < a.size :=
  a.val?_isSome.1 (by rw [h]; rfl)

theorem val?_alloc (h : a.val? r = some x) {y : α} : (a.alloc y).val? r = some x := by
  rw [val?_alloc_of_lt a (a.val?_lt h), h]

@[simp] theorem live_alloc_self : (a.alloc x).Live a.size := by
  simp [Live, alloc, size]

theorem Live.lt {a : Arena α} (h : a.Live r) : r < a.size := by
  apply Nat.lt_of_not_le
  intro hr
  rw [Live, List.getElem?_eq_none hr] at h
  cases h

theorem live_alloc_of_lt (h : r < a.size) : (a.alloc x).Live r ↔ a.Live r := by
  simp only [Live, alloc]
  rw [List.getElem?_append_left h]

theorem Live.alloc {a : Arena α} (h : a.Live r) : (a.alloc x).Live r :=
  (a.live_alloc_of_lt h.lt).2 h

/-! ## Release -/

@[simp] theorem size_free : (a.free r).size = a.size := by
  simp [size, free]

@[simp] theorem val?_free (q : Ref) : (a.free r).val? q = a.val? q := by
  simp only [val?, free, List.getElem?_modify]
  cases h : a.cells[q]? <;> by_cases hq : r = q <;> simp [hq]

theorem live_free_ne (h : q ≠ r) : (a.free r).Live q ↔ a.Live q := by
  simp only [Live, free, List.getElem?_modify]
  cases a.cells[q]? <;> simp [Ne.symm h]

theorem Live.free {a : Arena α} (hq : a.Live q) (h : q ≠ r) : (a.free r).Live q :=
  (a.live_free_ne h).2 hq

theorem Live.of_free {a : Arena α} (h : (a.free r).Live q) : a.Live q ∧ q ≠ r := by
  have hne : q ≠ r := by
    rintro rfl
    simp only [Live, Arena.free, List.getElem?_modify] at h
    cases hq : a.cells[q]? <;> simp [hq] at h
  exact ⟨(a.live_free_ne hne).1 h, hne⟩

@[simp] theorem size_free? (o : Option Ref) : (a.free? o).size = a.size := by
  cases o <;> simp [free?]

@[simp] theorem val?_free? (o : Option Ref) (q : Ref) : (a.free? o).val? q = a.val? q := by
  cases o <;> simp [free?]

theorem Live.free? {a : Arena α} (hq : a.Live q) {o : Option Ref} (h : o ≠ some q) :
    (a.free? o).Live q := by
  cases o with
  | none => exact hq
  | some r => exact Live.free hq fun e => h (by rw [e])

/-! ## What was freed stays so -/

theorem Dead.alloc {a : Arena α} (h : a.Dead r) : (a.alloc x).Dead r := by
  refine ⟨?_, fun hl => h.2 ((a.live_alloc_of_lt h.1).1 hl)⟩
  rw [size_alloc]
  exact Nat.lt_succ_of_lt h.1

theorem Dead.free {a : Arena α} (h : a.Dead r) : (a.free q).Dead r :=
  ⟨Nat.lt_of_lt_of_eq h.1 a.size_free.symm, fun hl => h.2 hl.of_free.1⟩

theorem Dead.free? {a : Arena α} (h : a.Dead r) {o : Option Ref} : (a.free? o).Dead r := by
  cases o with
  | none => exact h
  | some q => exact h.free

theorem Live.dead_free {a : Arena α} (h : a.Live r) : (a.free r).Dead r :=
  ⟨Nat.lt_of_lt_of_eq h.lt a.size_free.symm, fun hl => hl.of_free.2 rfl⟩

end Arena
