import Mathlib.Algebra.Order.Group.Multiset
import VmodCfg.Lib.Arena
import VmodCfg.Lib.CString

/-!
# Programs over blocks of bytes

The memory is an arena of blocks. A program fails when it uses a block that was
freed, or bytes that are not in a block. `Spec l x Q` says what `x` does when the
blocks `l` are allocated, and any others: it ends, with a result and blocks that
are as `Q` says, and the others are as before.
-/

namespace Blocks

abbrev Block := List UInt8

abbrev Prog := StateT (Arena Block) Option

def Holds (m : Arena Block) (l : Multiset (Ref × Block)) : Prop :=
  (l.map Prod.fst).Nodup ∧ ∀ r b, (m.Live r ∧ m.val? r = some b) ↔ (r, b) ∈ l

def put (m : Arena Block) (r : Ref) (b : Block) : Arena Block :=
  ⟨m.cells.modify r fun c => { c with val := b }⟩

/-! ## The operations -/

def indeterminate (junk : Nat → UInt8) (n : Nat) : Block := (List.range n).map junk

@[simp] theorem length_indeterminate (junk : Nat → UInt8) (n : Nat) :
    (indeterminate junk n).length = n := by
  simp [indeterminate]

def alloc (b : Block) : Prog Ref := fun m => some (m.size, m.alloc b)

def malloc (junk : Nat → UInt8) (n : Nat) : Prog Ref := alloc (indeterminate junk n)

/-- `free`, of a pointer that may be NULL -/
def free : Option Ref → Prog Unit
  | none => pure ()
  | some r => fun m => if m.Live r then some ((), m.free r) else none

def read (r : Ref) : Prog Block := fun m => if m.Live r then (m.val? r).map (·, m) else none

/-- Writes bytes at an offset. -/
def write (r : Ref) (off : Nat) (bytes : Block) : Prog Unit := fun m =>
  (m.val? r).bind fun b =>
    if m.Live r ∧ off + bytes.length ≤ b.length then
      some ((), put m r (b.take off ++ bytes ++ b.drop (off + bytes.length)))
    else none

def realloc (junk : Nat → UInt8) (r : Ref) (n : Nat) : Prog Ref := do
  let b ← read r
  free (some r)
  alloc (b.take n ++ indeterminate junk (n - b.length))

/-- The string in a block; it has to end there. -/
def string (r : Ref) : Prog CString := do
  let b ← read r
  if 0 ∈ b then return .ofBytes b else failure

def strdup (s : CString) : Prog Ref := alloc (s.bytes ++ [0])

/-! ## What the operations do to the memory -/

section Memory

variable {m : Arena Block} {l : Multiset (Ref × Block)} {r : Ref} {b : Block}

theorem live_put {q : Ref} : (put m r b).Live q ↔ m.Live q := by
  simp only [Arena.Live, put, List.getElem?_modify]
  cases m.cells[q]? <;> by_cases hq : r = q <;> simp [hq]

theorem val?_put_self (hr : m.Live r) : (put m r b).val? r = some b := by
  obtain ⟨x, hx⟩ := Option.isSome_iff_exists.mp (m.val?_isSome.mpr hr.lt)
  obtain ⟨c, hc, -⟩ := Option.map_eq_some_iff.mp hx
  simp [Arena.val?, put, hc]

theorem val?_put_ne {q : Ref} (h : q ≠ r) : (put m r b).val? q = m.val? q := by
  simp only [Arena.val?, put, List.getElem?_modify, Ne.symm h, if_false]
  simp

theorem Holds.live (h : Holds m l) (hr : (r, b) ∈ l) : m.Live r ∧ m.val? r = some b :=
  (h.2 r b).mpr hr

theorem Holds.nodup_cons (h : Holds m ((r, b) ::ₘ l)) :
    (∀ c, (r, c) ∉ l) ∧ (l.map Prod.fst).Nodup := by
  have hnd := h.1
  rw [Multiset.map_cons, Multiset.nodup_cons] at hnd
  exact ⟨fun c hc => hnd.1 (Multiset.mem_map.mpr ⟨(r, c), hc, rfl⟩), hnd.2⟩

theorem Holds.alloc (h : Holds m l) (b : Block) : Holds (m.alloc b) ((m.size, b) ::ₘ l) := by
  have hlt : ∀ q c, (q, c) ∈ l → q < m.size := fun q c hq => (h.live hq).1.lt
  constructor
  · rw [Multiset.map_cons, Multiset.nodup_cons]
    refine ⟨fun hmem => ?_, h.1⟩
    obtain ⟨⟨q, c⟩, hq, heq⟩ := Multiset.mem_map.mp hmem
    exact absurd (hlt q c hq) (by rw [show q = m.size from heq]; exact Nat.lt_irrefl _)
  · intro q c
    rw [Multiset.mem_cons]
    by_cases hq : q = m.size
    · subst hq
      have hnot : (m.size, c) ∉ l := fun hmem => Nat.lt_irrefl _ (hlt _ _ hmem)
      simp [hnot, eq_comm]
    · constructor
      · rintro ⟨hlive, hval⟩
        have hlt' : q < m.size := by
          have hsize : q < (m.alloc b).size := Arena.Live.lt hlive
          rw [Arena.size_alloc] at hsize
          exact Nat.lt_of_le_of_ne (Nat.lt_succ_iff.mp hsize) hq
        rw [Arena.live_alloc_of_lt _ hlt'] at hlive
        rw [Arena.val?_alloc_of_lt _ hlt'] at hval
        exact .inr ((h.2 q c).mp ⟨hlive, hval⟩)
      · rintro (heq | hmem)
        · exact absurd (congrArg Prod.fst heq) hq
        · obtain ⟨hlive, hval⟩ := h.live hmem
          exact ⟨hlive.alloc, m.val?_alloc hval⟩

theorem Holds.free (h : Holds m ((r, b) ::ₘ l)) : Holds (m.free r) l := by
  obtain ⟨hnot, hnd⟩ := h.nodup_cons
  refine ⟨hnd, fun q c => ?_⟩
  rw [Arena.val?_free]
  constructor
  · rintro ⟨hlive, hval⟩
    obtain ⟨hlive, hne⟩ := Arena.Live.of_free hlive
    refine (Multiset.mem_cons.mp ((h.2 q c).mp ⟨hlive, hval⟩)).resolve_left ?_
    exact fun heq => hne (congrArg Prod.fst heq)
  · intro hmem
    obtain ⟨hlive, hval⟩ := h.live (Multiset.mem_cons_of_mem hmem)
    refine ⟨hlive.free ?_, hval⟩
    rintro rfl
    exact hnot c hmem

theorem Holds.put (h : Holds m ((r, b) ::ₘ l)) (b' : Block) :
    Holds (put m r b') ((r, b') ::ₘ l) := by
  obtain ⟨hnot, -⟩ := h.nodup_cons
  refine ⟨by simpa using h.1, fun q c => ?_⟩
  rw [live_put, Multiset.mem_cons]
  by_cases hq : q = r
  · subst hq
    have hlive := (h.live (Multiset.mem_cons_self _ _)).1
    rw [val?_put_self hlive]
    simp [hlive, hnot, eq_comm]
  · rw [val?_put_ne hq, h.2 q c, Multiset.mem_cons]
    simp [hq]

end Memory

/-- Where bytes are written there is a block with room for them, which is as long afterwards. -/
theorem write_eq_some {off : Nat} {bytes : Block} {m' : Arena Block}
    (h : write r off bytes m = some ((), m')) :
    ∃ b b', m.val? r = some b ∧ off + bytes.length ≤ b.length ∧ m'.val? r = some b' ∧
      b'.length = b.length := by
  obtain ⟨b, hb, hput⟩ := Option.bind_eq_some_iff.mp h
  split at hput
  · rename_i hroom
    cases hput
    refine ⟨b, _, hb, hroom.2, val?_put_self hroom.1, ?_⟩
    simp only [List.length_append, List.length_take, List.length_drop]
    omega
  · cases hput

/-! ## Specifications -/

def Spec {α : Type} (l : Multiset (Ref × Block)) (x : Prog α)
    (Q : α → Multiset (Ref × Block) → Prop) : Prop :=
  ∀ m F, Holds m (l + F) → ∃ v m' l', x m = some (v, m') ∧ Q v l' ∧ Holds m' (l' + F)

namespace Spec

variable {α β : Type} {l : Multiset (Ref × Block)} {x : Prog α} {k : α → Prog β}
  {Q : α → Multiset (Ref × Block) → Prop} {R : β → Multiset (Ref × Block) → Prop} {r : Ref}
  {b : Block}

theorem pure {v : α} (h : Q v l) : Spec l (Pure.pure v : Prog α) Q :=
  fun m _ hm => ⟨v, m, l, rfl, h, hm⟩

theorem bind (hx : Spec l x Q) (hk : ∀ v l', Q v l' → Spec l' (k v) R) : Spec l (x >>= k) R := by
  intro m F hm
  obtain ⟨v, m₁, l₁, hrun, hv, hm₁⟩ := hx m F hm
  obtain ⟨w, m₂, l₂, hrun₂, hw, hm₂⟩ := hk v l₁ hv m₁ F hm₁
  refine ⟨w, m₂, l₂, ?_, hw, hm₂⟩
  show (x m).bind (fun y => k y.1 y.2) = _
  rw [hrun]
  exact hrun₂

theorem mono {Q' : α → Multiset (Ref × Block) → Prop} (hx : Spec l x Q)
    (h : ∀ v l', Q v l' → Q' v l') : Spec l x Q' := by
  intro m F hm
  obtain ⟨v, m', l', hrun, hv, hm'⟩ := hx m F hm
  exact ⟨v, m', l', hrun, h v l' hv, hm'⟩

/-- **Frame rule**: other blocks stay. -/
theorem frame (hx : Spec l x Q) (F : Multiset (Ref × Block)) :
    Spec (l + F) x fun v l' => ∃ l₀, Q v l₀ ∧ l' = l₀ + F := by
  intro m G hm
  rw [add_assoc] at hm
  obtain ⟨v, m', l', hrun, hv, hm'⟩ := hx m (F + G) hm
  exact ⟨v, m', l' + F, hrun, ⟨l', hv, rfl⟩, by rwa [add_assoc]⟩

theorem among {l₀ F : Multiset (Ref × Block)} {Q' : α → Multiset (Ref × Block) → Prop}
    (hx : Spec l₀ x Q) (hl : l = l₀ + F) (h : ∀ v l', Q v l' → Q' v (l' + F)) : Spec l x Q' := by
  subst hl
  refine (hx.frame F).mono ?_
  rintro v _ ⟨l', hv, rfl⟩
  exact h v l' hv

theorem call {l₀ F : Multiset (Ref × Block)} (hx : Spec l₀ x Q) (hl : l = l₀ + F)
    (hk : ∀ v l', Q v l' → Spec (l' + F) (k v) R) : Spec l (x >>= k) R := by
  subst hl
  refine (hx.frame F).bind ?_
  rintro v _ ⟨l', hv, rfl⟩
  exact hk v l' hv

theorem alloc : Spec 0 (alloc b) fun r l => l = {(r, b)} := by
  intro m F hm
  rw [zero_add] at hm
  exact ⟨m.size, m.alloc b, _, rfl, rfl, hm.alloc b⟩

theorem free : Spec {(r, b)} (free (some r)) fun _ l => l = 0 := by
  intro m F hm
  rw [Multiset.singleton_add] at hm
  have hlive := (hm.live (Multiset.mem_cons_self _ _)).1
  refine ⟨(), m.free r, 0, if_pos hlive, rfl, ?_⟩
  rw [zero_add]
  exact hm.free

theorem read (h : (r, b) ∈ l) : Spec l (read r) fun v l' => v = b ∧ l' = l := by
  intro m F hm
  obtain ⟨hlive, hval⟩ := hm.live (Multiset.mem_add.mpr (.inl h))
  exact ⟨b, m, l, by simp [Blocks.read, hlive, hval], ⟨rfl, rfl⟩, hm⟩

theorem write {off : Nat} {bytes : Block} (h : off + bytes.length ≤ b.length) :
    Spec {(r, b)} (write r off bytes)
      fun _ l => l = {(r, b.take off ++ bytes ++ b.drop (off + bytes.length))} := by
  intro m F hm
  rw [Multiset.singleton_add] at hm
  obtain ⟨hlive, hval⟩ := hm.live (Multiset.mem_cons_self _ _)
  exact ⟨(), _, _, by simp [Blocks.write, hlive, hval, h], rfl, hm.put _⟩

theorem realloc {junk : Nat → UInt8} {n : Nat} :
    Spec {(r, b)} (realloc junk r n)
      fun r' l => l = {(r', b.take n ++ indeterminate junk (n - b.length))} := by
  refine (read (Multiset.mem_singleton_self _)).bind ?_
  rintro _ _ ⟨rfl, rfl⟩
  refine free.bind ?_
  rintro _ _ rfl
  exact alloc

end Spec

/-! ## Strings that may be NULL -/

theorem ofBytes_terminated (l : List UInt8) : CString.ofBytes (l ++ [0]) = .ofBytes l := by
  apply CString.ext
  show (l ++ [0]).takeWhile (· != 0) = l.takeWhile (· != 0)
  rw [List.takeWhile_append]
  split
  · rename_i h
    have hall : l.takeWhile (· != 0) = l := (List.takeWhile_prefix _).eq_of_length h
    simp [hall]
  · rfl

/-- `StoredIn o s l`: the pointer is to the string, which is all there is in `l`. -/
inductive StoredIn : Option Ref → Option CString → Multiset (Ref × Block) → Prop
  | null : StoredIn none none 0
  | text {r : Ref} {b : Block} (h : 0 ∈ b) : StoredIn (some r) (some (.ofBytes b)) {(r, b)}

/-- The pointer is to the string, somewhere among the blocks. -/
def StoredAt (o : Option Ref) (s : Option CString) (l : Multiset (Ref × Block)) : Prop :=
  ∃ l₀ ≤ l, StoredIn o s l₀

section Stored

variable {l : Multiset (Ref × Block)} {o : Option Ref} {r : Ref} {s : Option CString} {c : CString}

theorem StoredIn.terminated (r : Ref) (b : Block) :
    StoredIn (some r) (some (.ofBytes b)) {(r, b ++ [0])} := by
  rw [← ofBytes_terminated]
  exact .text (by simp)

theorem StoredIn.free (h : StoredIn o s l) : Spec l (free o) fun _ l' => l' = 0 := by
  cases h with
  | null => exact Spec.pure rfl
  | text h => exact Spec.free

/-- The string is written over itself. -/
theorem StoredIn.write_back (h : StoredIn (some r) (some c) l) :
    Spec l (write r 0 c.bytes) fun _ l' => l' = l := by
  cases h with
  | @text r b h =>
    have hb : (CString.ofBytes b).bytes = b.takeWhile (· != 0) := rfl
    rw [hb]
    refine (Spec.write ?_).mono ?_
    · rw [Nat.zero_add]
      exact (List.takeWhile_prefix _).length_le
    · rintro _ _ rfl
      have hdrop : b.drop (b.takeWhile (· != 0)).length = b.dropWhile (· != 0) := by
        have hleft := @List.drop_left _ (b.takeWhile (· != 0)) (b.dropWhile (· != 0))
        rwa [List.takeWhile_append_dropWhile] at hleft
      rw [List.take_zero, List.nil_append, Nat.zero_add, hdrop,
        List.takeWhile_append_dropWhile]

theorem StoredIn.at (h : StoredIn o s l) {l' F : Multiset (Ref × Block)} (hl : l' = l + F) :
    StoredAt o s l' := ⟨l, hl ▸ Multiset.le_add_right _ _, h⟩

theorem StoredAt.mono (h : StoredAt o s l) {l' : Multiset (Ref × Block)} (hle : l ≤ l') :
    StoredAt o s l' := by
  obtain ⟨l₀, hl₀, hs⟩ := h
  exact ⟨l₀, hl₀.trans hle, hs⟩

theorem StoredAt.isSome_eq (h : StoredAt o s l) : o.isSome = s.isSome := by
  obtain ⟨l₀, -, hs⟩ := h
  cases hs <;> rfl

theorem StoredAt.string (h : StoredAt (some r) (some c) l) :
    Spec l (string r) fun v l' => v = c ∧ l' = l := by
  obtain ⟨l₀, hle, hs⟩ := h
  cases hs with
  | text h =>
    refine (Spec.read (Multiset.mem_of_le hle (Multiset.mem_singleton_self _))).bind ?_
    rintro _ _ ⟨rfl, rfl⟩
    rw [if_pos h]
    exact Spec.pure ⟨rfl, rfl⟩

theorem Spec.strdup (c : CString) : Spec 0 (strdup c) fun r l => StoredIn (some r) (some c) l := by
  refine Spec.alloc.mono ?_
  rintro r _ rfl
  have hstored := StoredIn.terminated r c.bytes
  rwa [CString.ofBytes_bytes] at hstored

end Stored

end Blocks
