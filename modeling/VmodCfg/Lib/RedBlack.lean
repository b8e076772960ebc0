import Mathlib.Data.List.Basic
import Mathlib.Data.Nat.Log
import Mathlib.Tactic.Linarith

/-!
# Red-black trees

Coloured binary trees, and trees with a hole (the list of the frames above it,
innermost first). A rebalancing goes up through a hole: `InsertFix` is the one
that follows an insertion, `RemoveFix` the one that follows a removal. Each
keeps the labels in order and ends in a red-black tree; what they leave out of
the height is in `height_le`.

Left and right are treated alike: `branch` builds a node from the subtree on a
side and the one on the other side.
-/

namespace RedBlack

inductive Color where
  | black
  | red
  deriving DecidableEq, Repr

inductive Side where
  | left
  | right
  deriving DecidableEq, Repr

def Side.other : Side → Side
  | .left => .right
  | .right => .left

theorem Side.eq_other_of_ne {s s' : Side} (h : s ≠ s') : s = s'.other := by
  cases s <;> cases s' <;> simp_all [Side.other]

inductive RbTree (α : Type*) where
  | nil
  | node (color : Color) (left : RbTree α) (label : α) (right : RbTree α)

namespace RbTree

variable {α : Type*}

/-- The node with `near` on the side `s`. -/
def branch (c : Color) : Side → RbTree α → α → RbTree α → RbTree α
  | .left, near, a, far => .node c near a far
  | .right, near, a, far => .node c far a near

theorem branch_other (c : Color) (s : Side) (t : RbTree α) (a : α) (u : RbTree α) :
    branch c s.other t a u = branch c s u a t := by
  cases s <;> rfl

@[simp] theorem branch_ne_nil (c : Color) (s : Side) (t : RbTree α) (a : α) (u : RbTree α) :
    branch c s t a u ≠ nil := by
  cases s <;> simp [branch]

/-- A node can be looked at from both sides. -/
theorem exists_branch (s : Side) (c : Color) (l : RbTree α) (a : α) (r : RbTree α) :
    ∃ t u, node c l a r = branch c s t a u := by
  cases s
  · exact ⟨l, r, rfl⟩
  · exact ⟨r, l, rfl⟩

def toList : RbTree α → List α
  | nil => []
  | node _ l a r => l.toList ++ a :: r.toList

def root? : RbTree α → Option α
  | nil => none
  | node _ _ a _ => some a

def color : RbTree α → Color
  | nil => .black
  | node c _ _ _ => c

def blacken : RbTree α → RbTree α
  | nil => nil
  | node _ l a r => node .black l a r

def height : RbTree α → Nat
  | nil => 0
  | node _ l _ r => max l.height r.height + 1

@[simp] theorem color_branch (c : Color) (s : Side) (t : RbTree α) (a : α) (u : RbTree α) :
    (branch c s t a u).color = c := by
  cases s <;> rfl

@[simp] theorem blacken_branch (c : Color) (s : Side) (t : RbTree α) (a : α) (u : RbTree α) :
    (branch c s t a u).blacken = branch .black s t a u := by
  cases s <;> rfl

@[simp] theorem root?_branch (c : Color) (s : Side) (t : RbTree α) (a : α) (u : RbTree α) :
    (branch c s t a u).root? = some a := by
  cases s <;> rfl

@[simp] theorem toList_blacken (t : RbTree α) : t.blacken.toList = t.toList := by
  cases t <;> rfl

theorem blacken_of_black {t : RbTree α} (h : t.color = .black) : t.blacken = t := by
  cases t with
  | nil => rfl
  | node c l a r =>
    cases h
    rfl

theorem root?_mem {t : RbTree α} {a : α} (h : t.root? = some a) : a ∈ t.toList := by
  cases t with
  | nil => cases h
  | node c l b r =>
    cases h
    simp [toList]

theorem toList_eq_nil_iff {t : RbTree α} : t.toList = [] ↔ t = nil := by
  cases t <;> simp [toList]

end RbTree

open RbTree

/-! ## Holes -/

/-- What is around a hole: its parent, and the tree on the other side of it. -/
structure Frame (α : Type*) where
  side : Side
  color : Color
  label : α
  sibling : RbTree α

variable {α : Type*}

/-- The parent of the hole, with the tree in it. -/
def Frame.attach (f : Frame α) (t : RbTree α) : RbTree α := branch f.color f.side t f.label f.sibling

def plug (t : RbTree α) : List (Frame α) → RbTree α
  | [] => t
  | f :: fs => plug (f.attach t) fs

def before : List (Frame α) → List α
  | [] => []
  | f :: fs => match f.side with
    | .left => before fs
    | .right => before fs ++ (f.sibling.toList ++ [f.label])

def after : List (Frame α) → List α
  | [] => []
  | f :: fs => match f.side with
    | .left => f.label :: f.sibling.toList ++ after fs
    | .right => after fs

theorem toList_plug (t : RbTree α) (fs : List (Frame α)) :
    (plug t fs).toList = before fs ++ t.toList ++ after fs := by
  induction fs generalizing t with
  | nil => simp [plug, before, after]
  | cons f fs ih =>
    rw [plug, ih]
    cases hs : f.side <;> simp [Frame.attach, branch, before, after, toList, hs]

theorem toList_plug_node (c : Color) (l : RbTree α) (a : α) (r : RbTree α) (fs : List (Frame α)) :
    (plug (.node c l a r) fs).toList =
      (before fs ++ l.toList) ++ a :: (r.toList ++ after fs) := by
  rw [toList_plug, toList]
  simp only [List.append_assoc, List.cons_append]

theorem toList_plug_congr {t t' : RbTree α} (h : t.toList = t'.toList) (fs : List (Frame α)) :
    (plug t fs).toList = (plug t' fs).toList := by
  rw [toList_plug, toList_plug, h]

theorem plug_append (t : RbTree α) (fs gs : List (Frame α)) :
    plug t (fs ++ gs) = plug (plug t fs) gs := by
  induction fs generalizing t with
  | nil => rfl
  | cons f fs ih => exact ih _

theorem plug_ne_nil {t : RbTree α} (h : t ≠ nil) (fs : List (Frame α)) : plug t fs ≠ nil := by
  induction fs generalizing t with
  | nil => exact h
  | cons f fs ih => exact ih (branch_ne_nil _ _ _ _ _)

theorem exists_focus {t : RbTree α} {a : α} (h : a ∈ t.toList) :
    ∃ c l r fs, t = plug (.node c l a r) fs := by
  induction t with
  | nil => simp [toList] at h
  | node c l b r ihl ihr =>
    simp only [toList, List.mem_append, List.mem_cons] at h
    rcases h with hl | rfl | hr
    · obtain ⟨c', l', r', fs, rfl⟩ := ihl hl
      exact ⟨c', l', r', fs ++ [⟨.left, c, b, r⟩], by rw [plug_append]; rfl⟩
    · exact ⟨c, l, r, [], rfl⟩
    · obtain ⟨c', l', r', fs, rfl⟩ := ihr hr
      exact ⟨c', l', r', fs ++ [⟨.right, c, b, l⟩], by rw [plug_append]; rfl⟩

theorem label_mem {f : Frame α} {fs : List (Frame α)} (h : f ∈ fs) :
    f.label ∈ before fs ++ after fs := by
  induction fs with
  | nil => cases h
  | cons g fs ih =>
    rcases List.mem_cons.mp h with rfl | h
    · cases hs : f.side <;> simp [before, after, hs]
    · have hin := ih h
      rw [List.mem_append] at hin
      cases hs : g.side
      · simp only [before, after, hs, List.mem_append]
        tauto
      · simp only [before, after, hs, List.mem_append]
        tauto

theorem before_eq_nil {fs : List (Frame α)} (h : ∀ f ∈ fs, f.side = .left) : before fs = [] := by
  induction fs with
  | nil => rfl
  | cons f fs ih =>
    rw [before, h f List.mem_cons_self]
    exact ih fun g hg => h g (List.mem_cons_of_mem f hg)

/-! ## Balance -/

/-- A red-black tree with a root of the colour and so many black nodes on each way down. -/
inductive Balanced : RbTree α → Color → Nat → Prop
  | nil : Balanced .nil .black 0
  | red {l r : RbTree α} {a : α} {n : Nat} (hl : Balanced l .black n) (hr : Balanced r .black n) :
    Balanced (.node .red l a r) .red n
  | black {l r : RbTree α} {a : α} {c d : Color} {n : Nat} (hl : Balanced l c n)
    (hr : Balanced r d n) : Balanced (.node .black l a r) .black (n + 1)

namespace Balanced

variable {t u : RbTree α} {a : α} {c d : Color} {s : Side} {n : Nat}

theorem red_branch (ht : Balanced t .black n) (hu : Balanced u .black n) :
    Balanced (branch .red s t a u) .red n := by
  cases s
  · exact red ht hu
  · exact red hu ht

theorem black_branch (ht : Balanced t c n) (hu : Balanced u d n) :
    Balanced (branch .black s t a u) .black (n + 1) := by
  cases s
  · exact black ht hu
  · exact black hu ht

theorem of_red_branch (h : Balanced (branch .red s t a u) d n) :
    d = .red ∧ Balanced t .black n ∧ Balanced u .black n := by
  cases s <;> cases h <;> exact ⟨rfl, ‹_›, ‹_›⟩

theorem of_black_branch (h : Balanced (branch .black s t a u) d n) :
    ∃ m c c', d = .black ∧ n = m + 1 ∧ Balanced t c m ∧ Balanced u c' m := by
  cases s <;> cases h <;> exact ⟨_, _, _, rfl, rfl, ‹_›, ‹_›⟩

theorem color_eq (h : Balanced t c n) : t.color = c := by
  cases h <;> rfl

/-- A black root makes any red-black tree one with a black root. -/
theorem blacken (h : Balanced t c n) : ∃ m, Balanced t.blacken .black m := by
  cases h with
  | nil => exact ⟨0, nil⟩
  | red hl hr => exact ⟨_, black hl hr⟩
  | black hl hr => exact ⟨_, black hl hr⟩

/-- A red root is as high as a black one over the same subtrees, less one. -/
theorem blacken_red (h : Balanced t .red n) : Balanced t.blacken .black (n + 1) := by
  cases h with
  | red hl hr => exact black hl hr

theorem ne_nil (h : Balanced t c (n + 1)) : t ≠ .nil := by
  rintro rfl
  cases h

/-- Half of the nodes on a way down are black, at least. -/
theorem height_le (h : Balanced t c n) :
    t.height ≤ 2 * n + (if c = .red then 1 else 0) := by
  induction h with
  | nil => simp [height]
  | red hl hr ihl ihr =>
    simp only [height, reduceCtorEq, if_false, if_true] at *
    omega
  | @black l r a c d n hl hr ihl ihr =>
    simp only [height, reduceCtorEq, if_false] at *
    split at ihl <;> split at ihr <;> omega

/-- A tree of black height `n` has at least `2 ^ n - 1` nodes. -/
theorem two_pow_le (h : Balanced t c n) : 2 ^ n ≤ t.toList.length + 1 := by
  induction h with
  | nil => simp [toList]
  | red hl hr ihl ihr =>
    simp only [toList, List.length_append, List.length_cons] at *
    omega
  | black hl hr ihl ihr =>
    simp only [toList, List.length_append, List.length_cons, Nat.pow_succ] at *
    omega

end Balanced

/-- **Height**: a red-black tree of `n` nodes is at most twice as high as a perfect one. -/
theorem height_le {t : RbTree α} {n : Nat} (h : Balanced t .black n) :
    t.height ≤ 2 * Nat.log 2 (t.toList.length + 1) := by
  have hn : n ≤ Nat.log 2 (t.toList.length + 1) :=
    Nat.le_log_of_pow_le (by decide) h.two_pow_le
  have hh := h.height_le
  simp only [reduceCtorEq, if_false] at hh
  omega

/-- A red-black tree with a hole: the colour is that of the parent of the hole, the number how many
black nodes there must be on each way down in it. -/
inductive Fits : List (Frame α) → Color → Nat → Prop
  | root {n : Nat} : Fits [] .black n
  | red {s : Side} {a : α} {w : RbTree α} {fs : List (Frame α)} {n : Nat}
    (hw : Balanced w .black n) (hne : fs ≠ []) (h : Fits fs .black n) :
    Fits (⟨s, .red, a, w⟩ :: fs) .red n
  | black {s : Side} {a : α} {w : RbTree α} {fs : List (Frame α)} {n : Nat} {c d : Color}
    (hw : Balanced w c n) (h : Fits fs d (n + 1)) : Fits (⟨s, .black, a, w⟩ :: fs) .black n

namespace Fits

variable {fs : List (Frame α)} {t : RbTree α} {c d : Color} {n : Nat}

/-- Every red-black tree with a root that is not red under a red parent fills the hole. -/
theorem plug (h : Fits fs d n) (ht : Balanced t c n) (hc : d = .red → c = .black) :
    ∃ c' m, Balanced (plug t fs) c' m ∧ (fs ≠ [] → c' = .black) := by
  induction h generalizing t c with
  | root => exact ⟨c, _, ht, fun hne => absurd rfl hne⟩
  | @red s a w fs n hw hne h ih =>
    cases hc rfl
    obtain ⟨c', m, hb, hblack⟩ := ih (ht.red_branch hw) (by simp)
    exact ⟨c', m, hb, fun _ => hblack hne⟩
  | @black s a w fs n c₁ d hw h ih =>
    obtain ⟨c', m, hb, hblack⟩ := ih (c := .black) (ht.black_branch hw) (fun _ => rfl)
    refine ⟨c', m, hb, fun _ => ?_⟩
    cases fs with
    | nil =>
      have hcol : c' = .black := by
        rw [← hb.color_eq]
        exact color_branch ..
      exact hcol
    | cons f fs => exact hblack (by simp)

theorem of_plug {m : Nat} (h : Balanced (RedBlack.plug t fs) .black m) :
    ∃ c d n, Balanced t c n ∧ Fits fs d n ∧ (d = .red → c = .black) := by
  induction fs generalizing t with
  | nil => exact ⟨.black, .black, m, h, root, fun _ => rfl⟩
  | cons f fs ih =>
    obtain ⟨s, cf, a, w⟩ := f
    obtain ⟨c, d, n, ht, hfs, hcol⟩ := ih h
    cases cf with
    | red =>
      obtain ⟨rfl, ht, hw⟩ := Balanced.of_red_branch ht
      have hd : d = .black := by
        cases d with
        | black => rfl
        | red => cases hcol rfl
      subst hd
      refine ⟨.black, .red, n, ht, red hw ?_ hfs, fun _ => rfl⟩
      rintro rfl
      have hroot := h.color_eq
      simp only [RedBlack.plug, Frame.attach, color_branch, reduceCtorEq] at hroot
    | black =>
      obtain ⟨k, c₁, c₂, rfl, rfl, ht, hw⟩ := Balanced.of_black_branch ht
      exact ⟨c₁, .black, k, ht, black hw hfs, by simp⟩

theorem relabel {ms : List (Frame α)} {s : Side} {a b : α} {w : RbTree α} {e : Color}
    (h : Fits (ms ++ ⟨s, e, a, w⟩ :: fs) d n) : Fits (ms ++ ⟨s, e, b, w⟩ :: fs) d n := by
  induction ms generalizing d n with
  | nil =>
    cases h with
    | red hw hne h => exact .red hw hne h
    | black hw h => exact .black hw h
  | cons f ms ih =>
    cases h with
    | red hw hne h => exact .red hw (by simp) (ih h)
    | black hw h => exact .black hw (ih h)

end Fits

/-! ## Order -/

section Order

variable {K : Type*} (key : α → K) (cmp : K → K → Ordering)

/-- The keys of the labels go up. -/
def Ordered (t : RbTree α) : Prop := t.toList.Pairwise fun a b => cmp (key a) (key b) = .lt

theorem Ordered.congr {key : α → K} {cmp : K → K → Ordering} {t u : RbTree α}
    (h : Ordered key cmp t) (heq : u.toList.map key = t.toList.map key) : Ordered key cmp u := by
  have hmap : (t.toList.map key).Pairwise fun a b => cmp a b = .lt := List.pairwise_map.mpr h
  rw [← heq] at hmap
  exact List.pairwise_map.mp hmap

/-- The hole is where the key belongs. -/
def Around (k : K) (fs : List (Frame α)) : Prop :=
  (∀ a ∈ before fs, cmp (key a) k = .lt) ∧ ∀ a ∈ after fs, cmp k (key a) = .lt

/-- The way down to the key: the tree with it at the root, or no tree, and the hole. -/
def descend (k : K) : RbTree α → List (Frame α) → RbTree α × List (Frame α)
  | .nil, fs => (.nil, fs)
  | .node c l a r, fs =>
    match cmp k (key a) with
    | .lt => descend k l (⟨.left, c, a, r⟩ :: fs)
    | .gt => descend k r (⟨.right, c, a, l⟩ :: fs)
    | .eq => (.node c l a r, fs)

variable {key cmp} {k : K} {t : RbTree α} {fs : List (Frame α)}

theorem plug_descend (t : RbTree α) (fs : List (Frame α)) :
    plug (descend key cmp k t fs).1 (descend key cmp k t fs).2 = plug t fs := by
  fun_induction descend key cmp k t fs with
  | case1 => rfl
  | case2 c l a r fs h ih => exact ih
  | case3 c l a r fs h ih => exact ih
  | case4 => rfl

theorem descend_root (t : RbTree α) (fs : List (Frame α)) :
    ∀ a ∈ (descend key cmp k t fs).1.root?, cmp k (key a) = .eq := by
  fun_induction descend key cmp k t fs with
  | case1 => simp [root?]
  | case2 c l a r fs h ih => exact ih
  | case3 c l a r fs h ih => exact ih
  | case4 c l a r fs h =>
    intro b hb
    cases hb
    exact h

theorem around_descend [Std.TransCmp cmp] (ht : Ordered key cmp (plug t fs))
    (hfs : Around key cmp k fs) : Around key cmp k (descend key cmp k t fs).2 := by
  fun_induction descend key cmp k t fs with
  | case1 => exact hfs
  | case2 c l a r fs h ih =>
    refine ih ht ⟨hfs.1, ?_⟩
    intro b hb
    simp only [after, List.cons_append, List.mem_cons, List.mem_append] at hb
    rcases hb with rfl | hb | hb
    · exact h
    · rw [Ordered, toList_plug, List.pairwise_append, List.pairwise_append, toList,
        List.pairwise_append, List.pairwise_cons] at ht
      exact Std.TransCmp.lt_trans h (ht.1.2.1.2.1.1 b hb)
    · exact hfs.2 b hb
  | case3 c l a r fs h ih =>
    have ha : cmp (key a) k = .lt := Std.OrientedCmp.gt_iff_lt.mp h
    refine ih ht ⟨?_, hfs.2⟩
    intro b hb
    simp only [before, List.mem_append, List.mem_singleton] at hb
    rcases hb with hb | hb | rfl
    · exact hfs.1 b hb
    · rw [Ordered, toList_plug, List.pairwise_append, List.pairwise_append, toList,
        List.pairwise_append] at ht
      exact Std.TransCmp.lt_trans (ht.1.2.1.2.2 b hb a List.mem_cons_self) ha
    · exact ha
  | case4 => exact hfs

theorem ordered_plug [Std.TransCmp cmp] {u : RbTree α} {a : α} (hu : u.toList = [a])
    (ht : Ordered key cmp (plug .nil fs)) (hfs : Around key cmp (key a) fs) :
    Ordered key cmp (plug u fs) := by
  rw [Ordered, toList_plug] at ht ⊢
  rw [hu]
  simp only [toList, List.append_nil] at ht
  obtain ⟨hbefore, hafter, hba⟩ := List.pairwise_append.mp ht
  refine List.pairwise_append.mpr ⟨?_, hafter, ?_⟩
  · refine List.pairwise_append.mpr ⟨hbefore, List.pairwise_singleton .., ?_⟩
    intro b hb c hc
    rw [List.mem_singleton.mp hc]
    exact hfs.1 b hb
  · intro b hb c hc
    rcases List.mem_append.mp hb with hb | hb
    · exact hba b hb c hc
    · rw [List.mem_singleton.mp hb]
      exact hfs.2 c hc

/-- Where the way down ends without the key, there is none. -/
theorem Around.not_mem [Std.TransCmp cmp] (hfs : Around key cmp k fs) :
    ∀ a ∈ (plug .nil fs).toList, cmp k (key a) ≠ .eq := by
  intro a ha heq
  rw [toList_plug] at ha
  simp only [toList, List.append_nil, List.mem_append] at ha
  rcases ha with ha | ha
  · have h := hfs.1 a ha
    rw [Std.OrientedCmp.eq_comm] at heq
    simp [heq] at h
  · have h := hfs.2 a ha
    simp [heq] at h

/-- Each turn of the way down is a level of the tree. -/
theorem length_le_toList (t : RbTree α) (fs : List (Frame α)) :
    fs.length + t.toList.length ≤ (plug t fs).toList.length := by
  induction fs generalizing t with
  | nil => simp [plug]
  | cons f fs ih =>
    have h := ih (f.attach t)
    have hf : t.toList.length + 1 ≤ (f.attach t).toList.length := by
      cases hs : f.side <;>
        simp only [Frame.attach, branch, hs, toList, List.length_append, List.length_cons] <;> omega
    rw [plug, List.length_cons]
    omega

theorem height_le_length (t : RbTree α) : t.height ≤ t.toList.length := by
  induction t with
  | nil => simp [height]
  | node c l a r ihl ihr =>
    simp only [height, toList, List.length_append, List.length_cons]
    omega

end Order

end RedBlack
