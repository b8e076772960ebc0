import VmodCfg.Vtree.Program

/-!
# Trees in memory

`cells up t` are the elements of the tree `t` under the parent `up`, with the
links that `t` says; `holeCells p fs` are those around a hole, with a link to
`p` where the hole is. `Does t x v t'` says that the program makes the tree `t'`
of the tree `t`: it is how every function of `vtree.h` is specified, whatever
else is in the memory.
-/

namespace VmodCfg.Vtree

open RedBlack RedBlack.RbTree Footprint

variable {P V : Type}

def addr (t : RbTree (P × V)) : Option P := t.root?.map Prod.fst

/-- The pointer to the parent of the hole. -/
def parentAddr (fs : List (Frame (P × V))) : Option P := fs.head?.map fun f => f.label.1

/-- The pointer to the root, when `p` is the one to what is in the hole. -/
def rootAddr (p : Option P) : List (Frame (P × V)) → Option P
  | [] => p
  | f :: fs => rootAddr (some f.label.1) fs

/-- An element, seen from a side. -/
def elem (s : Side) (c : Color) (v : V) (near far up : Option P) : Elem P V :=
  match s with
  | .left => ⟨v, near, far, up, c⟩
  | .right => ⟨v, far, near, up, c⟩

def cells (up : Option P) : RbTree (P × V) → Multiset (P × Elem P V)
  | .nil => 0
  | .node c l a r =>
    {(a.1, ⟨a.2, addr l, addr r, up, c⟩)} + (cells (some a.1) l + cells (some a.1) r)

def holeCells (p : Option P) : List (Frame (P × V)) → Multiset (P × Elem P V)
  | [] => 0
  | f :: fs =>
    {(f.label.1, elem f.side f.color f.label.2 p (addr f.sibling) (parentAddr fs))} +
      (cells (some f.label.1) f.sibling + holeCells (some f.label.1) fs)

@[simp] theorem addr_nil : addr (.nil : RbTree (P × V)) = none := rfl

@[simp] theorem addr_branch (c : Color) (s : Side) (t : RbTree (P × V)) (a : P × V)
    (u : RbTree (P × V)) : addr (branch c s t a u) = some a.1 := by
  simp [addr]

@[simp] theorem parentAddr_cons (f : Frame (P × V)) (fs : List (Frame (P × V))) :
    parentAddr (f :: fs) = some f.label.1 := rfl

theorem addr_eq_none {t : RbTree (P × V)} : addr t = none ↔ t = .nil := by
  cases t <;> simp [addr, root?]

theorem addr_plug (t : RbTree (P × V)) (fs : List (Frame (P × V))) :
    addr (plug t fs) = rootAddr (addr t) fs := by
  induction fs generalizing t with
  | nil => rfl
  | cons f fs ih =>
    rw [plug, ih, Frame.attach, addr_branch]
    rfl

theorem cells_branch (up : Option P) (c : Color) (s : Side) (t : RbTree (P × V)) (a : P × V)
    (u : RbTree (P × V)) :
    cells up (branch c s t a u) = {(a.1, elem s c a.2 (addr t) (addr u) up)} +
      (cells (some a.1) t + cells (some a.1) u) := by
  cases s
  · rfl
  · simp only [branch, cells, elem]
    abel

theorem cells_plug (t : RbTree (P × V)) (fs : List (Frame (P × V))) :
    cells none (plug t fs) = cells (parentAddr fs) t + holeCells (addr t) fs := by
  induction fs generalizing t with
  | nil => simp [plug, parentAddr, holeCells]
  | cons f fs ih =>
    rw [plug, ih, Frame.attach, cells_branch, addr_branch, holeCells]
    simp only [parentAddr, List.head?_cons, Option.map_some]
    abel

theorem map_fst_cells (up : Option P) (t : RbTree (P × V)) :
    (cells up t).map Prod.fst = (t.toList.map Prod.fst : List P) := by
  induction t generalizing up with
  | nil => rfl
  | node c l a r ihl ihr =>
    simp only [cells, toList, Multiset.map_add, Multiset.map_singleton, ihl, ihr, List.map_append,
      List.map_cons, ← Multiset.coe_add, ← Multiset.cons_coe, ← Multiset.singleton_add]
    abel

/-! ## Fields -/

section Fields

variable {r : Option P} {m : Multiset (P × Elem P V)} {p : P} {s : Side} {c : Color} {v : V}
  {near far up q : Option P}

theorem spec_child_near (h : (p, elem s c v near far up) ∈ m) :
    Spec r m (child s (some p)) near r m := by
  cases s
  · exact Spec.field (f := fun e : Elem P V => e.entry.left) h
  · exact Spec.field (f := fun e : Elem P V => e.entry.right) h

theorem spec_child_far (h : (p, elem s c v near far up) ∈ m) :
    Spec r m (child s.other (some p)) far r m := by
  cases s
  · exact Spec.field (f := fun e : Elem P V => e.entry.right) h
  · exact Spec.field (f := fun e : Elem P V => e.entry.left) h

theorem spec_parent (h : (p, elem s c v near far up) ∈ m) :
    Spec r m (parent (some p)) up r m := by
  cases s <;> exact Spec.field (f := fun e : Elem P V => e.entry.parent) h

theorem spec_color (h : (p, elem s c v near far up) ∈ m) :
    Spec r m (color (some p)) c r m := by
  cases s <;> exact Spec.field (f := fun e : Elem P V => e.entry.color) h

theorem spec_data (h : (p, elem s c v near far up) ∈ m) :
    Spec r m (data (some p)) v r m := by
  cases s <;> exact Spec.field (f := fun e : Elem P V => e.data) h

variable [DecidableEq P]

theorem spec_setChild_near :
    Spec r {(p, elem s c v near far up)} (setChild s (some p) q) () r
      {(p, elem s c v q far up)} := by
  cases s <;> exact Spec.update

theorem spec_setChild_far :
    Spec r {(p, elem s c v near far up)} (setChild s.other (some p) q) () r
      {(p, elem s c v near q up)} := by
  cases s <;> exact Spec.update

theorem spec_setParent :
    Spec r {(p, elem s c v near far up)} (setParent (some p) q) () r
      {(p, elem s c v near far q)} := by
  cases s <;> exact Spec.update

theorem spec_setColor {d : Color} :
    Spec r {(p, elem s c v near far up)} (setColor (some p) d) () r
      {(p, elem s d v near far up)} := by
  cases s <;> exact Spec.update

theorem spec_setParentOf {t : RbTree (P × V)} :
    Spec r (cells up t) (setParentOf (addr t) q) () r (cells q t) := by
  cases t with
  | nil => exact Spec.pure
  | node c l a r =>
    rw [cells, cells]
    exact (spec_setParent (s := .left)).frame _

/-- The link that was to `p` is one to something else, if no other link of the parent is to `p`. -/
theorem spec_replaceChild {fs : List (Frame (P × V))}
    (hp : p ∉ (holeCells (some p) fs).map Prod.fst) :
    Spec (rootAddr (some p) fs) (holeCells (some p) fs) (replaceChild (parentAddr fs) (some p) q) ()
      (rootAddr q fs) (holeCells q fs) := by
  cases fs with
  | nil => exact Spec.setReg
  | cons f fs =>
    obtain ⟨s, c, a, w⟩ := f
    rw [holeCells, holeCells]
    have hmem : (a.1, elem s c a.2 (some p) (addr w) (parentAddr fs)) ∈
        ({(a.1, elem s c a.2 (some p) (addr w) (parentAddr fs))} +
          (cells (some a.1) w + holeCells (some a.1) fs) : Multiset (P × Elem P V)) := by
      simp
    cases s with
    | left =>
      refine Spec.bind (spec_child_near hmem) ?_
      rw [if_pos rfl]
      exact (spec_setChild_near (s := .left)).frame _
    | right =>
      have hw : addr w ≠ some p := by
        intro hw
        obtain ⟨b, hb, rfl⟩ := Option.map_eq_some_iff.mp hw
        have hin : b.1 ∈ (cells (some a.1) w).map Prod.fst := by
          rw [map_fst_cells]
          exact Multiset.mem_coe.mpr (List.mem_map_of_mem (root?_mem hb))
        apply hp
        simp only [holeCells, Multiset.map_add, Multiset.mem_add]
        exact .inr (.inl hin)
      refine Spec.bind (spec_child_far hmem) ?_
      rw [if_neg hw]
      exact (spec_setChild_near (s := .right)).frame _

/-- A rotation, with what it does to the subtree that changes its parent and to the link from above
as premises. -/
theorem spec_rotate {x y : P} {d : Color} {w : V} {a b e r' : Option P}
    {mb mb' mf mf' : Multiset (P × Elem P V)}
    (hb : Spec r mb (setParentOf b (some x)) () r mb')
    (hf : Spec r mf (replaceChild up (some x) (some y)) () r' mf') :
    Spec r ({(x, elem s c v a (some y) up)} + {(y, elem s d w b e (some x))} + mb + mf)
      (rotate s (some x)) () r'
      ({(x, elem s c v a b (some y))} + {(y, elem s d w (some x) e up)} + mb' + mf') := by
  have hx : (x, elem s c v a (some y) up) ∈
      ({(x, elem s c v a (some y) up)} + {(y, elem s d w b e (some x))} + mb + mf :
        Multiset (P × Elem P V)) := by simp
  have hy : (y, elem s d w b e (some x)) ∈
      ({(x, elem s c v a (some y) up)} + {(y, elem s d w b e (some x))} + mb + mf :
        Multiset (P × Elem P V)) := by simp
  have hx' : (x, elem s c v a b up) ∈
      (mb' + ({(x, elem s c v a b up)} + {(y, elem s d w b e (some x))} + mf) :
        Multiset (P × Elem P V)) := by simp
  refine Spec.bind (spec_child_far hx) ?_
  refine Spec.bind (spec_child_near hy) ?_
  refine Spec.call spec_setChild_far ({(y, elem s d w b e (some x))} + mb + mf) (by abel) ?_
  refine Spec.call hb ({(x, elem s c v a b up)} + {(y, elem s d w b e (some x))} + mf) (by abel) ?_
  refine Spec.bind (spec_parent hx') ?_
  refine Spec.call spec_setParent (mb' + {(x, elem s c v a b up)} + mf) (by abel) ?_
  refine Spec.call hf (mb' + {(x, elem s c v a b up)} + {(y, elem s d w b e up)}) (by abel) ?_
  refine Spec.call spec_setChild_near (mb' + {(x, elem s c v a b up)} + mf') (by abel) ?_
  have hend : Spec r' {(x, elem s c v a b up)} (setParent (some x) (some y)) () r'
      {(x, elem s c v a b (some y))} := spec_setParent
  convert hend.frame (mb' + {(y, elem s d w (some x) e up)} + mf') using 1 <;> abel

end Fields

end VmodCfg.Vtree
