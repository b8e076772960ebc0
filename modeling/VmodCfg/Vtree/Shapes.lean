import VmodCfg.Vtree.Cells

/-!
# The steps of the functions of `vtree.h`, on trees

What reading a field, changing a colour and rotating do to the whole tree, when
the element is anywhere in it.
-/

namespace VmodCfg.Vtree

open RedBlack RedBlack.RbTree Footprint

variable {P V α β : Type}

/-- The program makes the tree `t'` of the tree `t`. -/
def Does (t : RbTree (P × V)) (x : Prog P V α) (v : α) (t' : RbTree (P × V)) : Prop :=
  Spec (addr t) (cells none t) x v (addr t') (cells none t')

theorem focus_far (c : Color) (s : Side) (t : RbTree (P × V)) (a : P × V) (u : RbTree (P × V))
    (fs : List (Frame (P × V))) :
    plug (branch c s t a u) fs = plug u (⟨s.other, c, a, t⟩ :: fs) := by
  rw [plug, Frame.attach, branch_other]

/-- The elements of the tree are at different addresses. -/
def Distinct (t : RbTree (P × V)) : Prop := (t.toList.map Prod.fst).Nodup

theorem Distinct.congr {t t' : RbTree (P × V)} (h : Distinct t) (heq : t'.toList = t.toList) :
    Distinct t' := by
  rwa [Distinct, heq]

theorem Distinct.split_eq {t : RbTree (P × V)} {a : P × V} {xs xs' ys ys' : List (P × V)}
    (h : Distinct t) (heq : t.toList = xs ++ a :: ys) (heq' : t.toList = xs' ++ a :: ys') :
    xs' = xs ∧ ys' = ys := by
  have hnd : t.toList.Nodup := List.Nodup.of_map Prod.fst h
  rw [heq, List.nodup_middle, List.nodup_cons, List.mem_append, not_or] at hnd
  rw [heq] at heq'
  obtain ⟨rfl, -, rfl⟩ := (List.append_cons_inj_of_notMem hnd.1.1 hnd.1.2).mp heq'
  exact ⟨rfl, rfl⟩

theorem Distinct.plug {t : RbTree (P × V)} {fs : List (Frame (P × V))} (h : Distinct (plug t fs)) :
    ∀ p ∈ t.toList.map Prod.fst, p ∉ (before fs ++ after fs).map Prod.fst := by
  rw [Distinct, toList_plug, List.map_append, List.map_append] at h
  intro p hp hp'
  rw [List.map_append] at hp'
  obtain ⟨hleft, -, hright⟩ := List.nodup_append.mp h
  rcases List.mem_append.mp hp' with hb | ha
  · exact (List.nodup_append.mp hleft).2.2 p hb p hp rfl
  · exact hright p (List.mem_append.mpr (.inr hp)) p ha rfl

theorem Distinct.addr_ne_sibling {s : Side} {c : Color} {a : P × V} {t u : RbTree (P × V)}
    {fs : List (Frame (P × V))} (h : Distinct (RedBlack.plug t (⟨s, c, a, u⟩ :: fs))) {p : P}
    (hp : addr t = some p) : addr u ≠ some p := by
  intro hu
  obtain ⟨b, hb, rfl⟩ := Option.map_eq_some_iff.mp hp
  obtain ⟨b', hb', hbb⟩ := Option.map_eq_some_iff.mp hu
  refine h.plug b.1 (List.mem_map_of_mem (root?_mem hb)) ?_
  rw [← hbb]
  refine List.mem_map_of_mem ?_
  have hmem := root?_mem hb'
  cases s <;> simp [before, after, hmem]

theorem Distinct.addr_ne_root {f : Frame (P × V)} {t : RbTree (P × V)} {fs : List (Frame (P × V))}
    (h : Distinct (RedBlack.plug t (f :: fs))) : addr t ≠ addr (RedBlack.plug t (f :: fs)) := by
  intro heq
  have hmem : ∀ (p : P) (gs : List (Frame (P × V))) (g : Frame (P × V)),
      rootAddr (some p) (g :: gs) ∈ (before (g :: gs) ++ after (g :: gs)).map fun a => some a.1 := by
    intro p gs
    induction gs generalizing p with
    | nil =>
      intro g
      cases hs : g.side <;> simp [rootAddr, before, after, hs]
    | cons g' gs ih =>
      intro g
      have hin := ih g.label.1 g'
      rw [rootAddr]
      cases hs : g.side
      · simp only [before, after, hs, List.map_append, List.mem_append] at hin ⊢
        tauto
      · simp only [before, after, hs, List.map_append, List.mem_append] at hin ⊢
        tauto
  cases ht : addr t with
  | none =>
    rw [ht] at heq
    have hne : RedBlack.plug t (f :: fs) ≠ .nil := plug_ne_nil (branch_ne_nil _ _ _ _ _) fs
    exact hne (addr_eq_none.mp heq.symm)
  | some p =>
    obtain ⟨b, hb, rfl⟩ := Option.map_eq_some_iff.mp ht
    have hin := hmem b.1 fs f
    rw [← ht, ← addr_plug, ← heq, ht] at hin
    obtain ⟨a, ha, hab⟩ := List.mem_map.mp hin
    refine h.plug b.1 (List.mem_map_of_mem (root?_mem hb)) ?_
    rw [← Option.some.inj hab]
    exact List.mem_map_of_mem ha

/-- What is around a hole is at other addresses than what is in it. -/
theorem Distinct.not_mem_holeCells {t : RbTree (P × V)}
    {fs : List (Frame (P × V))} {p : P} {q : Option P} (h : Distinct (RedBlack.plug t fs))
    (hp : p ∈ t.toList.map Prod.fst) : p ∉ (holeCells q fs).map Prod.fst := by
  have hnd : ((cells none (RedBlack.plug t fs)).map Prod.fst).Nodup := by
    rw [map_fst_cells]
    exact Multiset.coe_nodup.mpr h
  rw [cells_plug, Multiset.map_add, Multiset.nodup_add] at hnd
  have hq : (holeCells q fs).map Prod.fst = (holeCells (addr t) fs).map Prod.fst := by
    cases fs <;> simp [holeCells]
  rw [hq]
  refine Multiset.disjoint_left.mp hnd.2.2 ?_
  rw [map_fst_cells]
  exact Multiset.mem_coe.mpr hp

namespace Does

variable {t t' t₁ u : RbTree (P × V)} {fs : List (Frame (P × V))} {x : Prog P V α}
  {k : α → Prog P V β} {v : α} {w : β} {a : P × V} {c : Color} {s : Side}

theorem pure : Does t (Pure.pure v : Prog P V α) v t := Spec.pure

theorem bind (hx : Does t x v t₁) (hk : Does t₁ (k v) w t') : Does t (x >>= k) w t' :=
  Spec.bind hx hk

theorem getRoot : Does t (getReg : Prog P V (Option P)) (addr t) t := Spec.getReg

theorem cell_mem (c : Color) (s : Side) (t : RbTree (P × V)) (a : P × V) (u : RbTree (P × V))
    (fs : List (Frame (P × V))) :
    (a.1, elem s c a.2 (addr t) (addr u) (parentAddr fs)) ∈
      cells none (plug (branch c s t a u) fs) := by
  rw [cells_plug, cells_branch]
  simp

theorem child_near : Does (plug (branch c s t a u) fs) (child s (some a.1)) (addr t)
    (plug (branch c s t a u) fs) :=
  spec_child_near (cell_mem ..)

theorem child_far : Does (plug (branch c s t a u) fs) (child s.other (some a.1)) (addr u)
    (plug (branch c s t a u) fs) :=
  spec_child_far (cell_mem ..)

theorem parent : Does (plug (branch c s t a u) fs) (parent (some a.1)) (parentAddr fs)
    (plug (branch c s t a u) fs) :=
  spec_parent (cell_mem ..)

theorem color : Does (plug (branch c s t a u) fs) (color (some a.1)) c
    (plug (branch c s t a u) fs) :=
  spec_color (cell_mem ..)

theorem data : Does (plug (branch c s t a u) fs) (data (some a.1)) a.2
    (plug (branch c s t a u) fs) :=
  spec_data (cell_mem ..)

theorem isRed : Does (plug t fs) (isRed (addr t)) (decide (t.color = .red)) (plug t fs) := by
  cases t with
  | nil => exact pure
  | node c l a r => exact bind (color (s := .left)) pure

theorem isRed_true (ht : t.color = .red) :
    Does (plug t fs) (Vtree.isRed (addr t)) true (plug t fs) := by
  have h : Does (plug t fs) (Vtree.isRed (addr t)) (decide (t.color = .red)) (plug t fs) := isRed
  rwa [decide_eq_true ht] at h

theorem isRed_false (ht : t.color = .black) :
    Does (plug t fs) (Vtree.isRed (addr t)) false (plug t fs) := by
  have h : Does (plug t fs) (Vtree.isRed (addr t)) (decide (t.color = .red)) (plug t fs) := isRed
  rwa [decide_eq_false (by simp [ht])] at h

variable [DecidableEq P]

theorem setColor {d : Color} : Does (plug (branch c s t a u) fs) (setColor (some a.1) d) ()
    (plug (branch d s t a u) fs) := by
  unfold Does
  simp only [addr_plug, cells_plug, addr_branch, cells_branch]
  convert spec_setColor.frame (cells (some a.1) t + cells (some a.1) u +
    holeCells (some a.1) fs) using 1 <;> abel

theorem setColorOf : Does (plug t fs) (setColorOf (addr t) .black) () (plug t.blacken fs) := by
  cases t with
  | nil => exact pure
  | node c l a r => exact setColor (s := .left)

theorem blackenRoot (ht : t ≠ .nil) :
    Does t (do Vtree.setColor (← getReg) .black) () t.blacken := by
  cases t with
  | nil => exact absurd rfl ht
  | node c l a r =>
    have hset : Does (plug (branch c .left l a r) []) (Vtree.setColor (some a.1) .black) ()
      (plug (branch .black .left l a r) []) := setColor
    exact bind getRoot hset

/-- **Rotation**. -/
theorem rotate {d : Color} {b : P × V} {near inner far : RbTree (P × V)}
    (h : Distinct (plug (branch c s near a (branch d s inner b far)) fs)) :
    Does (plug (branch c s near a (branch d s inner b far)) fs) (rotate s (some a.1)) ()
      (plug (branch d s (branch c s near a inner) b far) fs) := by
  have ha : a.1 ∉ (holeCells (some a.1) fs).map Prod.fst :=
    h.not_mem_holeCells (List.mem_map_of_mem (root?_mem (root?_branch ..)))
  unfold Does
  simp only [addr_plug, cells_plug, addr_branch, cells_branch]
  have hinner : Spec (rootAddr (some a.1) fs) (cells (some b.1) inner)
      (setParentOf (addr inner) (some a.1)) () (rootAddr (some a.1) fs)
      (cells (some a.1) inner) := spec_setParentOf
  have hrot := spec_rotate (s := s) (c := c) (v := a.2) (d := d) (w := b.2) (y := b.1)
    (a := addr near) (e := addr far) hinner (spec_replaceChild ha)
  convert hrot.frame (cells (some a.1) near + cells (some b.1) far) using 1 <;> abel

end Does

end VmodCfg.Vtree
