import VmodCfg.Vtree.Shapes

/-!
# `VRBT_MIN`, `VRBT_NEXT` and `VRBT_FOREACH`

The labels in order are what the walk visits: each step of it goes from one to
the next.
-/

namespace VmodCfg.Vtree

open RedBlack RedBlack.RbTree Footprint

variable {P V : Type} {t l r : RbTree (P × V)} {fs : List (Frame (P × V))} {a : P × V} {c : Color}

/-- The way down on the left: where it ends, nothing of the tree is before. -/
theorem Does.leftmost {bound : Nat} (hbound : t.height ≤ bound) (ht : t ≠ .nil) :
    ∃ ms cm m rm, t = plug (.node cm .nil m rm) ms ∧ (∀ f ∈ ms, f.side = .left) ∧
      Does (plug t fs) (leftmost bound (addr t)) (some m.1) (plug t fs) := by
  induction t generalizing fs bound with
  | nil => exact absurd rfl ht
  | node c l a r ihl ihr =>
    simp only [height] at hbound
    obtain ⟨bound, rfl⟩ : ∃ n, bound = n + 1 := ⟨bound - 1, by omega⟩
    have hleft : Does (plug (.node c l a r) fs) (left (some a.1)) (addr l)
        (plug (.node c l a r) fs) := Does.child_near (s := .left)
    cases l with
    | nil => exact ⟨[], c, a, r, rfl, by simp, Does.bind hleft Does.pure⟩
    | node cl ll b rl =>
      obtain ⟨ms, cm, m, rm, heq, hms, hdoes⟩ :
          ∃ ms cm m rm, .node cl ll b rl = plug (.node cm .nil m rm) ms ∧
            (∀ f ∈ ms, f.side = .left) ∧
            Does (plug (.node cl ll b rl) (⟨.left, c, a, r⟩ :: fs)) _ (some m.1) _ :=
        ihl (show _ ≤ bound by omega) (by simp)
      refine ⟨ms ++ [⟨.left, c, a, r⟩], cm, m, rm, ?_, ?_, Does.bind hleft hdoes⟩
      · rw [plug_append, ← heq]
        rfl
      · intro f hf
        rcases List.mem_append.mp hf with hf | hf
        · exact hms f hf
        · rw [List.mem_singleton.mp hf]

theorem head?_of_leftmost {ms : List (Frame (P × V))} {cm : Color} {m : P × V}
    {rm : RbTree (P × V)} (heq : t = plug (.node cm .nil m rm) ms)
    (hms : ∀ f ∈ ms, f.side = .left) : t.toList.head? = some m := by
  rw [heq, toList_plug, before_eq_nil hms]
  simp [toList]

theorem Does.minFrom {bound : Nat} (hbound : t.height < bound) :
    Does (plug t fs) (minFrom bound (addr t) (parentAddr fs))
      ((t.toList.head?.map Prod.fst).or (parentAddr fs)) (plug t fs) := by
  induction t generalizing fs bound with
  | nil =>
    obtain ⟨bound, rfl⟩ : ∃ n, bound = n + 1 := ⟨bound - 1, by omega⟩
    exact Does.pure
  | node c l a r ihl ihr =>
    simp only [height] at hbound
    obtain ⟨bound, rfl⟩ : ∃ n, bound = n + 1 := ⟨bound - 1, by omega⟩
    have h : Does (plug l (⟨.left, c, a, r⟩ :: fs)) _ _ _ := ihl (show l.height < bound by omega)
    have hval : (l.toList.head?.map Prod.fst).or (parentAddr (⟨.left, c, a, r⟩ :: fs)) =
        ((node c l a r).toList.head?.map Prod.fst).or (parentAddr fs) := by
      cases hl : l.toList <;> simp [toList, hl]
    rw [hval] at h
    exact Does.bind (Does.child_near (s := .left)) h

/-- **`VRBT_MIN`** -/
theorem Does.minimum {bound : Nat} (hbound : t.height < bound) :
    Does t (minimum bound) (t.toList.head?.map Prod.fst) t := by
  have h : Does (plug t []) (Vtree.minFrom bound (addr t) (parentAddr [])) _ (plug t []) :=
    Does.minFrom hbound
  rw [show parentAddr ([] : List (Frame (P × V))) = none from rfl, Option.or_none] at h
  exact Does.bind Does.getRoot h

variable [DecidableEq P]

/-- The way up from an element that nothing in its tree is after. -/
theorem Does.climb {bound : Nat} {p : P} (hbound : fs.length < bound) (hp : addr t = some p)
    (h : Distinct (plug t fs)) :
    Does (plug t fs) (climb bound (some p)) ((after fs).head?.map Prod.fst) (plug t fs) := by
  induction fs generalizing t p bound with
  | nil =>
    obtain ⟨bound, rfl⟩ : ∃ n, bound = n + 1 := ⟨bound - 1, by omega⟩
    cases t with
    | nil => cases hp
    | node c l a r =>
      cases hp
      exact Does.bind (Does.parent (s := .left)) Does.pure
  | cons f fs ih =>
    obtain ⟨s, cf, b, w⟩ := f
    rw [List.length_cons] at hbound
    obtain ⟨bound, rfl⟩ : ∃ n, bound = n + 1 := ⟨bound - 1, by omega⟩
    have hparent : Does (plug t (⟨s, cf, b, w⟩ :: fs)) (Vtree.parent (some p)) (some b.1)
        (plug t (⟨s, cf, b, w⟩ :: fs)) := by
      cases t with
      | nil => cases hp
      | node c l a r =>
        cases hp
        exact Does.parent (s := .left)
    refine Does.bind hparent ?_
    cases s with
    | left =>
      have hright : Does (plug t (⟨.left, cf, b, w⟩ :: fs)) (right (some b.1)) (addr w)
          (plug t (⟨.left, cf, b, w⟩ :: fs)) := Does.child_far (s := .left)
      refine Does.bind hright ?_
      rw [if_neg (h.addr_ne_sibling hp)]
      exact Does.pure
    | right =>
      have hright : Does (plug t (⟨.right, cf, b, w⟩ :: fs)) (right (some b.1)) (addr t)
          (plug t (⟨.right, cf, b, w⟩ :: fs)) := Does.child_near (s := .right)
      refine Does.bind hright ?_
      rw [if_pos hp]
      exact ih (by omega) (addr_branch ..) h

/-- **`VRBT_NEXT`**: the element that follows, or NULL after the last. -/
theorem Does.next {bound : Nat} (hbound : (plug (.node c l a r) fs).toList.length < bound)
    (h : Distinct (plug (.node c l a r) fs)) :
    Does (plug (.node c l a r) fs) (next bound (some a.1))
      ((r.toList ++ after fs).head?.map Prod.fst) (plug (.node c l a r) fs) := by
  have hsize := length_le_toList (.node c l a r) fs
  simp only [toList, List.length_append, List.length_cons] at hsize
  have hright : Does (plug (.node c l a r) fs) (right (some a.1)) (addr r)
      (plug (.node c l a r) fs) := Does.child_far (s := .left)
  refine Does.bind hright ?_
  cases r with
  | node cr lr b rr =>
    have hheight := height_le_length (.node cr lr b rr)
    simp only [toList, List.length_append, List.length_cons] at hheight hsize
    obtain ⟨ms, cm, m, rm, heq, hms, hdoes⟩ : ∃ ms cm m rm,
        .node cr lr b rr = plug (.node cm .nil m rm) ms ∧ (∀ f ∈ ms, f.side = .left) ∧
        Does (plug (.node cr lr b rr) (⟨.right, c, a, l⟩ :: fs)) (Vtree.leftmost bound _)
          (some m.1) _ := Does.leftmost (by omega) (by simp)
    have hhead := head?_of_leftmost heq hms
    rw [List.head?_append, hhead]
    exact hdoes
  | nil =>
    have hclimb : Does (plug (.node c l a .nil) fs) (Vtree.climb bound (some a.1))
        ((after fs).head?.map Prod.fst) (plug (.node c l a .nil) fs) :=
      Does.climb (by omega) rfl h
    refine Does.bind (Does.parent (s := .left)) ?_
    cases fs with
    | nil => exact hclimb
    | cons f fs =>
      obtain ⟨s, cf, b, w⟩ := f
      cases s with
      | left =>
        have hleft : Does (plug (.node c l a .nil) (⟨.left, cf, b, w⟩ :: fs)) (left (some b.1))
            (some a.1) (plug (.node c l a .nil) (⟨.left, cf, b, w⟩ :: fs)) :=
          Does.child_near (s := .left) (t := .node c l a .nil) (u := w)
        refine Does.bind hleft ?_
        rw [if_pos rfl]
        exact Does.pure
      | right =>
        have hleft : Does (plug (.node c l a .nil) (⟨.right, cf, b, w⟩ :: fs)) (left (some b.1))
            (addr w) (plug (.node c l a .nil) (⟨.right, cf, b, w⟩ :: fs)) :=
          Does.child_far (s := .right) (t := .node c l a .nil) (u := w)
        refine Does.bind hleft ?_
        rw [if_neg (h.addr_ne_sibling rfl)]
        exact hclimb

theorem Does.walkFrom {bound turns : Nat} (hbound : t.toList.length < bound) (h : Distinct t)
    {xs ys : List (P × V)} (heq : t.toList = xs ++ ys) (hturns : ys.length < turns) :
    Does t (walkFrom bound turns (ys.head?.map Prod.fst)) (ys.map Prod.snd) t := by
  induction ys generalizing xs turns with
  | nil =>
    obtain ⟨turns, rfl⟩ : ∃ n, turns = n + 1 := ⟨turns - 1, by simp at hturns; omega⟩
    exact Does.pure
  | cons a ys ih =>
    rw [List.length_cons] at hturns
    obtain ⟨turns, rfl⟩ : ∃ n, turns = n + 1 := ⟨turns - 1, by omega⟩
    obtain ⟨c, l, r, fs, rfl⟩ := exists_focus (t := t) (a := a) (by simp [heq])
    obtain ⟨-, hafter⟩ := h.split_eq heq (toList_plug_node ..)
    have hnext := Does.next hbound h
    rw [hafter] at hnext
    refine Does.bind (Does.data (s := .left)) (Does.bind hnext ?_)
    have hrest : (plug (.node c l a r) fs).toList = (xs ++ [a]) ++ ys := by simp [heq]
    refine Does.bind (ih hrest (by omega)) Does.pure

/-- **`VRBT_FOREACH`** visits every element once, in order. -/
theorem Does.walk {bound : Nat} (hbound : t.toList.length < bound) (h : Distinct t) :
    Does t (walk bound) (t.toList.map Prod.snd) t := by
  have hmin : Does t (Vtree.minimum bound) (t.toList.head?.map Prod.fst) t :=
    Does.minimum (Nat.lt_of_le_of_lt (height_le_length t) hbound)
  exact Does.bind hmin (Does.walkFrom hbound h (List.nil_append _).symm hbound)

end VmodCfg.Vtree
