import VmodCfg.Vtree.Remove
import VmodCfg.Vtree.Walk

/-!
# `VRBT_REMOVE`, and the flush

An element with two children is taken out by way of the one that follows it,
which then takes its place. A flush removes and frees one element after the
other; the one that it goes on with was found before.
-/

namespace VmodCfg.Vtree

open RedBlack RedBlack.RbTree Footprint

variable {P V : Type} {l r t u : RbTree (P × V)} {fs : List (Frame (P × V))} {s : Side}
  {a m : P × V} {c : Color}

/-! ## What is left -/

/-- What taking out an element leaves: the tree that is now in the hole, and whether the way through
it lacks a black node. -/
def TakesOut (a : P × V) (t t' : RbTree (P × V)) (fs : List (Frame (P × V))) (c : Color) : Prop :=
  (∃ xs ys, t.toList = xs ++ a :: ys ∧ (plug t' fs).toList = xs ++ ys) ∧
    (c = .black → Lacks t' fs) ∧ (c = .red → ∃ n, Balanced (plug t' fs) .black n)

/-- The one that follows takes the place of an element: what is left is in order, and balanced or
lacks a node where it was. -/
theorem takesOut_next {ms : List (Frame (P × V))} {cm : Color} {rm : RbTree (P × V)} {n : Nat}
    (hms : ∀ f ∈ ms, f.side = .left)
    (hb : Balanced (plug (branch cm .left .nil m rm) (ms ++ ⟨.right, c, a, l⟩ :: fs)) .black n) :
    TakesOut a (plug (branch cm .left .nil m rm) (ms ++ ⟨.right, c, a, l⟩ :: fs)) rm
      (ms ++ ⟨.right, c, m, l⟩ :: fs) cm := by
  refine ⟨⟨before fs ++ l.toList, m :: rm.toList ++ after ms ++ after fs, ?_, ?_⟩, ?_, ?_⟩
  · rw [plug_append, plug, Frame.attach, toList_plug]
    simp [branch, toList, toList_plug, before_eq_nil hms]
  · rw [plug_append, plug, Frame.attach, toList_plug]
    simp [branch, toList, toList_plug, before_eq_nil hms]
  · exact fun hc => (hb.take_out.1 hc).relabel
  · intro hc
    obtain ⟨k, hk⟩ := hb.take_out.2 hc
    exact hk.relabel

/-! ## The removal -/

variable [DecidableEq P]

theorem spec_unlink (h : Distinct (plug (branch c s .nil a u) fs)) :
    Spec (addr (plug (branch c s .nil a u) fs)) (cells none (plug (branch c s .nil a u) fs))
      (unlink (some a.1) (addr u)) (parentAddr fs, addr u, c) (addr (plug u fs))
      ({(a.1, elem s c a.2 none (addr u) (parentAddr fs))} + cells none (plug u fs)) := by
  have ha : a.1 ∉ (holeCells (some a.1) fs).map Prod.fst :=
    h.not_mem_holeCells (List.mem_map_of_mem (root?_mem (root?_branch ..)))
  refine Spec.bind Does.parent (Spec.bind Does.color ?_)
  simp only [addr_plug, cells_plug, addr_branch, cells_branch, addr_nil]
  have hsub : Spec (rootAddr (some a.1) fs) (cells (some a.1) u)
      (setParentOf (addr u) (parentAddr fs)) () (rootAddr (some a.1) fs)
      (cells (parentAddr fs) u) := spec_setParentOf
  refine Spec.call hsub ({(a.1, elem s c a.2 none (addr u) (parentAddr fs))} +
    holeCells (some a.1) fs) ?_ ?_
  · simp only [cells]
    abel
  refine Spec.call (spec_replaceChild ha) ({(a.1, elem s c a.2 none (addr u) (parentAddr fs))} +
    cells (parentAddr fs) u) (by abel) ?_
  convert Spec.pure using 1
  abel

/-- An element takes the place of another, with what that does to the subtrees and to the link from
above as premises. -/
theorem spec_substitute {x y : P} {e : Elem P V} {v : V} {q q' rt rt' up : Option P}
    {ml ml' mr mr' mf mf' : Multiset (P × Elem P V)}
    (hf : Spec rt mf (replaceChild up (some y) (some x)) () rt' mf')
    (hl : Spec rt' ml (setParent q (some x)) () rt' ml')
    (hr : Spec rt' mr (setParentOf q' (some x)) () rt' mr') :
    Spec rt ({(x, e)} + {(y, elem .left c v q q' up)} + ml + mr + mf)
      (substitute (some x) (some y)) () rt'
      ({(x, elem .left c e.data q q' up)} + {(y, elem .left c v q q' up)} + ml' + mr' + mf') := by
  have hy : (y, elem .left c v q q' up) ∈
      ({(x, e)} + {(y, elem .left c v q q' up)} + ml + mr + mf : Multiset (P × Elem P V)) := by
    simp
  have hset : Spec rt {(x, e)} (setEntry (some x) ⟨q, q', up, c⟩) () rt
      {(x, elem .left c e.data q q' up)} := Spec.update
  refine Spec.bind (Spec.field (f := Elem.entry) hy) ?_
  refine Spec.call hset ({(y, elem .left c v q q' up)} + ml + mr + mf) (by abel) ?_
  have hy : (y, elem .left c v q q' up) ∈ ({(x, elem .left c e.data q q' up)} +
      ({(y, elem .left c v q q' up)} + ml + mr + mf) : Multiset (P × Elem P V)) := by simp
  refine Spec.bind (spec_parent hy) ?_
  refine Spec.call hf ({(x, elem .left c e.data q q' up)} + {(y, elem .left c v q q' up)} + ml + mr)
    (by abel) ?_
  have hy : (y, elem .left c v q q' up) ∈ (mf' + ({(x, elem .left c e.data q q' up)} +
      {(y, elem .left c v q q' up)} + ml + mr) : Multiset (P × Elem P V)) := by simp
  refine Spec.bind (spec_child_near (s := .left) hy) ?_
  refine Spec.call hl ({(x, elem .left c e.data q q' up)} + {(y, elem .left c v q q' up)} + mr + mf')
    (by abel) ?_
  have hy : (y, elem .left c v q q' up) ∈ (ml' + ({(x, elem .left c e.data q q' up)} +
      {(y, elem .left c v q q' up)} + mr + mf') : Multiset (P × Elem P V)) := by simp
  refine Spec.bind (spec_child_far (s := .left) hy) ?_
  convert hr.frame (ml' + {(x, elem .left c e.data q q' up)} + {(y, elem .left c v q q' up)} + mf')
    using 1 <;> abel

/-- Another element takes the place of one with a left child. -/
theorem spec_substitute_tree {e : Elem P V} (he : e.data = m.2) (hl : l ≠ .nil)
    (h : Distinct (plug (.node c l a r) fs)) :
    Spec (addr (plug (.node c l a r) fs)) ({(m.1, e)} + cells none (plug (.node c l a r) fs))
      (substitute (some m.1) (some a.1)) () (addr (plug (.node c l m r) fs))
      ({(a.1, elem .left c a.2 (addr l) (addr r) (parentAddr fs))} +
        cells none (plug (.node c l m r) fs)) := by
  have ha : a.1 ∉ (holeCells (some a.1) fs).map Prod.fst :=
    h.not_mem_holeCells (List.mem_map_of_mem (by simp [toList]))
  have hleft : Spec (rootAddr (some m.1) fs) (cells (some a.1) l) (setParent (addr l) (some m.1)) ()
      (rootAddr (some m.1) fs) (cells (some m.1) l) := by
    cases l with
    | nil => exact absurd rfl hl
    | node cl ll b rl => exact spec_setParentOf (t := .node cl ll b rl)
  have hright : Spec (rootAddr (some m.1) fs) (cells (some a.1) r)
      (setParentOf (addr r) (some m.1)) () (rootAddr (some m.1) fs) (cells (some m.1) r) :=
    spec_setParentOf
  have hsub := spec_substitute (e := e) (c := c) (v := a.2) (spec_replaceChild ha) hleft hright
  have hnode : ∀ b : P × V, node c l b r = branch c .left l b r := fun b => rfl
  simp only [hnode, addr_plug, cells_plug, addr_branch, cells_branch]
  rw [he] at hsub
  convert hsub using 1 <;> abel

/-- An element with one child, at most. -/
theorem spec_detach_one {n : Nat} (hb : Balanced (plug (branch c s .nil a u) fs) .black n)
    (h : Distinct (plug (branch c s .nil a u) fs)) :
    TakesOut a (plug (branch c s .nil a u) fs) u fs c ∧
      Spec (addr (plug (branch c s .nil a u) fs)) (cells none (plug (branch c s .nil a u) fs))
        (unlink (some a.1) (addr u)) (parentAddr fs, addr u, c) (addr (plug u fs))
        ({(a.1, elem s c a.2 none (addr u) (parentAddr fs))} + cells none (plug u fs)) := by
  refine ⟨⟨?_, hb.take_out⟩, spec_unlink h⟩
  cases s with
  | left =>
    refine ⟨before fs, u.toList ++ after fs, ?_, ?_⟩
    · simp [branch, toList_plug, toList]
    · simp [toList_plug]
  | right =>
    refine ⟨before fs ++ u.toList, after fs, ?_, ?_⟩
    · simp [branch, toList_plug, toList]
    · simp [toList_plug]

/-- What the removal goes on with: the parent of the element that was unlinked, or that element when
its parent was the one to be removed. -/
theorem parentAddr_relabel {ms : List (Frame (P × V))} {w : RbTree (P × V)}
    (h : ∀ f ∈ ms, f.label.1 ≠ a.1) :
    (if parentAddr (ms ++ ⟨s, c, a, w⟩ :: fs) = some a.1 then some m.1
      else parentAddr (ms ++ ⟨s, c, a, w⟩ :: fs)) = parentAddr (ms ++ ⟨s, c, m, w⟩ :: fs) := by
  cases ms with
  | nil => exact if_pos rfl
  | cons f ms =>
    refine if_neg fun heq => ?_
    exact h f List.mem_cons_self (Option.some.inj heq)

/-- An element with two children: the one that follows it takes its place. -/
theorem spec_detach_two {bound n : Nat} (hbound : r.height ≤ bound) (hl : l ≠ .nil)
    (hr : r ≠ .nil) (hb : Balanced (plug (.node c l a r) fs) .black n)
    (h : Distinct (plug (.node c l a r) fs)) :
    ∃ t' fs' c' e, e.data = a.2 ∧ TakesOut a (plug (.node c l a r) fs) t' fs' c' ∧
      Spec (addr (plug (.node c l a r) fs)) (cells none (plug (.node c l a r) fs))
        (unlinkNext bound (some a.1)) (parentAddr fs', addr t', c') (addr (plug t' fs'))
        ({(a.1, e)} + cells none (plug t' fs')) := by
  have hright : Does (plug (.node c l a r) fs) (right (some a.1)) (addr r)
      (plug (.node c l a r) fs) := Does.child_far (s := .left)
  obtain ⟨ms, cm, m, rm, rfl, hms, hdown⟩ : ∃ ms cm m rm, r = plug (.node cm .nil m rm) ms ∧
      (∀ f ∈ ms, f.side = .left) ∧
      Does (plug r (⟨.right, c, a, l⟩ :: fs)) (leftmost bound (addr r)) (some m.1) _ :=
    Does.leftmost hbound hr
  -- the same tree, seen from the element that follows
  have hview : ∀ (t : RbTree (P × V)) (b : P × V), plug (.node c l b (plug t ms)) fs =
      plug t (ms ++ ⟨.right, c, b, l⟩ :: fs) := by
    intro t b
    rw [plug_append]
    rfl
  have hview' : plug (.node c l a (plug (.node cm .nil m rm) ms)) fs =
      plug (branch cm .left .nil m rm) (ms ++ ⟨.right, c, a, l⟩ :: fs) := hview _ a
  have hchild : Does (plug (.node c l a (plug (.node cm .nil m rm) ms)) fs) (right (some m.1))
      (addr rm) (plug (.node c l a (plug (.node cm .nil m rm) ms)) fs) := by
    rw [hview']
    exact Does.child_far (s := .left)
  have hlabel : ∀ f ∈ ms, f.label.1 ≠ a.1 := by
    intro f hf heq
    have hin : f.label ∈ (plug (.node cm .nil m rm) ms).toList := by
      have hmem := label_mem hf
      simp only [toList_plug, List.mem_append] at hmem ⊢
      tauto
    have h' : Distinct (plug (plug (.node cm .nil m rm) ms) (⟨.right, c, a, l⟩ :: fs)) := h
    have hnot : f.label.1 ∉ (before (⟨.right, c, a, l⟩ :: fs) ++
        after (⟨.right, c, a, l⟩ :: fs)).map Prod.fst :=
      Distinct.plug h' _ (List.mem_map_of_mem hin)
    rw [heq] at hnot
    simp [before] at hnot
  rw [hview'] at hb h
  -- without the element that follows, the others are still at different addresses
  have hdist : Distinct (plug (.node c l a (plug rm ms)) fs) := by
    rw [hview]
    have hsub : (plug rm (ms ++ ⟨.right, c, a, l⟩ :: fs)).toList.Sublist
        (plug (branch cm .left .nil m rm) (ms ++ ⟨.right, c, a, l⟩ :: fs)).toList := by
      simp [toList_plug, branch, toList]
    exact (hsub.map Prod.fst).nodup h
  have hsub := spec_substitute_tree (m := m) (c := c)
    (e := elem .left cm m.2 none (addr rm) (parentAddr (ms ++ ⟨.right, c, a, l⟩ :: fs))) rfl hl hdist
  refine ⟨rm, ms ++ ⟨.right, c, m, l⟩ :: fs, cm, elem .left c a.2 (addr l) (addr (plug rm ms))
    (parentAddr fs), rfl, ?_, ?_⟩
  · rw [hview']
    exact takesOut_next hms hb
  refine Spec.bind hright (Spec.bind hdown (Spec.bind hchild ?_))
  rw [hview']
  refine Spec.bind (spec_unlink h) ?_
  refine Spec.bind (spec_parent (show (m.1, elem .left cm m.2 none (addr rm)
    (parentAddr (ms ++ ⟨.right, c, a, l⟩ :: fs))) ∈ _ by simp)) ?_
  rw [← hview, ← hview]
  refine Spec.bind hsub ?_
  rw [parentAddr_relabel hlabel]
  exact Spec.pure

/-- The element is taken out, whatever children it has. -/
theorem spec_detach {bound n : Nat} (hbound : (plug (.node c l a r) fs).toList.length ≤ bound)
    (hb : Balanced (plug (.node c l a r) fs) .black n) (h : Distinct (plug (.node c l a r) fs)) :
    ∃ t' fs' c' e, e.data = a.2 ∧ TakesOut a (plug (.node c l a r) fs) t' fs' c' ∧
      Spec (addr (plug (.node c l a r) fs)) (cells none (plug (.node c l a r) fs))
        (detach bound (some a.1)) (parentAddr fs', addr t', c') (addr (plug t' fs'))
        ({(a.1, e)} + cells none (plug t' fs')) := by
  have hleft : Does (plug (.node c l a r) fs) (left (some a.1)) (addr l)
      (plug (.node c l a r) fs) := Does.child_near (s := .left)
  have hright : Does (plug (.node c l a r) fs) (right (some a.1)) (addr r)
      (plug (.node c l a r) fs) := Does.child_far (s := .left)
  cases l with
  | nil =>
    obtain ⟨htakes, hspec⟩ := spec_detach_one (s := .left) hb h
    refine ⟨r, fs, c, _, ?_, htakes, Spec.bind hleft (Spec.bind hright hspec)⟩
    rfl
  | node cl ll b rl =>
    cases r with
    | nil =>
      obtain ⟨htakes, hspec⟩ := spec_detach_one (s := .right) hb h
      refine ⟨.node cl ll b rl, fs, c, _, ?_, htakes, Spec.bind hleft (Spec.bind hright hspec)⟩
      rfl
    | node cr lr d rr =>
      have hheight : (node cr lr d rr).height ≤ bound := by
        refine (height_le_length _).trans (le_trans ?_ hbound)
        rw [toList_plug_node]
        simp only [List.length_append, List.length_cons]
        omega
      obtain ⟨t', fs', c', e, he, htakes, hspec⟩ := spec_detach_two hheight (by simp) (by simp) hb h
      exact ⟨t', fs', c', e, he, htakes, Spec.bind hleft (Spec.bind hright hspec)⟩

/-- **`VRBT_REMOVE`**, for an element of a red-black tree: the others stay as they were, in a
red-black tree. -/
theorem spec_remove {bound n : Nat} (hbound : t.toList.length < bound) (ha : a ∈ t.toList)
    (hb : Balanced t .black n) (h : Distinct t) :
    ∃ v m e xs ys, e.data = a.2 ∧ Balanced v .black m ∧ t.toList = xs ++ a :: ys ∧
      v.toList = xs ++ ys ∧
      Spec (addr t) (cells none t) (remove bound (some a.1)) () (addr v)
        ({(a.1, e)} + cells none v) := by
  obtain ⟨c, l, r, fs, rfl⟩ := exists_focus ha
  obtain ⟨t', fs', c', e, he, ⟨⟨xs, ys, heq, heq'⟩, hlacks, hred⟩, hspec⟩ :=
    spec_detach (Nat.le_of_lt hbound) hb h
  cases c' with
  | red =>
    obtain ⟨m, hm⟩ := hred rfl
    exact ⟨plug t' fs', m, e, xs, ys, he, hm, heq, heq', Spec.bind hspec Spec.pure⟩
  | black =>
    have hlen : fs'.length + 1 < bound := by
      have hsize := length_le_toList t' fs'
      rw [heq', List.length_append] at hsize
      rw [heq, List.length_append, List.length_cons] at hbound
      omega
    have hdist : Distinct (plug t' fs') := by
      have hsub : (plug t' fs').toList.Sublist (plug (.node c l a r) fs).toList := by
        rw [heq, heq']
        simp
      exact (hsub.map Prod.fst).nodup h
    obtain ⟨v, hfix, hdoes⟩ := Does.removeColor hlen (hlacks rfl) hdist
    obtain ⟨m, hm⟩ := hfix.balanced (hlacks rfl)
    have hend := Spec.frame hdoes {(a.1, e)}
    rw [add_comm, add_comm (cells none v)] at hend
    exact ⟨v, m, e, xs, ys, he, hm, heq, hfix.toList_eq.trans heq', Spec.bind hspec hend⟩

/-! ## The flush -/

theorem Does.flushFrom {bound turns n : Nat} (hbound : t.toList.length < bound)
    (hturns : t.toList.length < turns) (hb : Balanced t .black n) (h : Distinct t) :
    Does t (flushFrom bound turns (t.toList.head?.map Prod.fst)) () .nil := by
  induction turns generalizing t n with
  | zero => omega
  | succ turns ih =>
    cases hlist : t.toList with
    | nil =>
      cases toList_eq_nil_iff.mp hlist
      exact Does.pure
    | cons a rest =>
      rw [hlist, List.length_cons] at hturns
      obtain ⟨c, l, r, fs, rfl⟩ := exists_focus (t := t) (a := a) (by simp [hlist])
      have hfirst : (plug (.node c l a r) fs).toList = [] ++ a :: rest := hlist
      obtain ⟨-, hafter⟩ := h.split_eq hfirst (toList_plug_node ..)
      have hnext := Does.next hbound h
      rw [hafter] at hnext
      obtain ⟨v, m, e, xs, ys, -, hm, heq, hv, hspec⟩ :=
        spec_remove (a := a) hbound (by simp [hlist]) hb h
      obtain ⟨rfl, rfl⟩ := h.split_eq hfirst heq
      have hdist : Distinct v := by
        rw [Distinct, hv]
        have hnd := h
        rw [Distinct, hlist, List.map_cons, List.nodup_cons] at hnd
        exact hnd.2
      rw [hlist, List.length_cons] at hbound
      rw [List.nil_append] at hv
      have hrest := ih (t := v) (by rw [hv]; omega) (by rw [hv]; omega) hm hdist
      rw [hv] at hrest
      refine Does.bind hnext (Spec.bind hspec ?_)
      refine Spec.call Spec.free (cells none v) rfl ?_
      rw [zero_add]
      exact hrest

/-- **`flush_global_variables`** frees every element of a red-black tree, and what it leaves is the
empty tree. -/
theorem Does.flush {bound n : Nat} (hbound : t.toList.length < bound) (hb : Balanced t .black n)
    (h : Distinct t) : Does t (flush bound) () .nil := by
  have hmin : Does t (Vtree.minimum bound) (t.toList.head?.map Prod.fst) t :=
    Does.minimum (Nat.lt_of_le_of_lt (height_le_length t) hbound)
  exact Does.bind hmin (Does.flushFrom hbound hbound hb h)

end VmodCfg.Vtree
