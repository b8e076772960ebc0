import VmodCfg.Vtree.Insert

/-!
# `VRBT_REMOVE`

The loop that goes up makes the tree that the rules of `RemoveFix` make. An
element with two children is taken out by way of the element that follows it.
-/

namespace VmodCfg.Vtree

open RedBlack RedBlack.RbTree Footprint

variable {P V : Type} {t p q m : RbTree (P × V)} {fs : List (Frame (P × V))} {s : Side}
  {a b x : P × V} {c d : Color}

theorem Does.childrenBlack :
    Does (plug (branch d s p b q) fs) (childrenBlack (some b.1))
      (!(decide (p.color = .red) || decide (q.color = .red))) (plug (branch d s p b q) fs) := by
  -- the left child is looked at first, whatever the side
  have hnode : ∀ l r : RbTree (P × V), Does (plug (.node d l b r) fs)
      (Vtree.childrenBlack (some b.1)) (!(decide (l.color = .red) || decide (r.color = .red)))
      (plug (.node d l b r) fs) := by
    intro l r
    unfold Vtree.childrenBlack
    refine Does.bind (Does.child_near (s := .left)) ?_
    have hl : Does (plug l (⟨.left, d, b, r⟩ :: fs)) (Vtree.isRed (addr l))
        (decide (l.color = .red)) (plug l (⟨.left, d, b, r⟩ :: fs)) := Does.isRed
    have hr : Does (plug r (⟨.right, d, b, l⟩ :: fs)) (Vtree.isRed (addr r))
        (decide (r.color = .red)) (plug r (⟨.right, d, b, l⟩ :: fs)) := Does.isRed
    refine Does.bind hl ?_
    cases decide (l.color = .red) with
    | true => exact Does.pure
    | false => exact Does.bind (Does.child_far (s := .left)) (Does.bind hr Does.pure)
  cases s with
  | left => exact hnode p q
  | right =>
    rw [Bool.or_comm]
    exact hnode q p

theorem Does.childrenBlack_true (hp : p.color = .black) (hq : q.color = .black) :
    Does (plug (branch c s t a (branch d s p b q)) fs) (Vtree.childrenBlack (some b.1)) true
      (plug (branch c s t a (branch d s p b q)) fs) := by
  have h : Does (plug (branch d s p b q) (⟨s.other, c, a, t⟩ :: fs)) _ _ _ := Does.childrenBlack
  rwa [hp, hq, ← focus_far] at h

theorem Does.childrenBlack_false (hpq : p.color = .red ∨ q.color = .red) :
    Does (plug (branch c s t a (branch d s p b q)) fs) (Vtree.childrenBlack (some b.1)) false
      (plug (branch c s t a (branch d s p b q)) fs) := by
  have h : Does (plug (branch d s p b q) (⟨s.other, c, a, t⟩ :: fs)) _ _ _ := Does.childrenBlack
  have hval : (!(decide (p.color = .red) || decide (q.color = .red))) = false := by
    rcases hpq with h | h <;> simp [h]
  rwa [hval, ← focus_far] at h

variable [DecidableEq P]

/-! ## The way up -/

theorem Does.setBlackRed_far :
    Does (plug (branch c s t a (branch d s p b q)) fs) (Vtree.setBlackRed (some b.1) (some a.1)) ()
      (plug (branch .red s t a (branch .black s p b q)) fs) := by
  have h : Does (plug (branch c s.other (branch d s p b q) a t) fs)
      (Vtree.setBlackRed (some b.1) (some a.1)) ()
      (plug (branch .red s.other (branch .black s p b q) a t) fs) := Does.setBlackRed
  rwa [branch_other, branch_other] at h

theorem Does.blackSibling_red (h : Distinct (plug (branch c s t a (branch .red s p b q)) fs)) :
    Does (plug (branch c s t a (branch .red s p b q)) fs)
      (blackSibling s (some a.1) (some b.1)) (addr p)
      (plug (branch .black s (branch .red s t a p) b q) fs) := by
  unfold blackSibling
  have hcolor : Does (plug (branch c s t a (branch .red s p b q)) fs) (Vtree.color (some b.1)) .red
      (plug (branch c s t a (branch .red s p b q)) fs) := by
    rw [focus_far]
    exact Does.color
  refine Does.bind hcolor ?_
  rw [if_pos rfl]
  refine Does.bind Does.setBlackRed_far (Does.bind (Does.rotate ?_) ?_)
  · refine h.congr (toList_plug_congr (toList_branch_congr _ _ rfl ?_) fs)
    exact toList_branch_congr _ _ rfl rfl
  · have hfar : Does (plug (branch .red s t a p) (⟨s, .black, b, q⟩ :: fs))
        (child s.other (some a.1)) (addr p)
        (plug (branch .red s t a p) (⟨s, .black, b, q⟩ :: fs)) := Does.child_far
    exact hfar

theorem Does.blackSibling_black :
    Does (plug (branch c s t a (branch .black s p b q)) fs)
      (blackSibling s (some a.1) (some b.1)) (some b.1)
      (plug (branch c s t a (branch .black s p b q)) fs) := by
  unfold blackSibling
  rw [focus_far]
  refine Does.bind Does.color ?_
  rw [if_neg (by simp)]
  exact Does.pure

/-- No red child: the sibling becomes red, and the loop goes on. -/
theorem Does.black_recolor (hp : p.color = .black) (hq : q.color = .black) :
    Does (plug (branch c s t a (branch .black s p b q)) fs)
      (removeColorBlack s (some a.1) (some b.1)) true
      (plug (branch c s t a (branch .red s p b q)) fs) := by
  unfold removeColorBlack
  refine Does.bind (Does.childrenBlack_true hp hq) ?_
  rw [if_pos rfl]
  have hset : Does (plug (branch .black s p b q) (⟨s.other, c, a, t⟩ :: fs))
      (Vtree.setColor (some b.1) .red) ()
      (plug (branch .red s p b q) (⟨s.other, c, a, t⟩ :: fs)) := Does.setColor
  rw [← focus_far, ← focus_far] at hset
  exact Does.bind hset Does.pure

theorem Does.redFar_red {w : RbTree (P × V)} (hq : q.color = .red) :
    Does (plug (branch c s t a (branch d s w b q)) fs)
      (redFar s (some a.1) (some b.1)) (some b.1)
      (plug (branch c s t a (branch d s w b q)) fs) := by
  unfold redFar
  rw [focus_far]
  refine Does.bind Does.child_far ?_
  rw [focus_far]
  refine Does.bind (Does.isRed_true hq) ?_
  rw [if_pos rfl]
  exact Does.pure

/-- The near child of the sibling takes its place. -/
theorem Does.redFar_black (hq : q.color = .black)
    (h : Distinct (plug (branch c s t a (branch d s (branch .red s p x m) b q)) fs)) :
    Does (plug (branch c s t a (branch d s (branch .red s p x m) b q)) fs)
      (redFar s (some a.1) (some b.1)) (some x.1)
      (plug (branch c s t a (branch .black s p x (branch .red s m b q))) fs) := by
  unfold redFar
  rw [focus_far]
  refine Does.bind Does.child_far ?_
  have hred : Does (plug q (⟨s.other, d, b, branch .red s p x m⟩ :: ⟨s.other, c, a, t⟩ :: fs))
      (Vtree.isRed (addr q)) false
      (plug q (⟨s.other, d, b, branch .red s p x m⟩ :: ⟨s.other, c, a, t⟩ :: fs)) :=
    Does.isRed_false hq
  rw [← focus_far] at hred
  refine Does.bind hred ?_
  rw [if_neg Bool.false_ne_true]
  refine Does.bind Does.child_near ?_
  have hnear : Does (plug (branch .red s p x m) (⟨s, d, b, q⟩ :: ⟨s.other, c, a, t⟩ :: fs))
      (Vtree.setColorOf (addr (branch .red s p x m)) .black) ()
      (plug (branch .red s p x m).blacken (⟨s, d, b, q⟩ :: ⟨s.other, c, a, t⟩ :: fs)) :=
    Does.setColorOf
  rw [blacken_branch] at hnear
  have hset : Does (plug (branch d s (branch .black s p x m) b q) (⟨s.other, c, a, t⟩ :: fs))
      (Vtree.setColor (some b.1) .red) ()
      (plug (branch .red s (branch .black s p x m) b q) (⟨s.other, c, a, t⟩ :: fs)) := Does.setColor
  refine Does.bind hnear (Does.bind hset ?_)
  have hrot : Does
      (plug (branch .red s.other q b (branch .black s.other m x p)) (⟨s.other, c, a, t⟩ :: fs))
      (Vtree.rotate s.other (some b.1)) ()
      (plug (branch .black s.other (branch .red s.other q b m) x p) (⟨s.other, c, a, t⟩ :: fs)) := by
    apply Does.rotate
    rw [← focus_far]
    refine h.congr (toList_plug_congr (toList_branch_congr _ _ rfl ?_) fs)
    rw [branch_other, branch_other]
    exact toList_branch_congr _ _ (toList_branch_congr _ _ rfl rfl) rfl
  simp only [branch_other] at hrot
  refine Does.bind hrot ?_
  rw [← focus_far]
  have hfar : Does (plug (branch c s t a (branch .black s p x (branch .red s m b q))) fs)
      (child s.other (some a.1)) (addr (branch .black s p x (branch .red s m b q)))
      (plug (branch c s t a (branch .black s p x (branch .red s m b q))) fs) := Does.child_far
  rwa [addr_branch] at hfar

theorem Does.settle
    (h : Distinct (plug (branch c s t a (branch d s p b q)) fs)) :
    Does (plug (branch c s t a (branch d s p b q)) fs) (settle s (some a.1) (some b.1)) ()
      (plug (branch c s (branch .black s t a p) b q.blacken) fs) := by
  unfold Vtree.settle
  refine Does.bind Does.color ?_
  have hset : Does (plug (branch d s p b q) (⟨s.other, c, a, t⟩ :: fs))
      (Vtree.setColor (some b.1) c) ()
      (plug (branch c s p b q) (⟨s.other, c, a, t⟩ :: fs)) := Does.setColor
  rw [← focus_far, ← focus_far] at hset
  refine Does.bind hset (Does.bind Does.setColor ?_)
  have hfar : Does (plug (branch c s p b q) (⟨s.other, .black, a, t⟩ :: fs))
      (child s.other (some b.1)) (addr q)
      (plug (branch c s p b q) (⟨s.other, .black, a, t⟩ :: fs)) := Does.child_far
  have hblack : Does (plug q (⟨s.other, c, b, p⟩ :: ⟨s.other, .black, a, t⟩ :: fs))
      (Vtree.setColorOf (addr q) .black) ()
      (plug q.blacken (⟨s.other, c, b, p⟩ :: ⟨s.other, .black, a, t⟩ :: fs)) := Does.setColorOf
  simp only [← focus_far] at hfar hblack
  refine Does.bind hfar (Does.bind hblack (Does.rotate ?_))
  refine h.congr (toList_plug_congr (toList_branch_congr _ _ rfl ?_) fs)
  exact toList_branch_congr _ _ rfl (toList_blacken q)

/-- A red child on the far side: the sibling goes up. -/
theorem Does.black_far (hq : q.color = .red)
    (h : Distinct (plug (branch c s t a (branch .black s p b q)) fs)) :
    Does (plug (branch c s t a (branch .black s p b q)) fs)
      (removeColorBlack s (some a.1) (some b.1)) false
      (plug (branch c s (branch .black s t a p) b q.blacken) fs) := by
  unfold removeColorBlack
  refine Does.bind (Does.childrenBlack_false (.inr hq)) ?_
  rw [if_neg Bool.false_ne_true]
  exact Does.bind (Does.redFar_red hq) (Does.bind (Does.settle h) Does.pure)

/-- A red child on the near side only: it goes up. -/
theorem Does.black_near (hq : q.color = .black)
    (h : Distinct (plug (branch c s t a (branch .black s (branch .red s p x m) b q)) fs)) :
    Does (plug (branch c s t a (branch .black s (branch .red s p x m) b q)) fs)
      (removeColorBlack s (some a.1) (some b.1)) false
      (plug (branch c s (branch .black s t a p) x (branch .black s m b q)) fs) := by
  unfold removeColorBlack
  refine Does.bind (Does.childrenBlack_false (.inl (color_branch ..))) ?_
  rw [if_neg Bool.false_ne_true]
  refine Does.bind (Does.redFar_black hq h) ?_
  have hup : Distinct (plug (branch c s t a (branch .black s p x (branch .red s m b q))) fs) :=
    h.congr (toList_plug_congr (toList_branch_congr _ _ rfl (toList_rotate ..)) fs)
  have hsettle := Does.settle hup
  rw [blacken_branch] at hsettle
  exact Does.bind hsettle Does.pure

/-- The loop ends at a red element, which becomes black. -/
theorem Does.removeColor_red {n : Nat} {up : Option P} (ht : t.color = .red) :
    Does (plug t fs) (removeColor (n + 1) up (addr t)) () (plug t.blacken fs) := by
  refine Does.bind Does.getRoot (Does.bind (Does.isRed_true ht) ?_)
  rw [Bool.true_or, if_pos rfl]
  exact Does.setColorOf

/-- The loop ends at the root, which becomes black. -/
theorem Does.removeColor_root {n : Nat} {up : Option P} :
    Does t (removeColor (n + 1) up (addr t)) () t.blacken := by
  have hred : Does (plug t []) (Vtree.isRed (addr t)) (decide (t.color = .red)) (plug t []) :=
    Does.isRed
  have hset : Does (plug t []) (Vtree.setColorOf (addr t) .black) () (plug t.blacken []) :=
    Does.setColorOf
  refine Does.bind Does.getRoot (Does.bind hred ?_)
  rw [decide_eq_true rfl, Bool.or_true, if_pos rfl]
  exact hset

/-- A turn at a black element that is not the root, with a turn of the loop after it if it goes on. -/
theorem Does.removeColor_turn {n : Nat} {w u v : RbTree (P × V)} {go : Bool}
    (ht : t.color = .black) (hw : w ≠ .nil) (h : Distinct (plug t (⟨s, c, a, w⟩ :: fs)))
    (hturn : Does (plug t (⟨s, c, a, w⟩ :: fs)) (removeColorTurn s (some a.1)) go u)
    (hgo : go = true → Does u (do removeColor n (← Vtree.parent (some a.1)) (some a.1)) () v)
    (hend : go = false → v = u.blacken) :
    Does (plug t (⟨s, c, a, w⟩ :: fs)) (removeColor (n + 1) (some a.1) (addr t)) () v := by
  refine Does.bind Does.getRoot (Does.bind (Does.isRed_false ht) ?_)
  rw [Bool.false_or, decide_eq_false h.addr_ne_root, if_neg Bool.false_ne_true]
  have hside : ∃ first, Does (plug t (⟨s, c, a, w⟩ :: fs)) (left (some a.1)) first
      (plug t (⟨s, c, a, w⟩ :: fs)) ∧ (if first = addr t then Side.left else Side.right) = s := by
    cases s with
    | left => exact ⟨addr t, Does.child_near, if_pos rfl⟩
    | right =>
      refine ⟨addr w, Does.child_far, if_neg ?_⟩
      cases hp : addr t with
      | none => exact fun hnone => hw (addr_eq_none.mp hnone)
      | some p => exact h.addr_ne_sibling hp
  obtain ⟨first, hfirst, hs⟩ := hside
  refine Does.bind hfirst ?_
  rw [hs]
  refine Does.bind hturn ?_
  cases go with
  | true => exact hgo rfl
  | false =>
    have hset : Does (plug u []) (Vtree.setColorOf (addr u) .black) () (plug u.blacken []) :=
      Does.setColorOf
    rw [hend rfl]
    exact Does.bind Does.getRoot hset

/-- The turn for a black sibling, with what the rules say of it. -/
theorem Does.removeColorBlack (ht : t.color = .black)
    (h : Distinct (plug (branch c s t a (branch .black s p b q)) fs)) :
    ∃ go u, Does (plug (branch c s t a (branch .black s p b q)) fs)
        (removeColorBlack s (some a.1) (some b.1)) go u ∧
      (go = true → p.color = .black ∧ q.color = .black ∧
        u = plug (branch c s t a (branch .red s p b q)) fs) ∧
      (go = false → RemoveFix t (⟨s, c, a, branch .black s p b q⟩ :: fs) u.blacken) := by
  cases hq : q.color with
  | red => exact ⟨false, _, Does.black_far hq h, by simp, fun _ => .far ht hq⟩
  | black =>
    cases hp : p.color with
    | black =>
      exact ⟨true, _, Does.black_recolor hp hq, fun _ => ⟨rfl, rfl, rfl⟩, by simp⟩
    | red =>
      cases p with
      | nil => cases hp
      | node cp l x r =>
        cases hp
        obtain ⟨p, m, hbr⟩ := exists_branch s .red l x r
        rw [hbr] at h ⊢
        exact ⟨false, _, Does.black_near hq h, by simp, fun _ => .near ht hq⟩

/-- The turn for a red sibling, and the turn after it. -/
theorem Does.removeColor_redSibling {n : Nat} (hn : 0 < n) (ht : t.color = .black)
    (hfar : Does (plug t (⟨s, c, a, branch .red s p b q⟩ :: fs)) (child s.other (some a.1))
      (some b.1) (plug t (⟨s, c, a, branch .red s p b q⟩ :: fs)))
    (hl : Lacks t (⟨s, c, a, branch .red s p b q⟩ :: fs))
    (h : Distinct (plug t (⟨s, c, a, branch .red s p b q⟩ :: fs))) :
    ∃ v, RemoveFix t (⟨s, c, a, branch .red s p b q⟩ :: fs) v ∧
      Does (plug t (⟨s, c, a, branch .red s p b q⟩ :: fs))
        (removeColor (n + 1) (some a.1) (addr t)) () v := by
  have hrot : Distinct (plug t (⟨s, .red, a, p⟩ :: ⟨s, .black, b, q⟩ :: fs)) :=
    h.congr (toList_plug_congr (toList_rotate ..).symm fs)
  have hl' := hl.rotate ht
  cases p with
  | nil => exact absurd rfl (hl'.sibling ht)
  | node cp lp x rp =>
    obtain ⟨p, m, hbr⟩ := exists_branch s cp lp x rp
    rw [hbr] at hl' h hrot hfar ⊢
    -- the sibling after the rotation is black
    have hcp : cp = .black := by
      obtain ⟨d, n, -, hfs⟩ := hl'.elim ht
      cases hfs with
      | red hx hne hfs => exact (color_branch ..).symm.trans hx.color_eq
    subst hcp
    obtain ⟨go, u, hturn, hgo, hend⟩ : ∃ go u, Does
        (plug (branch .red s t a (branch .black s p x m)) (⟨s, .black, b, q⟩ :: fs)) _ go u ∧ _ :=
      Does.removeColorBlack ht hrot
    have hblack := Does.blackSibling_red h
    rw [addr_branch] at hblack
    have hturn : Does (plug t (⟨s, c, a, branch .red s (branch .black s p x m) b q⟩ :: fs))
        (removeColorTurn s (some a.1)) go u := Does.bind hfar (Does.bind hblack hturn)
    have hw : branch .red s (branch .black s p x m) b q ≠ .nil := branch_ne_nil _ _ _ _ _
    cases go with
    | false =>
      exact ⟨_, .rotate ht (hend rfl), Does.removeColor_turn ht hw h hturn (by simp) fun _ => rfl⟩
    | true =>
      obtain ⟨hp, hm, rfl⟩ := hgo rfl
      obtain ⟨n, rfl⟩ : ∃ k, n = k + 1 := ⟨n - 1, by omega⟩
      have hstop : Does (plug (branch .red s t a (branch .red s p x m)) (⟨s, .black, b, q⟩ :: fs))
          (Vtree.removeColor (n + 1) (some b.1) (addr (branch .red s t a (branch .red s p x m)))) ()
          (plug (branch .red s t a (branch .red s p x m)).blacken (⟨s, .black, b, q⟩ :: fs)) :=
        Does.removeColor_red (color_branch ..)
      rw [addr_branch] at hstop
      refine ⟨_, .rotate ht (.recolor ht hp hm (.red (color_branch ..))), ?_⟩
      exact Does.removeColor_turn ht hw h hturn (fun _ => Does.bind Does.parent hstop) (by simp)

/-- **`VRBT_REMOVE_COLOR`** makes the tree that the rules of the removal make. -/
theorem Does.removeColor {bound : Nat} (hbound : fs.length + 1 < bound) (hl : Lacks t fs)
    (h : Distinct (plug t fs)) :
    ∃ v, RemoveFix t fs v ∧
      Does (plug t fs) (removeColor bound (parentAddr fs) (addr t)) () v := by
  induction bound generalizing t fs with
  | zero => omega
  | succ bound ih =>
    cases ht : t.color with
    | red => exact ⟨_, .red ht, Does.removeColor_red ht⟩
    | black =>
      cases fs with
      | nil => exact ⟨_, .root, Does.removeColor_root⟩
      | cons f fs =>
        obtain ⟨s, c, a, w⟩ := f
        have hw := hl.sibling ht
        simp only [List.length_cons] at hbound
        cases w with
        | nil => exact absurd rfl hw
        | node cw lw b rw' =>
          obtain ⟨p, q, hbr⟩ := exists_branch s cw lw b rw'
          rw [hbr] at hl h hw ⊢
          have hfar : Does (plug t (⟨s, c, a, branch cw s p b q⟩ :: fs)) (child s.other (some a.1))
              (some b.1) (plug t (⟨s, c, a, branch cw s p b q⟩ :: fs)) := by
            have hfar : Does (plug (branch c s t a (branch cw s p b q)) fs)
                (child s.other (some a.1)) (addr (branch cw s p b q))
                (plug (branch c s t a (branch cw s p b q)) fs) := Does.child_far
            rwa [addr_branch] at hfar
          cases cw with
          | black =>
            obtain ⟨go, u, hturn, hgo, hend⟩ := Does.removeColorBlack ht h
            have hturn : Does (plug t (⟨s, c, a, branch .black s p b q⟩ :: fs))
                (removeColorTurn s (some a.1)) go u :=
              Does.bind hfar (Does.bind Does.blackSibling_black hturn)
            cases go with
            | false =>
              exact ⟨_, hend rfl, Does.removeColor_turn ht hw h hturn (by simp) fun _ => rfl⟩
            | true =>
              obtain ⟨hp, hq, rfl⟩ := hgo rfl
              have hnd : Distinct (plug (branch c s t a (branch .red s p b q)) fs) := by
                refine h.congr (toList_plug_congr (toList_branch_congr _ _ rfl ?_) fs)
                exact toList_branch_congr _ _ rfl rfl
              obtain ⟨v, hv, hdoes⟩ := ih (by omega) (hl.recolor ht hp hq) hnd
              rw [addr_branch] at hdoes
              refine ⟨v, .recolor ht hp hq hv, ?_⟩
              exact Does.removeColor_turn ht hw h hturn (fun _ => Does.bind Does.parent hdoes)
                (by simp)
          | red => exact Does.removeColor_redSibling (by omega) ht hfar hl h

end VmodCfg.Vtree
