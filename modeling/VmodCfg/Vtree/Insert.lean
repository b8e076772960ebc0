import VmodCfg.Vtree.Shapes

/-!
# `VRBT_FIND` and `VRBT_INSERT`

The loops that go down end where `descend` does, and the one that goes up makes
the tree that the rules of `InsertFix` make.
-/

namespace VmodCfg.Vtree

open RedBlack RedBlack.RbTree Footprint

variable {P V K : Type}

/-! ## The way down -/

section Search

variable {key : V → K} {cmp : K → K → Ordering} {k : K}

abbrev keyOf (key : V → K) (a : P × V) : K := key a.2

/-- How the last comparison of the way down ended. -/
def turn : List (Frame (P × V)) → Ordering
  | [] => .eq
  | f :: _ => match f.side with
    | .left => .lt
    | .right => .gt

theorem Does.findFrom {bound : Nat} {t : RbTree (P × V)} {fs : List (Frame (P × V))}
    (hbound : t.height < bound) :
    Does (plug t fs) (findFrom key cmp k bound (addr t)) (addr (descend (keyOf key) cmp k t fs).1)
      (plug t fs) := by
  induction t generalizing fs bound with
  | nil =>
    obtain ⟨bound, rfl⟩ : ∃ n, bound = n + 1 := ⟨bound - 1, by simp [height] at hbound; omega⟩
    exact Does.pure
  | node c l a r ihl ihr =>
    obtain ⟨bound, rfl⟩ : ∃ n, bound = n + 1 := ⟨bound - 1, by omega⟩
    simp only [height] at hbound
    refine Does.bind (Does.data (s := .left)) ?_
    unfold descend
    cases hc : cmp k (key a.2) with
    | lt =>
      have h : Does (plug l (⟨.left, c, a, r⟩ :: fs)) _ _ _ := ihl (show l.height < bound by omega)
      exact Does.bind (Does.child_near (s := .left)) h
    | gt =>
      have h : Does (plug r (⟨.right, c, a, l⟩ :: fs)) _ _ _ := ihr (show r.height < bound by omega)
      exact Does.bind (Does.child_near (s := .right)) h
    | eq => exact Does.pure

/-- What `VRBT_INSERT` finds on its way down. -/
def searched (x : RbTree (P × V) × List (Frame (P × V))) : P ⊕ (Option P × Ordering) :=
  match addr x.1 with
  | some p => .inl p
  | none => .inr (parentAddr x.2, turn x.2)

theorem Does.searchFrom {bound : Nat} {t : RbTree (P × V)} {fs : List (Frame (P × V))}
    (hbound : t.height < bound) :
    Does (plug t fs) (searchFrom key cmp k bound (addr t) (parentAddr fs) (turn fs))
      (searched (descend (keyOf key) cmp k t fs)) (plug t fs) := by
  induction t generalizing fs bound with
  | nil =>
    obtain ⟨bound, rfl⟩ : ∃ n, bound = n + 1 := ⟨bound - 1, by simp [height] at hbound; omega⟩
    exact Does.pure
  | node c l a r ihl ihr =>
    obtain ⟨bound, rfl⟩ : ∃ n, bound = n + 1 := ⟨bound - 1, by omega⟩
    simp only [height] at hbound
    refine Does.bind (Does.data (s := .left)) ?_
    unfold descend
    cases hc : cmp k (key a.2) with
    | lt =>
      have h : Does (plug l (⟨.left, c, a, r⟩ :: fs)) _ _ _ := ihl (show l.height < bound by omega)
      exact Does.bind (Does.child_near (s := .left)) h
    | gt =>
      have h : Does (plug r (⟨.right, c, a, l⟩ :: fs)) _ _ _ := ihr (show r.height < bound by omega)
      exact Does.bind (Does.child_near (s := .right)) h
    | eq => exact Does.pure

/-- **`VRBT_FIND`** gives the element with the key, or NULL when there is none. -/
theorem Does.find [Std.TransCmp cmp] {bound : Nat} {t : RbTree (P × V)}
    (hbound : t.height < bound) (ht : Ordered (keyOf key) cmp t) :
    ∃ res, Does t (find key cmp bound k) res t ∧
      (∀ p, res = some p → ∃ v, (p, v) ∈ t.toList ∧ cmp k (key v) = .eq) ∧
      (res = none → ∀ a ∈ t.toList, cmp k (key a.2) ≠ .eq) := by
  have hfind : Does (plug t []) (Vtree.findFrom key cmp k bound (addr t))
      (addr (descend (keyOf key) cmp k t []).1) (plug t []) := Does.findFrom hbound
  have hplug : plug (descend (keyOf key) cmp k t []).1 (descend (keyOf key) cmp k t []).2 = t :=
    plug_descend t []
  refine ⟨_, Does.bind Does.getRoot hfind, ?_, ?_⟩
  · intro p hp
    obtain ⟨a, ha, rfl⟩ := Option.map_eq_some_iff.mp hp
    refine ⟨a.2, ?_, descend_root t [] a ha⟩
    rw [← hplug, toList_plug]
    exact List.mem_append.mpr (.inl (List.mem_append.mpr (.inr (root?_mem ha))))
  · intro hnone a ha
    have haround : Around (keyOf key) cmp k (descend (keyOf key) cmp k t []).2 :=
      around_descend ht ⟨by simp [before], by simp [after]⟩
    rw [addr_eq_none.mp hnone] at hplug
    rw [← hplug] at ha
    exact haround.not_mem a ha

end Search

/-! ## The way up -/

variable [DecidableEq P]

section InsertColor

variable {t w u m : RbTree (P × V)} {fs : List (Frame (P × V))} {s s' : Side} {a b x : P × V}
  {c d : Color}

theorem Does.straighten_outer (h : Distinct (plug t (⟨s, d, a, w⟩ :: fs))) {p : P}
    (hp : addr t = some p) :
    Does (plug t (⟨s, d, a, w⟩ :: fs)) (straighten s (some p) (some a.1)) (some p, some a.1)
      (plug t (⟨s, d, a, w⟩ :: fs)) := by
  unfold straighten
  refine Does.bind Does.child_far ?_
  rw [if_neg (h.addr_ne_sibling hp)]
  exact Does.pure

theorem Does.straighten_inner (h : Distinct (plug (branch c s m x t) (⟨s.other, d, a, w⟩ :: fs))) :
    Does (plug (branch c s m x t) (⟨s.other, d, a, w⟩ :: fs))
      (straighten s (some x.1) (some a.1)) (some a.1, some x.1)
      (plug (branch c s (branch d s w a m) x t) fs) := by
  rw [← focus_far] at h ⊢
  unfold straighten
  refine Does.bind Does.child_far ?_
  rw [if_pos (addr_branch ..)]
  exact Does.bind (Does.rotate h) Does.pure

theorem Does.setBlackRed :
    Does (plug (branch c s (branch d s' t a w) b u) fs) (setBlackRed (some a.1) (some b.1)) ()
      (plug (branch .red s (branch .black s' t a w) b u) fs) := by
  have hparent : Does (plug (branch d s' t a w) (⟨s, c, b, u⟩ :: fs))
      (Vtree.setColor (some a.1) .black) ()
      (plug (branch c s (branch .black s' t a w) b u) fs) := Does.setColor
  exact Does.bind hparent Does.setColor

/-- A red uncle: parent and uncle become black, and the grandparent red. -/
theorem Does.turn_recolor (hu : u.color = .red) {elm : Option P} :
    Does (plug (branch c s (branch d s' t a w) b u) fs)
      (insertColorTurn s elm (some a.1) (some b.1)) (some b.1)
      (plug (branch .red s (branch .black s' t a w) b u.blacken) fs) := by
  unfold insertColorTurn
  refine Does.bind Does.child_far ?_
  rw [focus_far]
  refine Does.bind (Does.isRed_true hu) ?_
  rw [if_pos rfl]
  have hblack : Does (plug u (⟨s.other, c, b, branch d s' t a w⟩ :: fs))
      (Vtree.setColor (addr u) .black) ()
      (plug u.blacken (⟨s.other, c, b, branch d s' t a w⟩ :: fs)) := by
    cases u with
    | nil => cases hu
    | node c l e r => exact Does.setColor (s := .left)
  refine Does.bind hblack ?_
  rw [← focus_far]
  exact Does.bind Does.setBlackRed Does.pure

/-- The grandparent goes down, and is red. -/
theorem Does.raise (h : Distinct (plug (branch c s (branch d s t a w) b u) fs)) {v : Option P} :
    Does (plug (branch c s (branch d s t a w) b u) fs)
      (do
        Vtree.setBlackRed (some a.1) (some b.1)
        Vtree.rotate s.other (some b.1)
        return v) v
      (plug (branch .black s t a (branch .red s w b u)) fs) := by
  refine Does.bind Does.setBlackRed ?_
  have hrot : Does (plug (branch .red s.other u b (branch .black s.other w a t)) fs)
      (Vtree.rotate s.other (some b.1)) ()
      (plug (branch .black s.other (branch .red s.other u b w) a t) fs) := by
    apply Does.rotate
    refine h.congr (toList_plug_congr ?_ fs)
    simp only [branch_other]
    exact toList_branch_congr _ _ (toList_branch_congr _ _ rfl rfl) rfl
  simp only [branch_other] at hrot
  exact Does.bind hrot Does.pure

/-- A black uncle, and the element is on the outside: the parent goes up. -/
theorem Does.turn_outer (hu : u.color = .black)
    (h : Distinct (plug (branch c s (branch d s t a w) b u) fs)) {p : P} (hp : addr t = some p) :
    Does (plug (branch c s (branch d s t a w) b u) fs)
      (insertColorTurn s (some p) (some a.1) (some b.1)) (some p)
      (plug (branch .black s t a (branch .red s w b u)) fs) := by
  unfold insertColorTurn
  refine Does.bind Does.child_far ?_
  rw [focus_far]
  refine Does.bind (Does.isRed_false hu) ?_
  rw [if_neg Bool.false_ne_true, ← focus_far]
  have hst : Distinct (plug t (⟨s, d, a, w⟩ :: ⟨s, c, b, u⟩ :: fs)) := h
  exact Does.bind (Does.straighten_outer hst hp) (Does.raise h)

/-- A black uncle, and the element is on the inside: it goes up itself. -/
theorem Does.turn_inner {e : Color} (hu : u.color = .black)
    (h : Distinct (plug (branch c s (branch d s.other (branch e s m x t) a w) b u) fs)) :
    Does (plug (branch c s (branch d s.other (branch e s m x t) a w) b u) fs)
      (insertColorTurn s (some x.1) (some a.1) (some b.1)) (some a.1)
      (plug (branch .black s (branch d s w a m) x (branch .red s t b u)) fs) := by
  unfold insertColorTurn
  refine Does.bind Does.child_far ?_
  rw [focus_far]
  refine Does.bind (Does.isRed_false hu) ?_
  rw [if_neg Bool.false_ne_true, ← focus_far]
  have hst : Distinct (plug (branch e s m x t) (⟨s.other, d, a, w⟩ :: ⟨s, c, b, u⟩ :: fs)) := h
  have hraise : Distinct (plug (branch c s (branch e s (branch d s w a m) x t) b u) fs) := by
    refine h.congr (toList_plug_congr (toList_branch_congr _ _ ?_ rfl) fs)
    rw [branch_other]
    exact (toList_rotate ..).symm
  exact Does.bind (Does.straighten_inner hst) (Does.raise hraise)

/-- The loop ends when the parent is black, or there is none. -/
theorem Does.insertColor_stop {n : Nat} {p : P} {t : RbTree (P × V)} (hp : addr t = some p)
    (hfs : ∀ f ∈ fs.head?, f.color = .black) :
    Does (plug t fs) (insertColor (n + 1) (some p)) () (plug t fs).blacken := by
  cases t with
  | nil => cases hp
  | node c l e r =>
    cases hp
    have hne : plug (.node c l e r) fs ≠ .nil := plug_ne_nil (by simp) fs
    refine Does.bind (Does.parent (s := .left)) ?_
    have hred : Does (plug (.node c l e r) fs) (Vtree.isRed (parentAddr fs)) false
        (plug (.node c l e r) fs) := by
      cases fs with
      | nil => exact Does.pure
      | cons f fs =>
        have hf : (branch f.color f.side (.node c l e r) f.label f.sibling).color = .black := by
          rw [color_branch]
          exact hfs f rfl
        have h : Does (plug (branch f.color f.side (.node c l e r) f.label f.sibling) fs)
            (Vtree.isRed (addr (branch f.color f.side (.node c l e r) f.label f.sibling))) false
            (plug (branch f.color f.side (.node c l e r) f.label f.sibling) fs) :=
          Does.isRed_false hf
        rwa [addr_branch] at h
    refine Does.bind hred ?_
    exact Does.blackenRoot hne

theorem Does.side (h : Distinct (plug t (⟨s, c, b, u⟩ :: fs))) {p : P} (hp : addr t = some p) :
    ∃ first, Does (plug t (⟨s, c, b, u⟩ :: fs)) (left (some b.1)) first
      (plug t (⟨s, c, b, u⟩ :: fs)) ∧ (if some p = first then Side.left else Side.right) = s := by
  cases s with
  | left => exact ⟨addr t, Does.child_near, if_pos hp.symm⟩
  | right => exact ⟨addr u, Does.child_far, if_neg (h.addr_ne_sibling hp).symm⟩

/-- What a turn does when the parent is red: the loop goes on from the element that it gives. -/
theorem Does.insertColor_turn {n : Nat} {p q : P} {v : RbTree (P × V)}
    (h : Distinct (plug t (⟨s', .red, a, w⟩ :: ⟨s, c, b, u⟩ :: fs))) (hp : addr t = some p)
    {t' : RbTree (P × V)}
    (hturn : Does (plug t (⟨s', .red, a, w⟩ :: ⟨s, c, b, u⟩ :: fs))
      (insertColorTurn s (some p) (some a.1) (some b.1)) (some q) t')
    (hrest : Does t' (insertColor n (some q)) () v) :
    Does (plug t (⟨s', .red, a, w⟩ :: ⟨s, c, b, u⟩ :: fs)) (insertColor (n + 1) (some p)) () v := by
  cases t with
  | nil => cases hp
  | node ct l e r =>
    cases hp
    refine Does.bind (Does.parent (s := .left)) ?_
    have hred : Does (plug (branch .red s' (.node ct l e r) a w) (⟨s, c, b, u⟩ :: fs))
        (Vtree.isRed (addr (branch .red s' (.node ct l e r) a w))) true
        (plug (branch .red s' (.node ct l e r) a w) (⟨s, c, b, u⟩ :: fs)) :=
      Does.isRed_true (color_branch ..)
    rw [addr_branch] at hred
    refine Does.bind hred ?_
    rw [if_pos rfl]
    refine Does.bind (Does.parent (s := s') (t := .node ct l e r)) ?_
    obtain ⟨first, hfirst, hside⟩ := Does.side (s := s) (c := c) (b := b) (u := u)
      (t := branch .red s' (.node ct l e r) a w) h (addr_branch ..)
    refine Does.bind hfirst ?_
    rw [parentAddr_cons, hside]
    exact Does.bind hturn hrest

/-- **`VRBT_INSERT_COLOR`** makes the tree that the rules of the insertion make. -/
theorem Does.insertColor {bound n : Nat} {p : P} (hbound : fs.length + 1 < bound)
    (hp : addr t = some p) (ht : Balanced t .red n) (hfs : Fits fs d n)
    (h : Distinct (plug t fs)) :
    ∃ v, InsertFix t fs v ∧ Does (plug t fs) (insertColor bound (some p)) () v := by
  induction bound generalizing fs t p n d with
  | zero => omega
  | succ bound ih =>
    cases hfs with
    | root =>
      have hstop : Does (plug t []) (Vtree.insertColor (bound + 1) (some p)) () (plug t []).blacken :=
        Does.insertColor_stop hp (by simp)
      exact ⟨_, .root, hstop⟩
    | black hw hfs => exact ⟨_, .black, Does.insertColor_stop hp (by simp)⟩
    | @red s' a w fs _ hw hne hfs =>
      cases hfs with
      | root => exact absurd rfl hne
      | @black s b u fs _ cu d hu hfs =>
        simp only [List.length_cons] at hbound
        obtain ⟨bound, rfl⟩ : ∃ k, bound = k + 1 := ⟨bound - 1, by omega⟩
        cases cu with
        | red =>
          -- the loop goes on at the grandparent
          have hturn : Does (plug t (⟨s', .red, a, w⟩ :: ⟨s, .black, b, u⟩ :: fs))
              (insertColorTurn s (some p) (some a.1) (some b.1)) (some b.1)
              (plug (branch .red s (branch .black s' t a w) b u.blacken) fs) :=
            Does.turn_recolor hu.color_eq
          have hred : Balanced (branch .red s (branch .black s' t a w) b u.blacken) .red (n + 1) :=
            (ht.black_branch hw).red_branch hu.blacken_red
          have hnd : Distinct (plug (branch .red s (branch .black s' t a w) b u.blacken) fs) := by
            refine h.congr (toList_plug_congr (toList_branch_congr _ _ ?_ (toList_blacken u)) fs)
            exact toList_branch_congr _ _ rfl rfl
          obtain ⟨v, hv, hdoes⟩ := ih (by omega) (addr_branch ..) hred hfs hnd
          exact ⟨v, .recolor hu.color_eq hv, Does.insertColor_turn h hp hturn hdoes⟩
        | black =>
          by_cases hs : s' = s
          · subst hs
            have hturn : Does (plug t (⟨s', .red, a, w⟩ :: ⟨s', .black, b, u⟩ :: fs))
                (insertColorTurn s' (some p) (some a.1) (some b.1)) (some p)
                (plug (branch .black s' t a (branch .red s' w b u)) fs) :=
              Does.turn_outer hu.color_eq h hp
            have hstop : Does (plug t (⟨s', .black, a, branch .red s' w b u⟩ :: fs))
                (Vtree.insertColor (bound + 1) (some p)) ()
                (plug t (⟨s', .black, a, branch .red s' w b u⟩ :: fs)).blacken :=
              Does.insertColor_stop hp (by simp)
            exact ⟨_, .outer hu.color_eq, Does.insertColor_turn h hp hturn hstop⟩
          · obtain rfl := Side.eq_other_of_ne hs
            cases t with
            | nil => cases hp
            | node ct l x r =>
              obtain ⟨m, t, hbr⟩ := exists_branch s ct l x r
              cases hp
              rw [hbr] at h ⊢
              have hturn : Does
                  (plug (branch ct s m x t) (⟨s.other, .red, a, w⟩ :: ⟨s, .black, b, u⟩ :: fs))
                  (insertColorTurn s (some x.1) (some a.1) (some b.1)) (some a.1)
                  (plug (branch .black s (branch .red s w a m) x (branch .red s t b u)) fs) :=
                Does.turn_inner hu.color_eq h
              have hstop : Does
                  (plug (branch .red s w a m) (⟨s, .black, x, branch .red s t b u⟩ :: fs))
                  (Vtree.insertColor (bound + 1) (some a.1)) ()
                  (plug (branch .red s w a m) (⟨s, .black, x, branch .red s t b u⟩ :: fs)).blacken :=
                Does.insertColor_stop (addr_branch ..) (by simp)
              exact ⟨_, .inner hu.color_eq, Does.insertColor_turn h (addr_branch ..) hturn hstop⟩

end InsertColor

/-! ## The insertion -/

theorem spec_link {elm : P} {fs : List (Frame (P × V))} :
    Spec (rootAddr none fs) (holeCells none fs) (link elm (parentAddr fs) (turn fs)) ()
      (rootAddr (some elm) fs) (holeCells (some elm) fs) := by
  cases fs with
  | nil => exact Spec.setReg
  | cons f fs =>
    obtain ⟨s, c, a, w⟩ := f
    rw [holeCells, holeCells]
    cases s with
    | left => exact (spec_setChild_near (s := .left)).frame _
    | right => exact (spec_setChild_near (s := .right)).frame _

/-- Whether an element has the key of one of the tree. -/
def HasKey (key : V → K) (cmp : K → K → Ordering) (k : K) (t : RbTree (P × V)) : Prop :=
  ∃ a ∈ t.toList, cmp k (key a.2) = .eq

theorem spec_place {key : V → K} {cmp : K → K → Ordering} [Std.TransCmp cmp] {bound n : Nat}
    {fs : List (Frame (P × V))} {elm : P} {e : Elem P V}
    (hbound : (plug .nil fs).toList.length + 1 < bound) (hb : Balanced (plug .nil fs) .black n)
    (ht : Ordered (keyOf key) cmp (plug .nil fs)) (hfs : Around (keyOf key) cmp (key e.data) fs)
    (hnd : (elm :: (plug .nil fs).toList.map Prod.fst).Nodup) :
    ∃ v m, Balanced v .black m ∧ Ordered (keyOf key) cmp v ∧
      v.toList.Perm ((elm, e.data) :: (plug .nil fs).toList) ∧
      Spec (addr (plug .nil fs)) ({(elm, e)} + cells none (plug .nil fs))
        (do
          setEntry (some elm) ⟨none, none, parentAddr fs, .red⟩
          link elm (parentAddr fs) (turn fs)
          insertColor bound (some elm)
          return none) (none : Option P) (addr v) (cells none v) := by
  obtain ⟨c, d, m, hc, hfits, -⟩ := Fits.of_plug hb
  cases hc
  let u : RbTree (P × V) := .node .red .nil (elm, e.data) .nil
  have hlist : (plug u fs).toList.Perm ((elm, e.data) :: (plug .nil fs).toList) := by
    rw [toList_plug, toList_plug]
    simp [u, toList, List.perm_middle]
  have hdist : Distinct (plug u fs) := by
    unfold Distinct
    rw [(hlist.map Prod.fst).nodup_iff]
    exact hnd
  have hlen : fs.length + 1 < bound := by
    have h := length_le_toList (.nil : RbTree (P × V)) fs
    simp only [toList, List.length_nil] at h
    omega
  obtain ⟨v, hfix, hins⟩ := Does.insertColor (t := u) hlen rfl (.red .nil .nil) hfits hdist
  obtain ⟨m, hbal⟩ := hfix.balanced (.red .nil .nil) hfits
  have hord : Ordered (keyOf key) cmp (plug u fs) :=
    ordered_plug (a := (elm, e.data)) (by simp [u, toList]) ht hfs
  refine ⟨v, m, hbal, ?_, hfix.toList_eq ▸ hlist, ?_⟩
  · rwa [Ordered, hfix.toList_eq]
  · rw [cells_plug, addr_plug]
    have hset : Spec (rootAddr none fs) {(elm, e)}
        (setEntry (some elm) ⟨none, none, parentAddr fs, .red⟩) () (rootAddr none fs)
        (cells (parentAddr fs) u) := Spec.update
    refine Spec.call hset (holeCells none fs) (by simp [cells]) ?_
    refine Spec.call spec_link (cells (parentAddr fs) u) (add_comm ..) ?_
    have hend : Spec (rootAddr (some elm) fs) (holeCells (some elm) fs + cells (parentAddr fs) u)
        (insertColor bound (some elm)) () (addr v) (cells none v) := by
      have h := hins
      unfold Does at h
      rwa [addr_plug, cells_plug, add_comm] at h
    exact Spec.bind hend Spec.pure

/-- **`VRBT_INSERT`**, for a red-black tree and an element that is not in it: the element is in its
place and the tree is red-black, unless one with the same key is there. -/
theorem spec_insert {key : V → K} {cmp : K → K → Ordering} [Std.TransCmp cmp] {bound n : Nat}
    {t : RbTree (P × V)} {elm : P} {e : Elem P V} (hbound : t.toList.length + 1 < bound)
    (hb : Balanced t .black n) (ht : Ordered (keyOf key) cmp t)
    (hnd : (elm :: t.toList.map Prod.fst).Nodup) :
    (∃ p, HasKey key cmp (key e.data) t ∧
      Spec (addr t) ({(elm, e)} + cells none t) (insert key cmp bound elm) (some p) (addr t)
        ({(elm, e)} + cells none t)) ∨
    ∃ v m, ¬ HasKey key cmp (key e.data) t ∧ Balanced v .black m ∧ Ordered (keyOf key) cmp v ∧
      v.toList.Perm ((elm, e.data) :: t.toList) ∧
      Spec (addr t) ({(elm, e)} + cells none t) (insert key cmp bound elm) none (addr v)
        (cells none v) := by
  have hdata : Spec (addr t) ({(elm, e)} + cells none t) (data (some elm)) e.data (addr t)
      ({(elm, e)} + cells none t) := Spec.field (by simp)
  have hsearch : Does (plug t []) (searchFrom key cmp (key e.data) bound (addr t) none .eq)
      (searched (descend (keyOf key) cmp (key e.data) t [])) (plug t []) :=
    Does.searchFrom (Nat.lt_of_le_of_lt (height_le_length t) (by omega))
  have hplug : plug (descend (keyOf key) cmp (key e.data) t []).1
      (descend (keyOf key) cmp (key e.data) t []).2 = t := plug_descend t []
  have haround : Around (keyOf key) cmp (key e.data) (descend (keyOf key) cmp (key e.data) t []).2 :=
    around_descend ht ⟨by simp [before], by simp [after]⟩
  have hroot : ∀ a ∈ (descend (keyOf key) cmp (key e.data) t []).1.root?,
      cmp (key e.data) (keyOf key a) = .eq := descend_root t []
  generalize descend (keyOf key) cmp (key e.data) t [] = x at *
  obtain ⟨u, fs⟩ := x
  have hstart : Spec (addr t) ({(elm, e)} + cells none t)
      (searchFrom key cmp (key e.data) bound (addr t) none .eq) (searched (u, fs)) (addr t)
      ({(elm, e)} + cells none t) := by
    have h := Spec.frame hsearch {(elm, e)}
    rwa [add_comm] at h
  cases u with
  | node c l a r =>
    -- an element with the key is there
    have hmem : a ∈ t.toList := by
      rw [← show plug (.node c l a r) fs = t from hplug, toList_plug]
      simp [toList]
    refine .inl ⟨a.1, ⟨a, hmem, hroot a rfl⟩, ?_⟩
    exact Spec.bind hdata (Spec.bind Spec.getReg (Spec.bind hstart Spec.pure))
  | nil =>
    obtain rfl : plug .nil fs = t := hplug
    obtain ⟨v, m, hbal, hord, hperm, hplace⟩ := spec_place hbound hb ht haround hnd
    refine .inr ⟨v, m, ?_, hbal, hord, hperm, ?_⟩
    · rintro ⟨a, ha, heq⟩
      exact haround.not_mem a ha heq
    · exact Spec.bind hdata (Spec.bind Spec.getReg (Spec.bind hstart hplace))

end VmodCfg.Vtree
