import VmodCfg.Lib.RedBlack

/-!
# Rebalancing of red-black trees

The two ways up from a hole. `InsertFix t fs v`: a red tree `t` was put in the
hole `fs`, and `v` is what the changes of colours and the rotations make of it.
`RemoveFix t fs v`: a black node was taken out just above `t`, which is in the
hole `fs` now. The rules are those of the usual algorithm; a rule that goes on
further up has a premise.
-/

namespace RedBlack

open RbTree

variable {α : Type*}

/-- A red root may be under a red parent. -/
inductive InsertFix : RbTree α → List (Frame α) → RbTree α → Prop
  | root {t : RbTree α} : InsertFix t [] t.blacken
  | black {t w : RbTree α} {s : Side} {a : α} {fs : List (Frame α)} :
    InsertFix t (⟨s, .black, a, w⟩ :: fs) (plug t (⟨s, .black, a, w⟩ :: fs)).blacken
  | recolor {t w u v : RbTree α} {s s' : Side} {a b : α} {c : Color} {fs : List (Frame α)}
    (hu : u.color = .red)
    (h : InsertFix (branch .red s (branch .black s' t a w) b u.blacken) fs v) :
    InsertFix t (⟨s', .red, a, w⟩ :: ⟨s, c, b, u⟩ :: fs) v
  | outer {t w u : RbTree α} {s : Side} {a b : α} {c : Color} {fs : List (Frame α)}
    (hu : u.color = .black) :
    InsertFix t (⟨s, .red, a, w⟩ :: ⟨s, c, b, u⟩ :: fs)
      (plug (branch .black s t a (branch .red s w b u)) fs).blacken
  | inner {m t w u : RbTree α} {s : Side} {a b x : α} {c c' : Color} {fs : List (Frame α)}
    (hu : u.color = .black) :
    InsertFix (branch c' s m x t) (⟨s.other, .red, a, w⟩ :: ⟨s, c, b, u⟩ :: fs)
      (plug (branch .black s (branch .red s w a m) x (branch .red s t b u)) fs).blacken

/-- A way down through the hole may have one black node less than the others. -/
inductive RemoveFix : RbTree α → List (Frame α) → RbTree α → Prop
  | root {t : RbTree α} : RemoveFix t [] t.blacken
  | red {t : RbTree α} {fs : List (Frame α)} (ht : t.color = .red) :
    RemoveFix t fs (plug t.blacken fs)
  | rotate {t p q v : RbTree α} {s : Side} {a b : α} {c : Color} {fs : List (Frame α)}
    (ht : t.color = .black)
    (h : RemoveFix t (⟨s, .red, a, p⟩ :: ⟨s, .black, b, q⟩ :: fs) v) :
    RemoveFix t (⟨s, c, a, branch .red s p b q⟩ :: fs) v
  | recolor {t p q v : RbTree α} {s : Side} {a b : α} {c : Color} {fs : List (Frame α)}
    (ht : t.color = .black) (hp : p.color = .black) (hq : q.color = .black)
    (h : RemoveFix (branch c s t a (branch .red s p b q)) fs v) :
    RemoveFix t (⟨s, c, a, branch .black s p b q⟩ :: fs) v
  | near {t p m q : RbTree α} {s : Side} {a b x : α} {c : Color} {fs : List (Frame α)}
    (ht : t.color = .black) (hq : q.color = .black) :
    RemoveFix t (⟨s, c, a, branch .black s (branch .red s p x m) b q⟩ :: fs)
      (plug (branch c s (branch .black s t a p) x (branch .black s m b q)) fs).blacken
  | far {t p q : RbTree α} {s : Side} {a b : α} {c : Color} {fs : List (Frame α)}
    (ht : t.color = .black) (hq : q.color = .red) :
    RemoveFix t (⟨s, c, a, branch .black s p b q⟩ :: fs)
      (plug (branch c s (branch .black s t a p) b q.blacken) fs).blacken

/-! ## Order -/

namespace RbTree

theorem toList_rotate {c c' d d' : Color} (s : Side) (t u w : RbTree α) (a b : α) :
    (branch c s t a (branch d s u b w)).toList = (branch c' s (branch d' s t a u) b w).toList := by
  cases s <;> simp [branch, toList]

theorem toList_branch_congr {c c' : Color} (s : Side) {t t' u u' : RbTree α} (a : α)
    (ht : t.toList = t'.toList) (hu : u.toList = u'.toList) :
    (branch c s t a u).toList = (branch c' s t' a u').toList := by
  cases s <;> simp [branch, toList, ht, hu]

end RbTree

theorem InsertFix.toList_eq {t v : RbTree α} {fs : List (Frame α)} (h : InsertFix t fs v) :
    v.toList = (plug t fs).toList := by
  induction h with
  | root => exact toList_blacken _
  | black => exact toList_blacken _
  | recolor hu h ih =>
    rw [ih]
    refine toList_plug_congr (toList_branch_congr _ _ ?_ (toList_blacken _)) _
    exact toList_branch_congr _ _ rfl rfl
  | outer hu =>
    rw [toList_blacken]
    exact toList_plug_congr (toList_rotate ..) _
  | @inner m t w u s a b x c c' fs hu =>
    rw [toList_blacken]
    refine toList_plug_congr ?_ _
    calc _ = (branch .red s (branch .red s (branch .red s w a m) x t) b u).toList :=
          toList_rotate ..
      _ = _ := by
          refine toList_branch_congr _ _ ?_ rfl
          rw [Frame.attach, branch_other]
          exact (toList_rotate ..).symm

theorem RemoveFix.toList_eq {t v : RbTree α} {fs : List (Frame α)} (h : RemoveFix t fs v) :
    v.toList = (plug t fs).toList := by
  induction h with
  | root => exact toList_blacken _
  | red ht => exact toList_plug_congr (toList_blacken _) _
  | rotate ht h ih =>
    rw [ih]
    exact toList_plug_congr (toList_rotate ..).symm _
  | recolor ht hp hq h ih =>
    rw [ih]
    exact toList_plug_congr (toList_branch_congr _ _ rfl (toList_branch_congr _ _ rfl rfl)) _
  | @near t p m q s a b x c fs ht hq =>
    rw [toList_blacken]
    refine toList_plug_congr ?_ _
    calc _ = (branch c s t a (branch .black s p x (branch .black s m b q))).toList :=
          (toList_rotate ..).symm
      _ = _ := toList_branch_congr _ _ rfl (toList_rotate ..)
  | @far t p q s a b c fs ht hq =>
    rw [toList_blacken]
    refine toList_plug_congr ?_ _
    calc _ = (branch c s t a (branch .black s p b q.blacken)).toList := (toList_rotate ..).symm
      _ = _ := toList_branch_congr _ _ rfl (toList_branch_congr _ _ rfl (toList_blacken _))

/-! ## Balance -/

/-- A tree with a black root can be put anywhere, and the root stays black. -/
theorem Fits.plug_black {fs : List (Frame α)} {t : RbTree α} {d : Color} {n : Nat}
    (h : Fits fs d n) (ht : Balanced t .black n) : ∃ m, Balanced (RedBlack.plug t fs) .black m := by
  obtain ⟨c', m, hb, hblack⟩ := h.plug ht (fun _ => rfl)
  cases fs with
  | nil => exact ⟨n, ht⟩
  | cons f fs =>
    cases hblack (by simp)
    exact ⟨m, hb⟩

/-- A red root that fits makes a red-black tree, with its root black. -/
theorem InsertFix.balanced {t v : RbTree α} {fs : List (Frame α)} {d : Color} {n : Nat}
    (h : InsertFix t fs v) (ht : Balanced t .red n) (hfs : Fits fs d n) :
    ∃ m, Balanced v .black m := by
  induction h generalizing d n with
  | root => exact ht.blacken
  | black =>
    cases hfs with
    | black hw hfs =>
      obtain ⟨c', m, hb, -⟩ := (Fits.black hw hfs).plug ht nofun
      exact hb.blacken
  | recolor hu h ih =>
    cases hfs with
    | red hw hne hfs =>
      cases hfs with
      | black hu' hfs =>
        cases hu'.color_eq.symm.trans hu
        exact ih ((ht.black_branch hw).red_branch hu'.blacken_red) hfs
  | outer hu =>
    cases hfs with
    | red hw hne hfs =>
      cases hfs with
      | black hu' hfs =>
        cases hu'.color_eq.symm.trans hu
        obtain ⟨m, hb⟩ := hfs.plug_black (ht.black_branch (hw.red_branch hu'))
        exact hb.blacken
  | inner hu =>
    cases hfs with
    | red hw hne hfs =>
      cases hfs with
      | black hu' hfs =>
        cases hu'.color_eq.symm.trans hu
        cases (color_branch ..).symm.trans ht.color_eq
        obtain ⟨-, hm, ht⟩ := ht.of_red_branch
        obtain ⟨m, hb⟩ := hfs.plug_black ((hw.red_branch hm).black_branch (ht.red_branch hu'))
        exact hb.blacken

/-- The tree in the hole has one black node less than the hole needs, or it would have as many if its
root were black. -/
def Lacks (t : RbTree α) (fs : List (Frame α)) : Prop :=
  ∃ d n, Balanced t.blacken .black n ∧ Fits fs d (if t.color = .red then n else n + 1)

theorem Lacks.of_black {t : RbTree α} {fs : List (Frame α)} {c d : Color} {n : Nat}
    (ht : Balanced t c n) (hfs : Fits fs d (n + 1)) : Lacks t fs := by
  cases ht with
  | nil => exact ⟨d, 0, .nil, by simpa [color] using hfs⟩
  | red hl hr => exact ⟨d, n + 1, .black hl hr, by simpa [color] using hfs⟩
  | black hl hr => exact ⟨d, _, .black hl hr, by simpa [color] using hfs⟩

/-- A node with one subtree, at most, is taken out. -/
theorem Balanced.take_out {u : RbTree α} {s : Side} {a : α} {c : Color} {m : Nat}
    {fs : List (Frame α)} (h : Balanced (plug (branch c s .nil a u) fs) .black m) :
    (c = .black → Lacks u fs) ∧ (c = .red → ∃ k, Balanced (plug u fs) .black k) := by
  obtain ⟨e, d, n, ht, hfs, -⟩ := Fits.of_plug h
  constructor
  · rintro rfl
    obtain ⟨k, c₁, c₂, -, rfl, hnil, hu⟩ := ht.of_black_branch
    cases hnil
    exact .of_black hu hfs
  · rintro rfl
    obtain ⟨-, hnil, hu⟩ := ht.of_red_branch
    cases hnil
    exact hfs.plug_black hu

theorem Lacks.relabel {t w : RbTree α} {ms fs : List (Frame α)} {s : Side} {e : Color} {a b : α}
    (h : Lacks t (ms ++ ⟨s, e, a, w⟩ :: fs)) : Lacks t (ms ++ ⟨s, e, b, w⟩ :: fs) := by
  obtain ⟨d, n, hb, hfs⟩ := h
  exact ⟨d, n, hb, hfs.relabel⟩

theorem Balanced.relabel {t w : RbTree α} {ms fs : List (Frame α)} {s : Side} {e : Color} {a b : α}
    {n : Nat} (h : Balanced (plug t (ms ++ ⟨s, e, a, w⟩ :: fs)) .black n) :
    ∃ m, Balanced (plug t (ms ++ ⟨s, e, b, w⟩ :: fs)) .black m := by
  obtain ⟨c, d, k, ht, hfs, hc⟩ := Fits.of_plug h
  obtain ⟨c', m, hb, hblack⟩ := (hfs.relabel (b := b)).plug ht hc
  cases hblack (by simp)
  exact ⟨m, hb⟩

theorem Balanced.relabel_root {l r : RbTree α} {fs : List (Frame α)} {e : Color} {a b : α} {n : Nat}
    (h : Balanced (plug (.node e l a r) fs) .black n) :
    ∃ m, Balanced (plug (.node e l b r) fs) .black m := by
  have hnode : ∀ {c k}, Balanced (.node e l a r) c k → Balanced (.node e l b r) c k := by
    intro c k ht
    cases ht with
    | red hl hr => exact .red hl hr
    | black hl hr => exact .black hl hr
  cases fs with
  | nil => exact ⟨n, hnode h⟩
  | cons f fs =>
    obtain ⟨c, d, k, ht, hfs, hc⟩ := Fits.of_plug h
    obtain ⟨c', m, hb, hblack⟩ := hfs.plug (hnode ht) hc
    cases hblack (by simp)
    exact ⟨m, hb⟩

theorem Lacks.elim {t : RbTree α} {fs : List (Frame α)} (h : Lacks t fs) (ht : t.color = .black) :
    ∃ d n, Balanced t .black n ∧ Fits fs d (n + 1) := by
  obtain ⟨d, n, hb, hfs⟩ := h
  rw [ht, if_neg (by simp)] at hfs
  rw [blacken_of_black ht] at hb
  exact ⟨d, n, hb, hfs⟩

theorem Fits.sibling {f : Frame α} {d : Color} {n : Nat} {fs : List (Frame α)}
    (h : Fits (f :: fs) d n) : ∃ c, Balanced f.sibling c n := by
  cases h with
  | red hw hne h => exact ⟨_, hw⟩
  | black hw h => exact ⟨_, hw⟩

theorem Lacks.sibling {t w : RbTree α} {s : Side} {a : α} {c : Color} {fs : List (Frame α)}
    (h : Lacks t (⟨s, c, a, w⟩ :: fs)) (ht : t.color = .black) : w ≠ .nil := by
  obtain ⟨d, n, hb, hfs⟩ := h.elim ht
  obtain ⟨e, hw⟩ := hfs.sibling
  exact hw.ne_nil

theorem Lacks.rotate {t p q : RbTree α} {s : Side} {a b : α} {c : Color} {fs : List (Frame α)}
    (h : Lacks t (⟨s, c, a, branch .red s p b q⟩ :: fs)) (ht : t.color = .black) :
    Lacks t (⟨s, .red, a, p⟩ :: ⟨s, .black, b, q⟩ :: fs) := by
  obtain ⟨d, n, hb, hfs⟩ := h.elim ht
  cases hfs with
  | red hw hne hfs => cases hw.of_red_branch.1
  | black hw hfs =>
    obtain ⟨-, hp, hq⟩ := hw.of_red_branch
    exact .of_black hb (.red hp (by simp) (.black hq hfs))

theorem Lacks.recolor {t p q : RbTree α} {s : Side} {a b : α} {c : Color} {fs : List (Frame α)}
    (h : Lacks t (⟨s, c, a, branch .black s p b q⟩ :: fs)) (ht : t.color = .black)
    (hp : p.color = .black) (hq : q.color = .black) :
    Lacks (branch c s t a (branch .red s p b q)) fs := by
  obtain ⟨d, n, hb, hfs⟩ := h.elim ht
  cases hfs with
  | red hw hne hfs =>
    obtain ⟨m, c₁, c₂, -, hm, hp', hq'⟩ := hw.of_black_branch
    cases hm
    cases hp'.color_eq.symm.trans hp
    cases hq'.color_eq.symm.trans hq
    refine ⟨.black, n + 1, ?_, by simpa using hfs⟩
    rw [blacken_branch]
    exact hb.black_branch (hp'.red_branch hq')
  | black hw hfs =>
    obtain ⟨m, c₁, c₂, -, hm, hp', hq'⟩ := hw.of_black_branch
    cases hm
    cases hp'.color_eq.symm.trans hp
    cases hq'.color_eq.symm.trans hq
    exact .of_black (hb.black_branch (hp'.red_branch hq')) hfs

theorem Fits.plug_two {t u w : RbTree α} {s : Side} {a b : α} {c d : Color} {n : Nat}
    {fs : List (Frame α)} (h : Fits (⟨s, c, a, w⟩ :: fs) d n) (ht : Balanced t .black n)
    (hu : Balanced u .black n) :
    ∃ m, Balanced (RedBlack.plug (branch c s t b u) fs).blacken .black m := by
  cases h with
  | red hw hne h =>
    obtain ⟨c', m, hb, -⟩ := h.plug (ht.red_branch hu) nofun
    exact hb.blacken
  | black hw h =>
    obtain ⟨m, hb⟩ := h.plug_black (ht.black_branch hu)
    exact hb.blacken

/-- The whole tree is red-black again. -/
theorem RemoveFix.balanced {t v : RbTree α} {fs : List (Frame α)} (h : RemoveFix t fs v)
    (hl : Lacks t fs) : ∃ m, Balanced v .black m := by
  induction h with
  | root =>
    obtain ⟨d, n, hb, -⟩ := hl
    exact ⟨n, hb⟩
  | red ht =>
    obtain ⟨d, n, hb, hfs⟩ := hl
    rw [if_pos ht] at hfs
    exact hfs.plug_black hb
  | rotate ht h ih => exact ih (hl.rotate ht)
  | recolor ht hp hq h ih => exact ih (hl.recolor ht hp hq)
  | near ht hq =>
    obtain ⟨d, n, hb, hfs⟩ := hl.elim ht
    obtain ⟨c, hw⟩ := hfs.sibling
    obtain ⟨k, c₁, c₂, -, hk, hp, hq⟩ := hw.of_black_branch
    cases hk
    obtain ⟨rfl, hp, hm⟩ := hp.of_red_branch
    exact hfs.plug_two (hb.black_branch hp) (hm.black_branch hq)
  | far ht hq =>
    obtain ⟨d, n, hb, hfs⟩ := hl.elim ht
    obtain ⟨c, hw⟩ := hfs.sibling
    obtain ⟨k, c₁, c₂, -, hk, hp, hq'⟩ := hw.of_black_branch
    cases hk
    cases hq'.color_eq.symm.trans hq
    exact hfs.plug_two (hb.black_branch hp) hq'.blacken_red

end RedBlack
