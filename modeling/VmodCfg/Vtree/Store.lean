import Mathlib.Data.Fintype.Option
import VmodCfg.File.Variables
import VmodCfg.Lib.Machine
import VmodCfg.Vtree.Detach

/-!
# Sets of variables in memory

What the objects of the module do with a `variables_t`, by way of the functions
of `vtree.h`, and what it does to the set as a map. `malloc` chooses an address
that is not in use. An element that is taken out by `unset` is not freed.
-/

namespace VmodCfg.Vtree

open RedBlack RedBlack.RbTree Footprint Machine

open File (Variables)

/-- `variable_t`, less its entry: the name and the value. -/
abbrev Variable := CString × CString

/-- The head of the set, and the memory. -/
abbrev Store (P : Type) := State (Option P) P (Elem P Variable)

/-- What is done with a set: `put` stores the value, or changes the one that is there. -/
inductive Op where
  | get (name : CString)
  | insertNew (name value : CString)
  | put (name value : CString) (change : CString → CString)
  | unset (name : CString)
  | dump
  | flush

inductive Answer where
  | value (result : Option CString)
  | variables (list : List Variable)
  | done
  | panic
  deriving DecidableEq

def Op.creates : Op → Bool
  | .insertNew .. | .put .. => true
  | _ => false

/-! ## In memory -/

section Memory

variable {P : Type} [DecidableEq P] (bound : Nat)

/-- `variable->value = ...` -/
def changeValue (p : P) (change : CString → CString) : Prog P Variable Unit :=
  update (some p) fun e => { e with data := (e.data.1, change e.data.2) }

def findVariable (name : CString) : Prog P Variable (Option P) :=
  find Prod.fst CString.strcmp bound name

/-- `new_global_variable`, at `p`, and `AZ(VRBT_INSERT(...))`. -/
def insertNew (p : P) (name value : CString) : Prog P Variable Answer := do
  alloc p ⟨(name, value), ⟨none, none, none, .black⟩⟩
  match ← insert Prod.fst CString.strcmp bound p with
  | none => return .done
  | some _ => return .panic

/-- An operation, with `p` as the address that `malloc` chooses. -/
def perform (p : P) : Op → Prog P Variable Answer
  | .get name => do
    match ← findVariable bound name with
    | none => return .value none
    | some found => return .value (some (← data (some found)).2)
  | .insertNew name value => insertNew bound p name value
  | .put name value change => do
    match ← findVariable bound name with
    | none => insertNew bound p name value
    | some found => do
      changeValue found change
      return .done
  | .unset name => do
    match ← findVariable bound name with
    | none => return .done
    | some found => do
      remove bound (some found)
      return .done
  | .dump => return .variables (← walk bound)
  | .flush => do
    flush bound
    return .done

def answer (s : Store P) (a : Op × P) : Option Answer := (perform bound a.2 a.1 s).map Prod.fst

def step (s : Store P) (a : Op × P) : Option (Store P) :=
  (perform bound a.2 a.1 s).bind fun r => if r.1 = .panic then none else some r.2

def initial : Store P := ⟨none, fun _ => none⟩

end Memory

/-! ## As a map -/

namespace Op

variable (vars : Variables)

/-- The answer to an operation on the map, and what is in the map then. -/
def run : Op → Answer × Variables
  | .get name => (.value (vars.findVariable name), vars)
  | .insertNew name value =>
    match vars.insertNew name value with
    | some vars' => (.done, vars')
    | none => (.panic, vars)
  | .put name value change =>
    match vars.findVariable name with
    | some old => (.done, vars.setValue name (change old))
    | none => (.done, vars.insert name value)
  | .unset name => (.done, vars.erase name)
  | .dump => (.variables vars.toList, vars)
  | .flush => (.done, ∅)

/-- The number of elements that are not in the set any more, and not freed. -/
def lost : Op → Nat
  | .unset name => if name ∈ vars then 1 else 0
  | _ => 0

/-- An operation of a run on the map, with the number of elements that were lost. -/
def stepMap (x : Variables × Nat) (op : Op) : Option (Variables × Nat) :=
  if (op.run x.1).1 = .panic then none else some ((op.run x.1).2, x.2 + op.lost x.1)

end Op

/-! ## The set in memory is the map -/

variable {P : Type} {t : RbTree (P × Variable)} {s : Store P} {vars : Variables} {n : Nat}

/-- The memory holds a red-black tree with the variables of the map, and elements that were lost. -/
structure Represents (s : Store P) (t : RbTree (P × Variable)) (vars : Variables)
    (n : Nat) : Prop where
  balanced : ∃ k, Balanced t .black k
  ordered : Ordered (keyOf Prod.fst) CString.strcmp t
  root : s.reg = addr t
  memory : ∃ others, others.card = n ∧ Holds s.mem (cells none t + others)
  lookup : ∀ name value, (name, value) ∈ t.toList.map Prod.snd ↔ vars[name]? = some value

theorem represents_initial : Represents (initial : Store P) .nil ∅ 0 where
  balanced := ⟨0, .nil⟩
  ordered := .nil
  root := rfl
  memory := ⟨0, rfl, by simp [Holds, cells, initial]⟩
  lookup := by simp [toList]

theorem Represents.distinct (h : Represents s t vars n) : Distinct t := by
  obtain ⟨others, -, hmem⟩ := h.memory
  have hnd := hmem.1
  rw [Multiset.map_add, map_fst_cells, Multiset.nodup_add] at hnd
  exact Multiset.coe_nodup.mp hnd.1

theorem strcmp_self (name : CString) : CString.strcmp name name = .eq := Std.ReflCmp.compare_self

theorem Represents.toList_eq (h : Represents s t vars n) :
    t.toList.map Prod.snd = vars.toList := by
  have hord : (t.toList.map Prod.snd).Pairwise fun a b => CString.strcmp a.1 b.1 = .lt :=
    List.pairwise_map.mpr h.ordered
  have hirrefl : ∀ a b : Variable, CString.strcmp a.1 b.1 = .lt → a ≠ b := by
    rintro a b hlt rfl
    rw [strcmp_self] at hlt
    cases hlt
  refine List.Perm.eq_of_pairwise ?_ hord Std.ExtTreeMap.ordered_keys_toList ?_
  · intro a b _ _ hab hba
    rw [Std.OrientedCmp.gt_of_lt hab] at hba
    cases hba
  · refine (List.perm_ext_iff_of_nodup (hord.imp fun {a b} => hirrefl a b) ?_).mpr ?_
    · exact vars.nodup_toList
    · rintro ⟨name, value⟩
      rw [h.lookup, Std.ExtTreeMap.mem_toList_iff_getElem?_eq_some]

theorem Represents.length_eq (h : Represents s t vars n) : t.toList.length = vars.size := by
  rw [← Std.ExtTreeMap.length_toList, ← h.toList_eq, List.length_map]

theorem Represents.lookup_erase {xs ys : List (P × Variable)} {p : P} {name value : CString}
    (h : Represents s t vars n) (heq : t.toList = xs ++ (p, (name, value)) :: ys) :
    ∀ name' value', (name', value') ∈ (xs ++ ys).map Prod.snd ↔
      (vars.erase name)[name']? = some value' := by
  have hnames : (t.toList.map fun a => a.2.1).Nodup := by
    refine List.pairwise_map.mpr (h.ordered.imp ?_)
    intro a b hlt hab
    rw [keyOf, keyOf, hab, strcmp_self] at hlt
    cases hlt
  rw [heq, List.map_append, List.map_cons, List.nodup_middle, List.nodup_cons] at hnames
  intro name' value'
  rw [Std.ExtTreeMap.getElem?_erase]
  have hlookup := h.lookup name' value'
  rw [heq] at hlookup
  by_cases hname : name' = name
  · subst hname
    simp only [strcmp_self, if_true, reduceCtorEq, iff_false]
    intro hmem
    obtain ⟨a, ha, hav⟩ := List.mem_map.mp hmem
    refine hnames.1 ?_
    rw [← List.map_append]
    exact List.mem_map.mpr ⟨a, ha, by rw [hav]⟩
  · rw [if_neg fun heq => hname (Std.LawfulEqCmp.eq_of_compare heq).symm, ← hlookup]
    simp [hname]

theorem getElem?_insert_iff {name value name' value' : CString} :
    (vars.insert name value)[name']? = some value' ↔
      (name', value') = (name, value) ∨ (vars.erase name)[name']? = some value' := by
  rw [Std.ExtTreeMap.getElem?_insert, Std.ExtTreeMap.getElem?_erase]
  by_cases hname : name' = name
  · subst hname
    simp [strcmp_self, eq_comm]
  · have hne : ¬ CString.strcmp name name' = .eq :=
      fun heq => hname (Std.LawfulEqCmp.eq_of_compare heq).symm
    rw [if_neg hne, if_neg hne]
    simp [hname]

/-! ## Each operation -/

section Operations

variable {bound : Nat} {name value : CString} {p : P}

/-- What a program does to the tree, it does whatever was lost. -/
theorem Represents.exec {α : Type} {x : Prog P Variable α} {v : α} {t' : RbTree (P × Variable)}
    {vars' : Variables} {lost : Multiset (P × Elem P Variable)} (h : Represents s t vars n)
    (hx : Spec (addr t) (cells none t) x v (addr t') (lost + cells none t'))
    (hbal : ∃ k, Balanced t' .black k) (hord : Ordered (keyOf Prod.fst) CString.strcmp t')
    (hlookup : ∀ name value, (name, value) ∈ t'.toList.map Prod.snd ↔ vars'[name]? = some value) :
    ∃ s', x s = some (v, s') ∧ Represents s' t' vars' (n + lost.card) := by
  obtain ⟨others, hcard, hmem⟩ := h.memory
  obtain ⟨h', hrun, hmem'⟩ := hx s.mem others hmem
  refine ⟨⟨addr t', h'⟩, ?_, hbal, hord, rfl, ⟨lost + others, ?_, ?_⟩, hlookup⟩
  · rw [← h.root] at hrun
    exact hrun
  · rw [Multiset.card_add, hcard, add_comm]
  · rw [add_comm lost, add_assoc] at hmem'
    exact hmem'

/-- A program that leaves the tree alone leaves all of the memory alone. -/
theorem Represents.reads {α : Type} {x : Prog P Variable α} {v : α} (h : Represents s t vars n)
    (hx : Does t x v t) : x s = some (v, s) := by
  obtain ⟨others, -, hmem⟩ := h.memory
  obtain ⟨h', hrun, hmem'⟩ := hx s.mem others hmem
  rw [← h.root, hmem.eq hmem'] at hrun
  exact hrun

theorem Represents.find (h : Represents s t vars n) (hbound : t.height < bound) (name : CString) :
    ∃ res, Does t (findVariable bound name) res t ∧
      (res = none ∧ vars[name]? = none ∨
        ∃ p value, res = some p ∧ (p, (name, value)) ∈ t.toList ∧ vars[name]? = some value) := by
  obtain ⟨res, hdoes, hsome, hnone⟩ := Does.find hbound h.ordered
  refine ⟨res, hdoes, ?_⟩
  cases res with
  | none =>
    refine .inl ⟨rfl, Option.eq_none_iff_forall_ne_some.mpr fun value hv => ?_⟩
    obtain ⟨a, ha, hav⟩ := List.mem_map.mp ((h.lookup name value).mpr hv)
    refine hnone rfl a ha ?_
    rw [hav]
    exact strcmp_self name
  | some p =>
    obtain ⟨⟨name', value⟩, hmem, heq⟩ := hsome p rfl
    cases Std.LawfulEqCmp.eq_of_compare heq
    exact .inr ⟨p, value, rfl, hmem, (h.lookup _ value).mp (List.mem_map_of_mem hmem)⟩

theorem Represents.hasKey (h : Represents s t vars n) :
    HasKey Prod.fst CString.strcmp name t ↔ name ∈ vars := by
  rw [Std.ExtTreeMap.mem_iff_isSome_getElem?, Option.isSome_iff_exists]
  constructor
  · rintro ⟨⟨p, name', value⟩, hmem, heq⟩
    cases Std.LawfulEqCmp.eq_of_compare heq
    exact ⟨value, (h.lookup _ value).mp (List.mem_map_of_mem hmem)⟩
  · rintro ⟨value, hv⟩
    obtain ⟨a, ha, hav⟩ := List.mem_map.mp ((h.lookup name value).mpr hv)
    refine ⟨a, ha, ?_⟩
    rw [hav]
    exact strcmp_self name

theorem Represents.length_le [Fintype P] (h : Represents s t vars n) :
    t.toList.length ≤ Fintype.card P := by
  have hlen := List.Nodup.length_le_card h.distinct
  rwa [List.length_map] at hlen

theorem Represents.height_lt [Fintype P] (h : Represents s t vars n)
    (hbound : Fintype.card P < bound) : t.height < bound :=
  Nat.lt_of_le_of_lt ((height_le_length t).trans h.length_le) hbound

/-- A program that begins with a search goes on with the element of the variable, or with NULL. -/
theorem Represents.found {α : Type} {k : Option P → Prog P Variable α}
    (h : Represents s t vars n) (hbound : t.height < bound) (name : CString) :
    name ∉ vars ∧ (Vtree.findVariable bound name >>= k) s = k none s ∨
      ∃ q value, (q, (name, value)) ∈ t.toList ∧ vars.findVariable name = some value ∧
        (Vtree.findVariable bound name >>= k) s = k (some q) s := by
  obtain ⟨res, hdoes, hres⟩ := h.find hbound name
  have hrun : (Vtree.findVariable bound name >>= k) s = k res s := by
    show (Vtree.findVariable bound name s).bind _ = _
    rw [h.reads hdoes]
    rfl
  rcases hres with ⟨rfl, hnone⟩ | ⟨q, value, rfl, hq, hvalue⟩
  · refine .inl ⟨fun hin => ?_, hrun⟩
    rw [Std.ExtTreeMap.mem_iff_isSome_getElem?, hnone] at hin
    cases hin
  · exact .inr ⟨q, value, hq, hvalue, hrun⟩

theorem Represents.data (h : Represents s t vars n) (hp : (p, (name, value)) ∈ t.toList) :
    Vtree.data (some p) s = some ((name, value), s) := by
  obtain ⟨c, l, r, fs, rfl⟩ := exists_focus hp
  exact h.reads (Does.data (s := .left))

variable [DecidableEq P]

theorem Represents.alloc (h : Represents s t vars n) (hp : s.mem p = none) (e : Elem P Variable) :
    (p :: t.toList.map Prod.fst).Nodup ∧ ∃ h' others, others.card = n ∧
      Footprint.alloc p e s = some ((), ⟨addr t, h'⟩) ∧
      Holds h' ({(p, e)} + cells none t + others) := by
  obtain ⟨others, hcard, hmem⟩ := h.memory
  obtain ⟨h', hrun, hmem'⟩ := Spec.alloc (r := s.reg) (c := e) hmem hp
  rw [← Multiset.singleton_add, ← add_assoc] at hmem'
  refine ⟨?_, h', others, hcard, ?_, hmem'⟩
  · have hnd := hmem'.1
    rw [Multiset.map_add, Multiset.map_add, Multiset.map_singleton, map_fst_cells,
      Multiset.nodup_add] at hnd
    exact Multiset.coe_nodup.mp hnd.1
  · rw [← h.root]
    exact hrun

theorem Represents.insertNew [Fintype P] (h : Represents s t vars n)
    (hbound : Fintype.card P < bound) (hp : s.mem p = none) (name value : CString) :
    (name ∈ vars ∧ ∃ s', insertNew bound p name value s = some (.panic, s')) ∨
      name ∉ vars ∧ ∃ s' t', insertNew bound p name value s = some (.done, s') ∧
        Represents s' t' (vars.insert name value) n := by
  obtain ⟨hnd, h', others, hcard, halloc, hmem⟩ :=
    h.alloc hp ⟨(name, value), ⟨none, none, none, .black⟩⟩
  have hlen : t.toList.length + 1 < bound := by
    have hle := List.Nodup.length_le_card hnd
    rw [List.length_cons, List.length_map] at hle
    omega
  -- what follows the allocation, in the memory that it leaves
  have hrest : ∀ {v : Answer} {t' : RbTree (P × Variable)} {m : Multiset (P × Elem P Variable)},
      Spec (addr t) ({(p, ⟨(name, value), ⟨none, none, none, .black⟩⟩)} + cells none t)
        (do
          match ← insert Prod.fst CString.strcmp bound p with
          | none => return .done
          | some _ => return .panic) v (addr t') m →
      ∃ h'', Vtree.insertNew bound p name value s = some (v, ⟨addr t', h''⟩) ∧
        Holds h'' (m + others) := by
    intro v t' m hspec
    obtain ⟨h'', hrun, hmem'⟩ := hspec h' others hmem
    refine ⟨h'', ?_, hmem'⟩
    show (Footprint.alloc _ _ s).bind _ = _
    rw [halloc]
    exact hrun
  obtain ⟨k, hbal⟩ := h.balanced
  rcases spec_insert (e := ⟨(name, value), ⟨none, none, none, .black⟩⟩) hlen hbal h.ordered hnd with
    ⟨q, hkey, hspec⟩ | ⟨v, m, hkey, hv, hord, hperm, hspec⟩
  · obtain ⟨h'', hrun, -⟩ := hrest (Spec.bind hspec Spec.pure)
    exact .inl ⟨h.hasKey.mp hkey, _, hrun⟩
  · have hnew : name ∉ vars := fun hin => hkey (h.hasKey.mpr hin)
    obtain ⟨h'', hrun, hmem'⟩ := hrest (Spec.bind hspec Spec.pure)
    refine .inr ⟨hnew, _, v, hrun, ⟨m, hv⟩, hord, rfl, ⟨others, hcard, hmem'⟩, ?_⟩
    intro name' value'
    rw [(hperm.map Prod.snd).mem_iff, List.map_cons, List.mem_cons, h.lookup, getElem?_insert_iff,
      Std.ExtTreeMap.getElem?_erase]
    by_cases hname : name' = name
    · subst hname
      simp [strcmp_self, Std.ExtTreeMap.getElem?_eq_none hnew]
    · rw [if_neg fun heq => hname (Std.LawfulEqCmp.eq_of_compare heq).symm]

/-- `get_variable` needs as many turns as the tree is high, and one more. -/
theorem Represents.get (h : Represents s t vars n) (hbound : t.height < bound) :
    Vtree.perform bound p (.get name) s = some (.value (vars.findVariable name), s) := by
  rcases h.found hbound name with ⟨hnot, hrun⟩ | ⟨q, value, hq, hvalue, hrun⟩
  · rw [Variables.findVariable, Std.ExtTreeMap.getElem?_eq_none hnot]
    exact hrun
  · rw [hvalue]
    refine hrun.trans ?_
    show (Vtree.data (some q) s).bind _ = _
    rw [h.data hq]
    rfl

theorem Does.changeValue (h : (p, (name, value)) ∈ t.toList) (hbal : ∃ k, Balanced t .black k)
    (change : CString → CString) :
    ∃ t' xs ys, t.toList = xs ++ (p, (name, value)) :: ys ∧
      t'.toList = xs ++ (p, (name, change value)) :: ys ∧ (∃ k, Balanced t' .black k) ∧
      Does t (changeValue p change) () t' := by
  obtain ⟨c, l, r, fs, rfl⟩ := exists_focus h
  refine ⟨plug (.node c l (p, (name, change value)) r) fs, _, _, toList_plug_node ..,
    toList_plug_node .., ?_, ?_⟩
  · obtain ⟨k, hbal⟩ := hbal
    exact hbal.relabel_root
  · have hset : Spec (addr (plug (.node c l (p, (name, value)) r) fs))
        {(p, elem .left c (name, value) (addr l) (addr r) (parentAddr fs))}
        (Vtree.changeValue p change) () _
        {(p, elem .left c (name, change value) (addr l) (addr r) (parentAddr fs))} := Spec.update
    have hnode : ∀ b : P × Variable, node c l b r = branch c .left l b r := fun b => rfl
    unfold Does
    simp only [hnode, addr_plug, cells_plug, addr_branch, cells_branch] at hset ⊢
    convert hset.frame (cells (some p) l + cells (some p) r + holeCells (some p) fs) using 1 <;> abel

theorem Represents.changeValue (h : Represents s t vars n) (hp : (p, (name, value)) ∈ t.toList)
    (change : CString → CString) :
    ∃ s' t', Vtree.changeValue p change s = some ((), s') ∧
      Represents s' t' (vars.insert name (change value)) n := by
  obtain ⟨t', xs, ys, heq, heq', hbal, hdoes⟩ := Does.changeValue hp h.balanced change
  have hord : Ordered (keyOf Prod.fst) CString.strcmp t' := by
    refine h.ordered.congr ?_
    rw [heq, heq']
    simp
  have hspec : Spec (addr t) (cells none t) (Vtree.changeValue p change) () (addr t')
      (0 + cells none t') := by
    rw [zero_add]
    exact hdoes
  have hlookup : ∀ name' value', (name', value') ∈ t'.toList.map Prod.snd ↔
      (vars.insert name (change value))[name']? = some value' := by
    intro name' value'
    rw [getElem?_insert_iff, ← h.lookup_erase heq, heq']
    simp only [List.map_append, List.map_cons, List.mem_append, List.mem_cons]
    tauto
  obtain ⟨s', hrun, hs'⟩ := h.exec hspec hbal hord hlookup
  exact ⟨s', t', hrun, hs'⟩

theorem Represents.remove [Fintype P] (h : Represents s t vars n) (hbound : Fintype.card P < bound)
    (hp : (p, (name, value)) ∈ t.toList) :
    ∃ s' t', Vtree.remove bound (some p) s = some ((), s') ∧
      Represents s' t' (vars.erase name) (n + 1) := by
  obtain ⟨k, hbal⟩ := h.balanced
  obtain ⟨v, m, e, xs, ys, -, hv, heq, hlist, hspec⟩ :=
    spec_remove (Nat.lt_of_le_of_lt h.length_le hbound) hp hbal h.distinct
  have hord : Ordered (keyOf Prod.fst) CString.strcmp v := by
    have hsub : v.toList.Sublist t.toList := by
      rw [heq, hlist]
      simp
    exact h.ordered.sublist hsub
  obtain ⟨s', hrun, hs'⟩ := h.exec hspec ⟨m, hv⟩ hord (by
    rw [hlist]
    exact h.lookup_erase heq)
  exact ⟨s', v, hrun, hs'⟩

theorem Represents.flush [Fintype P] (h : Represents s t vars n) (hbound : Fintype.card P < bound)
    {others : Multiset (P × Elem P Variable)} (hmem : Holds s.mem (cells none t + others)) :
    ∃ h', Vtree.perform bound p .flush s = some (.done, ⟨none, h'⟩) ∧ Holds h' others := by
  obtain ⟨k, hbal⟩ := h.balanced
  have hflush := Does.flush (Nat.lt_of_le_of_lt h.length_le hbound) hbal h.distinct
  have hspec : Spec (addr t) (cells none t)
      (do
        Vtree.flush bound
        return .done : Prog P Variable Answer) .done none 0 := Spec.bind hflush Spec.pure
  obtain ⟨h', hrun, hmem'⟩ := hspec s.mem others hmem
  rw [← h.root] at hrun
  rw [zero_add] at hmem'
  exact ⟨h', hrun, hmem'⟩

/-- **Every operation** on the set in memory does what it does on the map, whatever address `malloc`
chooses. -/
theorem Represents.perform [Fintype P] (h : Represents s t vars n) (hbound : Fintype.card P < bound)
    (op : Op) (hp : op.creates = true → s.mem p = none) :
    ∃ s', perform bound p op s = some ((op.run vars).1, s') ∧
      ((op.run vars).1 ≠ .panic → ∃ t', Represents s' t' (op.run vars).2 (n + op.lost vars)) := by
  cases op with
  | get name =>
    exact ⟨s, h.get (h.height_lt hbound), fun _ => ⟨t, h⟩⟩
  | insertNew name value =>
    rcases h.insertNew hbound (hp rfl) name value with
      ⟨hin, s', hrun⟩ | ⟨hnew, s', t', hrun, hs'⟩
    · rw [Op.run, Variables.insertNew, if_pos hin]
      exact ⟨s', hrun, fun hne => absurd rfl hne⟩
    · rw [Op.run, Variables.insertNew, if_neg hnew]
      exact ⟨s', hrun, fun _ => ⟨t', hs'⟩⟩
  | put name value change =>
    rcases h.found (h.height_lt hbound) name with ⟨hnot, hrun⟩ | ⟨q, old, hq, hold, hrun⟩
    · rw [Op.run, Variables.findVariable, Std.ExtTreeMap.getElem?_eq_none hnot]
      rcases h.insertNew hbound (hp rfl) name value with
        ⟨hin, -⟩ | ⟨hnew, s', t', hins, hs'⟩
      · exact absurd hin hnot
      · exact ⟨s', hrun.trans hins, fun _ => ⟨t', hs'⟩⟩
    · rw [Op.run, hold]
      obtain ⟨s', t', hchange, hs'⟩ := h.changeValue hq change
      refine ⟨s', hrun.trans ?_, fun _ => ⟨t', hs'⟩⟩
      show (Vtree.changeValue q change s).bind _ = _
      rw [hchange]
      rfl
  | unset name =>
    rcases h.found (h.height_lt hbound) name with ⟨hnot, hrun⟩ | ⟨q, old, hq, hold, hrun⟩
    · have herase : vars.erase name = vars := by
        refine Std.ExtTreeMap.ext_getElem? fun name' => ?_
        rw [Std.ExtTreeMap.getElem?_erase]
        split
        · rename_i heq
          rw [← Std.LawfulEqCmp.eq_of_compare heq, Std.ExtTreeMap.getElem?_eq_none hnot]
        · rfl
      refine ⟨s, hrun, fun _ => ⟨t, ?_⟩⟩
      rw [Op.run, Op.lost, if_neg hnot, herase]
      exact h
    · have hin : name ∈ vars := (h.hasKey).mp ⟨_, hq, strcmp_self name⟩
      obtain ⟨s', t', hremove, hs'⟩ := h.remove hbound hq
      refine ⟨s', hrun.trans ?_, fun _ => ⟨t', ?_⟩⟩
      · show (Vtree.remove bound (some q) s).bind _ = _
        rw [hremove]
        rfl
      · rw [Op.run, Op.lost, if_pos hin]
        exact hs'
  | dump =>
    refine ⟨s, ?_, fun _ => ⟨t, h⟩⟩
    have hwalk := Does.walk (Nat.lt_of_le_of_lt h.length_le hbound) h.distinct
    rw [h.toList_eq] at hwalk
    exact h.reads (Does.bind hwalk Does.pure)
  | flush =>
    obtain ⟨others, hcard, hmem⟩ := h.memory
    obtain ⟨h', hrun, hmem'⟩ := h.flush hbound hmem
    refine ⟨_, hrun, fun _ => ⟨.nil, ⟨0, .nil⟩, .nil, rfl, ⟨others, hcard, ?_⟩, ?_⟩⟩
    · rwa [cells, zero_add]
    · simp [Op.run, toList]

end Operations

/-! ## Runs -/

section Runs

variable [DecidableEq P] [Fintype P] {bound : Nat} {tr : List (Op × P)}

/-- What `malloc` returns is not in use. -/
def Unused (s : Store P) (a : Op × P) : Prop := a.1.creates = true → s.mem a.2 = none

instance (s : Store P) (a : Op × P) : Decidable (Unused s a) :=
  inferInstanceAs (Decidable (_ → _))

/-- The set in memory is the map with the names and values, and so many elements were lost. -/
def Agrees (s : Store P) (x : Variables × Nat) : Prop := ∃ t, Represents s t x.1 x.2

theorem agrees_step (hbound : Fintype.card P < bound) (s : Store P) (x : Variables × Nat)
    (a : Op × P) (hnew : Unused s a) (hs : Agrees s x) :
    answer bound s a = some (a.1.run x.1).1 ∧
      (step bound s a = none ∧ Op.stepMap x a.1 = none ∨
        ∃ s' x', step bound s a = some s' ∧ Op.stepMap x a.1 = some x' ∧ Agrees s' x') := by
  obtain ⟨t, hs⟩ := hs
  obtain ⟨s', hrun, hs'⟩ := hs.perform hbound a.1 hnew
  refine ⟨by rw [answer, hrun]; rfl, ?_⟩
  rw [step, hrun, Option.bind_some, Op.stepMap]
  by_cases hpanic : (a.1.run x.1).1 = .panic
  · exact .inl ⟨if_pos hpanic, if_pos hpanic⟩
  · obtain ⟨t', ht'⟩ := hs' hpanic
    exact .inr ⟨s', _, if_neg hpanic, if_neg hpanic, t', ht'⟩

theorem agrees_run (hbound : Fintype.card P < bound)
    (hmalloc : Along (step bound) Unused initial tr) :
    trace (step bound) (answer bound) initial tr =
        trace Op.stepMap (fun x op => some (op.run x.1).1) (∅, 0) (tr.map Prod.fst) ∧
      ∀ s, exec (step bound) initial tr = some s →
        ∃ x, exec Op.stepMap (∅, 0) (tr.map Prod.fst) = some x ∧ Agrees s x :=
  lockstep Prod.fst Agrees (agrees_step hbound) hmalloc ⟨.nil, represents_initial⟩

/-- Three variables at three addresses, of which one is taken out. -/
def threeOps : List (Op × Option Bool) :=
  [(.insertNew (CString.letters 2) (CString.letters 1), none),
    (.put (CString.letters 1) (CString.letters 2) id, some true), (.get (CString.letters 1), none),
    (.insertNew (CString.letters 3) .empty, some false), (.unset (CString.letters 2), none),
    (.dump, none)]

theorem threeOps_unused : Along (step 4) Unused initial threeOps := by decide +kernel

theorem threeOps_isSome : (exec (step 4) initial threeOps).isSome := by decide +kernel

/-- **The set is the map**: every run of operations, from `VRBT_INIT` on, answers what the map
answers. No operation follows a pointer that is NULL or dangling, and every loop ends. -/
theorem answers_eq (hbound : Fintype.card P < bound)
    (hmalloc : Along (step bound) Unused initial tr) :
    trace (step bound) (answer bound) initial tr =
      trace Op.stepMap (fun x op => some (op.run x.1).1) (∅, 0) (tr.map Prod.fst) :=
  (agrees_run hbound hmalloc).1

theorem answers_eq_three : trace (step 4) (answer 4) initial threeOps =
    [.done, .done, .value (some (CString.letters 2)), .done, .done,
      .variables [(CString.letters 1, CString.letters 2), (CString.letters 3, .empty)]] :=
  (answers_eq (by decide) threeOps_unused).trans (by decide +kernel)

/-- **The tree stays red-black**: its elements are the variables of the map in order, and a search
of it takes a number of turns that is logarithmic in how many they are. -/
theorem reachable_redBlack (hbound : Fintype.card P < bound)
    (hmalloc : Along (step bound) Unused initial tr) {s : Store P}
    (hex : exec (step bound) initial tr = some s) :
    ∃ t k vars lost, exec Op.stepMap (∅, 0) (tr.map Prod.fst) = some (vars, lost) ∧
      s.reg = addr t ∧ (∃ others, Holds s.mem (cells none t + others)) ∧
      Balanced t .black k ∧ t.toList.map Prod.snd = vars.toList ∧
      ∀ name p, perform (2 * Nat.log 2 (vars.size + 1) + 1) p (.get name) s =
        some (.value vars[name]?, s) := by
  obtain ⟨⟨vars, lost⟩, hmap, t, hs⟩ := (agrees_run hbound hmalloc).2 s hex
  obtain ⟨k, hbal⟩ := hs.balanced
  have hheight := RedBlack.height_le hbal
  rw [hs.length_eq] at hheight
  obtain ⟨others, -, hmem⟩ := hs.memory
  refine ⟨t, k, vars, lost, hmap, hs.root, ⟨others, hmem⟩, hbal, hs.toList_eq, ?_⟩
  refine fun name p => hs.get ?_
  exact Nat.lt_succ_of_le hheight

theorem reachable_redBlack_three : ∃ s, exec (step 4) initial threeOps = some s ∧
    ∃ t k vars lost, exec Op.stepMap (∅, 0) (threeOps.map Prod.fst) = some (vars, lost) ∧
      s.reg = addr t ∧ (∃ others, Holds s.mem (cells none t + others)) ∧
      Balanced t .black k ∧ t.toList.map Prod.snd = vars.toList ∧
      ∀ name p, perform (2 * Nat.log 2 (vars.size + 1) + 1) p (.get name) s =
        some (.value vars[name]?, s) := by
  obtain ⟨s, hex⟩ := Option.isSome_iff_exists.mp threeOps_isSome
  exact ⟨s, hex, reachable_redBlack (by decide) threeOps_unused hex⟩

/-- **What is not freed**: the elements in memory are those of the tree, which are the variables of
the map, and one for each `unset` that found its variable; a flush frees the former and no others. -/
theorem reachable_allocated (hbound : Fintype.card P < bound)
    (hmalloc : Along (step bound) Unused initial tr) {s : Store P}
    (hex : exec (step bound) initial tr = some s) :
    ∃ vars lost t others, exec Op.stepMap (∅, 0) (tr.map Prod.fst) = some (vars, lost) ∧
      s.reg = addr t ∧ t.toList.map Prod.snd = vars.toList ∧
      Multiset.card others = lost ∧ Holds s.mem (cells none t + others) ∧
      ∀ p, ∃ s', step bound s (.flush, p) = some s' ∧ s'.reg = none ∧ Holds s'.mem others := by
  obtain ⟨⟨vars, lost⟩, hmap, t, hs⟩ := (agrees_run hbound hmalloc).2 s hex
  obtain ⟨others, hcard, hmem⟩ := hs.memory
  refine ⟨vars, lost, t, others, hmap, hs.root, hs.toList_eq, hcard, hmem, fun p => ?_⟩
  obtain ⟨h', hrun, hmem'⟩ := hs.flush hbound hmem (p := p)
  refine ⟨⟨none, h'⟩, ?_, rfl, hmem'⟩
  rw [step, hrun]
  rfl

theorem reachable_allocated_three : ∃ s, exec (step 4) initial threeOps = some s ∧
    ∃ vars lost t others, exec Op.stepMap (∅, 0) (threeOps.map Prod.fst) = some (vars, lost) ∧
      s.reg = addr t ∧ t.toList.map Prod.snd = vars.toList ∧
      Multiset.card others = lost ∧ Holds s.mem (cells none t + others) ∧
      ∀ p, ∃ s', step 4 s (.flush, p) = some s' ∧ s'.reg = none ∧ Holds s'.mem others := by
  obtain ⟨s, hex⟩ := Option.isSome_iff_exists.mp threeOps_isSome
  exact ⟨s, hex, reachable_allocated (by decide) threeOps_unused hex⟩

end Runs

end VmodCfg.Vtree
