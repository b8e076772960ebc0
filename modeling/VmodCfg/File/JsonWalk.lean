import Mathlib.Data.List.Nodup
import VmodCfg.File.Json
import VmodCfg.Lib.Decimal

/-!
# The walk over a JSON document

What a document stands for is the list of its leaves, the nested objects flattened. The walk is one
insertion for each leaf that has a text, and fails where two of them have one name, or where a name
or a prefix is none that `asprintf` can build.
-/

namespace VmodCfg.File

open CString

/-! ## One insertion after the other -/

namespace Variables

/-- The insertions of `file_parse_json_emit`, for all of the names and values. -/
def insertAll (vars : Variables) : List (CString × CString) → Option Variables
  | [] => some vars
  | x :: l =>
    if 0 < x.1.asprintf then (vars.insertNew x.1 x.2).bind fun vars => insertAll vars l else none

theorem insertAll_append (vars : Variables) (l l' : List (CString × CString)) :
    insertAll vars (l ++ l') = (insertAll vars l).bind fun vars => insertAll vars l' := by
  induction l generalizing vars with
  | nil => rfl
  | cons x l ih =>
    simp only [List.cons_append, insertAll]
    split
    · rw [Option.bind_assoc]
      congr 1
      funext vars
      exact ih vars
    · rfl

theorem insertAll_cons_eq_some {vars vars' : Variables} {x : CString × CString}
    {l : List (CString × CString)} (h : insertAll vars (x :: l) = some vars') :
    0 < x.1.asprintf ∧ x.1 ∉ vars ∧ insertAll (vars.insert x.1 x.2) l = some vars' := by
  simp only [insertAll] at h
  split at h
  · rename_i hpos
    obtain ⟨vars'', hx, hl⟩ := Option.bind_eq_some_iff.mp h
    obtain ⟨hnew, rfl⟩ := insertNew_eq_some hx
    exact ⟨hpos, hnew, hl⟩
  · cases h

theorem insertAll_isSome_iff (vars : Variables) (l : List (CString × CString)) :
    (insertAll vars l).isSome ↔
      (∀ x ∈ l, 0 < x.1.asprintf) ∧ (∀ x ∈ l, x.1 ∉ vars) ∧ (l.map Prod.fst).Nodup := by
  induction l generalizing vars with
  | nil => simp [insertAll]
  | cons x l ih =>
    constructor
    · intro h
      obtain ⟨vars', h⟩ := Option.isSome_iff_exists.mp h
      obtain ⟨hpos, hnew, hl⟩ := insertAll_cons_eq_some h
      obtain ⟨hposs, hnews, hnodup⟩ := (ih _).mp (Option.isSome_iff_exists.mpr ⟨vars', hl⟩)
      have hother : ∀ y ∈ l, y.1 ∉ vars ∧ y.1 ≠ x.1 := by
        intro y hy
        have hmem := hnews y hy
        rw [Std.ExtTreeMap.mem_insert, Std.LawfulEqCmp.compare_eq_iff_eq] at hmem
        exact ⟨fun h => hmem (.inr h), fun h => hmem (.inl h.symm)⟩
      refine ⟨List.forall_mem_cons.mpr ⟨hpos, hposs⟩,
        List.forall_mem_cons.mpr ⟨hnew, fun y hy => (hother y hy).1⟩, ?_⟩
      rw [List.map_cons, List.nodup_cons]
      refine ⟨fun hmem => ?_, hnodup⟩
      obtain ⟨y, hy, heq⟩ := List.mem_map.mp hmem
      exact (hother y hy).2 heq
    · rintro ⟨hpos, hnew, hnodup⟩
      rw [List.forall_mem_cons] at hpos hnew
      rw [List.map_cons, List.nodup_cons] at hnodup
      simp only [insertAll, if_pos hpos.1, insertNew, if_neg hnew.1, Option.bind_some]
      refine (ih _).mpr ⟨hpos.2, fun y hy => ?_, hnodup.2⟩
      rw [Std.ExtTreeMap.mem_insert, Std.LawfulEqCmp.compare_eq_iff_eq]
      rintro (heq | hmem)
      · exact hnodup.1 (List.mem_map.mpr ⟨y, hy, heq.symm⟩)
      · exact hnew.2 y hy hmem

theorem getElem?_of_insertAll {vars vars' : Variables} {l : List (CString × CString)}
    (h : insertAll vars l = some vars') {name : CString} (hname : name ∈ vars) :
    vars'[name]? = vars[name]? := by
  induction l generalizing vars with
  | nil =>
    cases h
    rfl
  | cons x l ih =>
    obtain ⟨-, hnew, hl⟩ := insertAll_cons_eq_some h
    have hne : x.1 ≠ name := fun heq => hnew (heq ▸ hname)
    rw [ih hl (Std.ExtTreeMap.mem_insert.mpr (.inr hname)), Std.ExtTreeMap.getElem?_insert, if_neg]
    rwa [Std.LawfulEqCmp.compare_eq_iff_eq]

/-- **Every one of the names has its value.** -/
theorem getElem?_insertAll {vars vars' : Variables} {l : List (CString × CString)}
    (h : insertAll vars l = some vars') {x : CString × CString} (hx : x ∈ l) :
    vars'[x.1]? = some x.2 := by
  induction l generalizing vars with
  | nil => cases hx
  | cons y l ih =>
    obtain ⟨-, -, hl⟩ := insertAll_cons_eq_some h
    rcases List.mem_cons.mp hx with rfl | hx
    · rw [getElem?_of_insertAll hl Std.ExtTreeMap.mem_insert_self]
      exact Std.ExtTreeMap.getElem?_insert_self
    · exact ih hl hx

theorem getElem?_insertAll_iff {vars vars' : Variables} {l : List (CString × CString)}
    (h : insertAll vars l = some vars') (name value : CString) :
    vars'[name]? = some value ↔ (name, value) ∈ l ∨ vars[name]? = some value := by
  induction l generalizing vars with
  | nil =>
    cases h
    simp
  | cons x l ih =>
    obtain ⟨-, hnew, hl⟩ := insertAll_cons_eq_some h
    have hnone : vars[x.1]? = none := Std.ExtTreeMap.getElem?_eq_none hnew
    rw [ih hl, Std.ExtTreeMap.getElem?_insert, List.mem_cons]
    split
    · rename_i heq
      obtain rfl := Std.LawfulEqCmp.eq_of_compare heq
      simp [hnone, Prod.ext_iff, eq_comm, or_comm]
    · rename_i hne
      have hother : (name, value) ≠ x := by
        rintro rfl
        exact hne (Std.LawfulEqCmp.compare_eq_iff_eq.mpr rfl)
      simp [hother]

/-- **The set of variables is the list**, in the order of the names. -/
theorem toList_insertAll {vars : Variables} {l : List (CString × CString)}
    (h : insertAll ∅ l = some vars) : vars.toList.Perm l := by
  obtain ⟨-, -, hnodup⟩ := (insertAll_isSome_iff ∅ l).mp (Option.isSome_iff_exists.mpr ⟨vars, h⟩)
  rw [List.perm_ext_iff_of_nodup (nodup_toList vars) hnodup.of_map]
  intro x
  rw [Std.ExtTreeMap.mem_toList_iff_getElem?_eq_some, getElem?_insertAll_iff h]
  simp

end Variables

/-! ## The leaves -/

section Leaves

variable {D : Type*} (cfg : FileCfg)

/-- The items of an object that are no objects, those of nested objects too, by their names. -/
def leaves (path : CString) : JsonItems D → List (CString × Json D)
  | .nil => []
  | .cons none _ next => leaves path next
  | .cons (some string) (.object items) next =>
    leaves (path ++ string ++ cfg.nameDelimiter) items ++ leaves path next
  | .cons (some string) item next => (path ++ string, item) :: leaves path next

def newPrefixes (path : CString) : JsonItems D → List CString
  | .nil => []
  | .cons none _ next => newPrefixes path next
  | .cons (some string) (.object items) next =>
    (path ++ string ++ cfg.nameDelimiter) ::
      (newPrefixes (path ++ string ++ cfg.nameDelimiter) items ++ newPrefixes path next)
  | .cons (some _) _ next => newPrefixes path next

/-- The leaves that have a text, with it. -/
def entries (lib : JsonLib D) (path : CString) (items : JsonItems D) : List (CString × CString) :=
  (leaves cfg path items).filterMap fun x => (jsonText lib x.2).map (x.1, ·)

/-- The items of the objects have names. -/
def JsonItems.Named : JsonItems D → Prop
  | .nil => True
  | .cons none _ _ => False
  | .cons (some _) (.object items) next => items.Named ∧ next.Named
  | .cons (some _) _ next => next.Named

/-- The items have names, if this is an object. -/
def Json.Named : Json D → Prop
  | .object items => items.Named
  | _ => True

@[simp] theorem JsonItems.named_cons (string : CString) (item : Json D) (next : JsonItems D) :
    (JsonItems.cons (some string) item next).Named ↔ item.Named ∧ next.Named := by
  cases item <;> simp [JsonItems.Named, Json.Named]

section Plain

variable (P : JsonNumber D → Prop)

/-- No item of the objects is raw, and the numbers are as `P` says. -/
def JsonItems.Plain : JsonItems D → Prop
  | .nil => True
  | .cons _ (.object items) next => items.Plain ∧ next.Plain
  | .cons _ (.number x) next => P x ∧ next.Plain
  | .cons _ (.raw _) _ => False
  | .cons _ _ next => next.Plain

def Json.Plain : Json D → Prop
  | .object items => items.Plain P
  | .number x => P x
  | .raw _ => False
  | _ => True

@[simp] theorem JsonItems.plain_cons (string : Option CString) (item : Json D)
    (next : JsonItems D) :
    (JsonItems.cons string item next).Plain P ↔ item.Plain P ∧ next.Plain P := by
  cases item <;> simp [JsonItems.Plain, Json.Plain]

variable {P} in
theorem JsonItems.Plain.imp {Q : JsonNumber D → Prop} (hPQ : ∀ x, P x → Q x)
    {items : JsonItems D} (h : items.Plain P) : items.Plain Q := by
  fun_induction JsonItems.Plain P items with
  | case1 => trivial
  | case2 string items next ihitems ih => exact ⟨ihitems h.1, ih h.2⟩
  | case3 string x next ih => exact ⟨hPQ x h.1, ih h.2⟩
  | case4 => exact h
  | case5 string item next hobject hnumber hraw ih =>
    cases item with
    | object items => exact absurd rfl (hobject items)
    | number x => exact absurd rfl (hnumber x)
    | raw s => exact absurd rfl (hraw s)
    | _ => exact ih h

end Plain

/-- The leaves of an object have good, different names, and there are no prefixes that are too
long. -/
structure Flattens (lib : JsonLib D) (items : JsonItems D) : Prop where
  names : ∀ x ∈ entries cfg lib .empty items, 0 < x.1.asprintf
  distinct : ((entries cfg lib .empty items).map Prod.fst).Nodup
  prefixes : ∀ p ∈ newPrefixes cfg .empty items, 0 ≤ p.asprintf

end Leaves

/-! ## The texts of numbers -/

theorem decimal_eq (n : Int32) : decimal n = .ofBytes (Decimal.text n.toInt) := by
  have hneg : n < 0 ↔ n.toInt < 0 := Int32.lt_iff_toInt_lt
  unfold decimal Decimal.text
  simp only [hneg]
  rfl

theorem decimal_bytes (n : Int32) : (decimal n).bytes = Decimal.text n.toInt := by
  rw [decimal_eq]
  exact bytes_ofBytes (Decimal.text_ne_zero _)

theorem length_text_le {z : Int} {k : Nat} (hk : 0 < k) (h : z.natAbs < 10 ^ k) :
    (Decimal.text z).length ≤ k + 1 := by
  have hdigits := (Nat.length_toDigits_le_iff (by decide) hk).mpr h
  unfold Decimal.text
  rw [List.length_append, List.length_map]
  split
  · rw [List.length_singleton]
    omega
  · rw [List.length_nil]
    omega

theorem decimal_asprintf (n : Int32) : 0 < (decimal n).asprintf := by
  have hlt : n.toInt.natAbs < 10 ^ 10 := by
    have hlo := n.le_toInt
    have hhi := n.toInt_lt
    omega
  have hlen := length_text_le (by decide) hlt
  rw [asprintf_pos, decimal_bytes]
  refine ⟨fun hempty => ?_, by omega⟩
  have htext : Decimal.text n.toInt = [] := by
    rw [← decimal_bytes, hempty]
    rfl
  have hparse := Decimal.parse_text n.toInt
  rw [htext] at hparse
  cases hparse

/-- `%.3f` has a text to give, and it is not too long. -/
def JsonLib.Prints {D : Type*} (lib : JsonLib D) : Prop := ∀ x, 0 < (lib.fmt3 x).asprintf

section Walk

variable {D : Type*} {lib : JsonLib D} (cfg : FileCfg)

theorem jsonText_number (hlib : lib.Prints) {item : Json D} {value : CString}
    (hvalue : jsonText lib item = some value) (hnumber : item.isNumber = true) :
    0 < value.asprintf := by
  cases item with
  | number x =>
    cases hvalue
    split
    · exact decimal_asprintf _
    · exact hlib _
  | _ => cases hnumber

/-- `file_parse_json_emit` is the insertion of at most one leaf. -/
theorem fileParseJsonEmit_eq (hlib : lib.Prints) (path string : CString) (item : Json D)
    (vars : Variables) :
    fileParseJsonEmit lib path (some string) item vars =
      vars.insertAll ((jsonText lib item).map (path ++ string, ·)).toList := by
  unfold fileParseJsonEmit
  cases htext : jsonText lib item with
  | none => rfl
  | some value =>
    have hnumber : ¬ (item.isNumber && decide (value.asprintf ≤ 0)) = true := by
      rw [Bool.and_eq_true, decide_eq_true_eq]
      rintro ⟨hnumber, hle⟩
      have := jsonText_number hlib htext hnumber
      omega
    simp only [if_neg hnumber, Option.map_some, Option.toList_some, Variables.insertAll,
      Option.bind_fun_some]

theorem entries_object (lib : JsonLib D) (path string : CString) (items next : JsonItems D) :
    entries cfg lib path (.cons (some string) (.object items) next) =
      entries cfg lib (path ++ string ++ cfg.nameDelimiter) items ++ entries cfg lib path next := by
  simp only [entries, leaves, List.filterMap_append]

theorem entries_item (lib : JsonLib D) (path string : CString) {item : Json D}
    (hitem : ∀ items, item = .object items → False) (next : JsonItems D) :
    entries cfg lib path (.cons (some string) item next) =
      ((jsonText lib item).map (path ++ string, ·)).toList ++ entries cfg lib path next := by
  simp only [entries, leaves, List.filterMap_cons]
  cases (jsonText lib item).map (path ++ string, ·) <;> rfl

/-- **The walk** succeeds where it can build the prefixes and insert the leaves, in their order. -/
theorem fileParseJsonWalk_eq_some (hlib : lib.Prints) (path : CString) (vars vars' : Variables)
    {items : JsonItems D} (hnamed : items.Named) :
    fileParseJsonWalk lib cfg path vars items = some vars' ↔
      (∀ p ∈ newPrefixes cfg path items, 0 ≤ p.asprintf) ∧
        vars.insertAll (entries cfg lib path items) = some vars' := by
  fun_induction fileParseJsonWalk lib cfg path vars items generalizing vars' with
  | case1 => simp [newPrefixes, entries, leaves, Variables.insertAll]
  | case2 => cases hnamed
  | case3 path vars string items next newPrefix hlong =>
    simp only [newPrefixes, List.forall_mem_cons]
    constructor
    · intro h
      cases h
    · rintro ⟨⟨hfits, -⟩, -⟩
      exact absurd hlong (Int.not_lt.mpr hfits)
  | case4 path vars string items next newPrefix hfits hwalk ih =>
    -- the nested object fails, and with it the first part of the insertions
    have hnames := (JsonItems.named_cons ..).mp hnamed
    simp only [newPrefixes, List.forall_mem_cons, List.forall_mem_append, entries_object,
      Variables.insertAll_append, Option.bind_eq_some_iff]
    constructor
    · intro h
      cases h
    · rintro ⟨⟨-, hprefixes, -⟩, vars'', hinsert, -⟩
      have hsome := (ih vars'' hnames.1).mpr ⟨hprefixes, hinsert⟩
      rw [hwalk] at hsome
      cases hsome
  | case5 path vars string items next newPrefix hfits vars'' hwalk ih ihnext =>
    have hnames := (JsonItems.named_cons ..).mp hnamed
    obtain ⟨hprefixes, hinsert⟩ := (ih vars'' hnames.1).mp hwalk
    rw [ihnext vars' hnames.2, entries_object, Variables.insertAll_append, hinsert, Option.bind_some,
      newPrefixes, List.forall_mem_cons, List.forall_mem_append]
    exact and_congr_left' ⟨fun h => ⟨Int.not_lt.mp hfits, hprefixes, h⟩, fun h => h.2.2⟩
  | case6 path vars string item next hitem hemit =>
    rw [fileParseJsonEmit_eq hlib] at hemit
    rw [entries_item cfg lib path string hitem, Variables.insertAll_append, hemit]
    simp
  | case7 path vars string item next hitem vars'' hemit ih =>
    rw [fileParseJsonEmit_eq hlib] at hemit
    rw [ih vars' ((JsonItems.named_cons ..).mp hnamed).2, entries_item cfg lib path string hitem,
      Variables.insertAll_append, hemit, Option.bind_some, newPrefixes]
    exact hitem

theorem fileParseJsonWalk_isSome_iff (hlib : lib.Prints) {items : JsonItems D}
    (hnamed : items.Named) :
    (fileParseJsonWalk lib cfg .empty ∅ items).isSome ↔ Flattens cfg lib items := by
  have hnew : ∀ x ∈ entries cfg lib .empty items, x.1 ∉ (∅ : Variables) := by
    intro x _
    exact Std.ExtTreeMap.not_mem_empty
  have hinsert := Variables.insertAll_isSome_iff ∅ (entries cfg lib .empty items)
  constructor
  · intro h
    obtain ⟨vars, hvars⟩ := Option.isSome_iff_exists.mp h
    obtain ⟨hprefixes, hvars⟩ := (fileParseJsonWalk_eq_some cfg hlib _ _ _ hnamed).mp hvars
    obtain ⟨hnames, -, hdistinct⟩ := hinsert.mp (Option.isSome_iff_exists.mpr ⟨vars, hvars⟩)
    exact ⟨hnames, hdistinct, hprefixes⟩
  · intro h
    obtain ⟨vars, hvars⟩ :=
      Option.isSome_iff_exists.mp (hinsert.mpr ⟨h.names, hnew, h.distinct⟩)
    exact Option.isSome_iff_exists.mpr
      ⟨vars, (fileParseJsonWalk_eq_some cfg hlib _ _ _ hnamed).mpr ⟨h.prefixes, hvars⟩⟩

/-- **What a document becomes**: each of its leaves is a variable. -/
theorem getElem?_of_fileParseJsonWalk (hlib : lib.Prints) {items : JsonItems D}
    (hnamed : items.Named) {vars : Variables}
    (hwalk : fileParseJsonWalk lib cfg .empty ∅ items = some vars) {name : CString}
    {item : Json D} (hleaf : (name, item) ∈ leaves cfg .empty items) {value : CString}
    (hvalue : jsonText lib item = some value) : vars[name]? = some value := by
  obtain ⟨-, hinsert⟩ := (fileParseJsonWalk_eq_some cfg hlib _ _ _ hnamed).mp hwalk
  refine Variables.getElem?_insertAll hinsert (x := (name, value)) ?_
  exact List.mem_filterMap.mpr ⟨(name, item), hleaf, by rw [hvalue, Option.map_some]⟩

end Walk

end VmodCfg.File
