import VmodCfg.File.JsonFlatten

/-!
# Which integers of a JSON document keep their value

The parser run on the numerals themselves says which numeral each number of the document is. A
number without a fraction is printed from `valueint`, where cJSON has saturated it.
-/

namespace VmodCfg.File

universe u v

open CString

/-! ## Other numbers -/

section Map

variable {D : Type u} {E : Type v} (f : JsonNumber D → JsonNumber E)

mutual

/-- The same document, with other numbers. -/
def Json.map : Json D → Json E
  | .null => .null
  | .false => .false
  | .true => .true
  | .number x => .number (f x)
  | .string s => .string s
  | .raw s => .raw s
  | .array items => .array (items.map)
  | .object items => .object (items.map)

def JsonItems.map : JsonItems D → JsonItems E
  | .nil => .nil
  | .cons string item next => .cons string item.map next.map

end

theorem leaves_map (cfg : FileCfg) (path : CString) (items : JsonItems D) :
    leaves cfg path (items.map f) = (leaves cfg path items).map (Prod.map id (Json.map f)) := by
  fun_induction leaves cfg path items with
  | case1 => rfl
  | case2 path item next ih => simpa only [JsonItems.map, leaves] using ih
  | case3 path string items next ihitems ih =>
    rw [List.map_append, ← ihitems, ← ih]
    rfl
  | case4 path string item next hitem ih =>
    rw [List.map_cons, ← ih]
    cases item with
    | object items => exact absurd rfl (hitem items)
    | _ => rfl

namespace CJson

def mapItem (x : Json D × List UInt8) : Json E × List UInt8 := (x.1.map f, x.2)

def mapItems (x : JsonItems D × List UInt8) : JsonItems E × List UInt8 := (x.1.map f, x.2)

section Nested

variable (value : List UInt8 → Option (Json D × List UInt8))

theorem parseElements_map (fuel : Nat) (rest : List UInt8) :
    parseElements (fun rest => (value rest).map (mapItem f)) fuel rest =
      (parseElements value fuel rest).map (mapItems f) := by
  induction fuel generalizing rest with
  | zero => rfl
  | succ fuel ih =>
    simp only [parseElements]
    cases value (skipWhitespace rest) with
    | none => rfl
    | some x =>
      obtain ⟨item, left⟩ := x
      simp only [Option.map_some, mapItem]
      cases skipWhitespace left with
      | nil => rfl
      | cons c left =>
        simp only [ih]
        split
        · simp only [Option.map_map]
          rfl
        · split <;> rfl

theorem parseMembers_map (fuel : Nat) (rest : List UInt8) :
    parseMembers (fun rest => (value rest).map (mapItem f)) fuel rest =
      (parseMembers value fuel rest).map (mapItems f) := by
  induction fuel generalizing rest with
  | zero => rfl
  | succ fuel ih =>
    simp only [parseMembers]
    split
    · rfl
    · cases parseString (skipWhitespace rest) with
      | none => rfl
      | some x =>
        obtain ⟨string, colon⟩ := x
        dsimp only
        cases skipWhitespace colon with
        | nil => rfl
        | cons c text =>
          dsimp only
          split
          · cases value (skipWhitespace text) with
            | none => rfl
            | some x =>
              obtain ⟨item, left⟩ := x
              simp only [Option.map_some, mapItem]
              cases skipWhitespace left with
              | nil => rfl
              | cons d left =>
                simp only [ih]
                split
                · simp only [Option.map_map]
                  rfl
                · split <;> rfl
          · rfl

theorem parseArray_map (rest : List UInt8) :
    parseArray (fun rest => (value rest).map (mapItem f)) rest =
      (parseArray value rest).map (mapItem f) := by
  unfold parseArray
  cases skipWhitespace rest with
  | nil => rfl
  | cons c left =>
    simp only [parseElements_map]
    split
    · rfl
    · simp only [Option.map_map]
      rfl

theorem parseObject_map (rest : List UInt8) :
    parseObject (fun rest => (value rest).map (mapItem f)) rest =
      (parseObject value rest).map (mapItem f) := by
  unfold parseObject
  cases skipWhitespace rest with
  | nil => rfl
  | cons c left =>
    simp only [parseMembers_map]
    split
    · rfl
    · simp only [Option.map_map]
      rfl

end Nested

section Values

variable (number : Numeral → JsonNumber D)

theorem parseCases_map (value : Option (List UInt8 → Option (Json D × List UInt8)))
    (rest : List UInt8) :
    parseCases (fun x => f (number x)) (value.map fun value rest => (value rest).map (mapItem f))
        rest =
      (parseCases number value rest).map (mapItem f) := by
  unfold parseCases
  split
  · rfl
  · split
    · rfl
    · split
      · rfl
      · cases rest with
        | nil => rfl
        | cons c left =>
          dsimp only
          split
          · simp only [Option.map_map]
            rfl
          · split
            · simp only [parseNumber, Option.map_map]
              rfl
            · split
              · cases value with
                | none => rfl
                | some value => exact parseArray_map f value left
              · split
                · cases value with
                  | none => rfl
                  | some value => exact parseObject_map f value left
                · rfl

theorem parseValue_map (levels : Nat) :
    parseValue (fun x => f (number x)) levels =
      fun rest => (parseValue number levels rest).map (mapItem f) := by
  induction levels with
  | zero =>
    funext rest
    exact parseCases_map f number none rest
  | succ levels ih =>
    funext rest
    rw [parseValue, ih]
    exact parseCases_map f number (some (parseValue number levels)) rest

/-- **What the parser finds** does not depend on how numerals become numbers. -/
theorem parseWithOpts_map (contents : CString) :
    parseWithOpts (fun x => f (number x)) contents =
      (parseWithOpts number contents).map (Json.map f) := by
  unfold parseWithOpts
  rw [parseValue_map, Option.map_map, Option.map_map]
  rfl

end Values

end CJson

end Map

/-! ## The integers -/

namespace CJson

open Binary64

def kept (x : Numeral) : JsonNumber Numeral := ⟨x, 0⟩

def document (contents : CString) : Option (Json Numeral) := parseWithOpts kept contents

/-- What cJSON makes of the numeral. -/
def converted (x : JsonNumber Numeral) : JsonNumber Double := ofNumeral x.valuedouble

theorem lib_parse (contents : CString) :
    lib.parse contents = (document contents).map (Json.map converted) :=
  parseWithOpts_map converted kept contents

theorem jsonText_integer {x : Numeral} {n : ℤ} (hvalue : x.value = n) (h : |n| ≤ 2 ^ 53) :
    jsonText lib ((Json.number (kept x)).map converted) =
      some (.ofBytes (Decimal.text (saturated n))) := by
  show jsonText lib (.number (ofNumeral x)) = _
  rw [jsonText_number (isNumber_ofNumeral x), ofNumeral, hvalue, ofRat_intCast h]
  simp only [numberText, Rat.den_intCast, Rat.num_intCast, if_true]

end CJson

theorem text_injective {m n : ℤ}
    (h : CString.ofBytes (Decimal.text m) = .ofBytes (Decimal.text n)) : m = n := by
  have hbytes := congrArg CString.bytes h
  rw [bytes_ofBytes (Decimal.text_ne_zero m),
    bytes_ofBytes (Decimal.text_ne_zero n)] at hbytes
  have hparse := Decimal.parse_text m
  rw [hbytes, Decimal.parse_text] at hparse
  exact (Option.some.inj hparse).symm

section Documents

variable (cfg : FileCfg) {contents : CString} {items : JsonItems Numeral}
  (hdocument : CJson.document contents = some (.object items))
include hdocument

theorem lib_parse_object :
    CJson.lib.parse contents = some (.object (items.map CJson.converted)) := by
  rw [CJson.lib_parse, hdocument]
  rfl

theorem findVariable_integer {vars : Variables}
    (hload : fileParseJson CJson.lib cfg contents = .parsed vars) {name : CString} {x : Numeral}
    (hleaf : (name, Json.number (CJson.kept x)) ∈ leaves cfg .empty items) {n : ℤ}
    (hvalue : x.value = n) (hexact : |n| ≤ 2 ^ 53) :
    vars.findVariable name = some (.ofBytes (Decimal.text (CJson.saturated n))) := by
  have hparse := lib_parse_object hdocument
  have hnamed := CJson.named_of_parseWithOpts CJson.ofNumeral hparse
  rw [fileParseJson_object cfg hparse] at hload
  cases hwalk : fileParseJsonWalk CJson.lib cfg .empty ∅ (items.map CJson.converted) with
  | none =>
    rw [hwalk] at hload
    cases hload
  | some vars' =>
    rw [hwalk] at hload
    cases hload
    refine getElem?_of_fileParseJsonWalk cfg CJson.lib_prints hnamed hwalk ?_
      (CJson.jsonText_integer hvalue hexact)
    rw [leaves_map]
    exact List.mem_map.mpr ⟨_, hleaf, rfl⟩

theorem loaded_of_single {string : CString} {x : Numeral} (hname : 0 < string.asprintf)
    (hitems : items = .cons (some string) (.number (CJson.kept x)) .nil) :
    ∃ vars, fileParseJson CJson.lib cfg contents = .parsed vars := by
  subst hitems
  have hparse := lib_parse_object hdocument
  have hnamed := CJson.named_of_parseWithOpts CJson.ofNumeral hparse
  have hflat : Flattens cfg CJson.lib
      ((JsonItems.cons (some string) (.number (CJson.kept x)) .nil).map CJson.converted) := by
    refine ⟨fun y hy => ?_, List.nodup_singleton _, fun p hp => ?_⟩
    · obtain rfl := List.mem_singleton.mp hy
      exact hname
    · cases hp
  obtain ⟨vars, hvars⟩ := Option.isSome_iff_exists.mp
    ((fileParseJsonWalk_isSome_iff cfg CJson.lib_prints hnamed).mpr hflat)
  refine ⟨vars, ?_⟩
  rw [fileParseJson_object cfg hparse, hvars]
  rfl

omit hdocument in
theorem document_of_fileParseJson {vars : Variables}
    (hload : fileParseJson CJson.lib cfg contents = .parsed vars) :
    ∃ items, CJson.document contents = some (.object items) := by
  obtain ⟨items, hparse⟩ := object_of_fileParseJson cfg hload (by simp)
  rw [CJson.lib_parse] at hparse
  obtain ⟨item, hitem, hmap⟩ := Option.map_eq_some_iff.mp hparse
  cases item with
  | object items => exact ⟨items, hitem⟩
  | _ => cases hmap

omit hdocument in
/-- **An integer keeps its value** exactly when it is an `int`. -/
theorem integers_kept_iff {vars : Variables}
    (hload : fileParseJson CJson.lib cfg contents = .parsed vars) :
    ∃ items, CJson.document contents = some (.object items) ∧
      ∀ (name : CString) (x : Numeral) (n : ℤ),
        (name, Json.number (CJson.kept x)) ∈ leaves cfg .empty items →
          x.value = n → |n| ≤ 2 ^ 53 →
            (vars.findVariable name = some (.ofBytes (Decimal.text n)) ↔
              -2 ^ 31 ≤ n ∧ n < 2 ^ 31) := by
  obtain ⟨items, hdocument⟩ := document_of_fileParseJson cfg hload
  refine ⟨items, hdocument, fun name x n hleaf hvalue hexact => ?_⟩
  rw [findVariable_integer cfg hdocument hload hleaf hvalue hexact, ← CJson.saturated_eq_iff]
  constructor
  · intro h
    exact text_injective (Option.some.inj h)
  · intro h
    rw [h]

end Documents

/-- `{"a":7}` -/
theorem integers_kept_seven :
    ∃ vars, fileParseJson CJson.lib ⟨.ofBytes [58], .ofBytes [59]⟩
        (.ofBytes [123, 34, 97, 34, 58, 55, 125]) = .parsed vars ∧
      vars.findVariable (.ofBytes [97]) = some (.ofBytes [55]) := by
  have hdocument : CJson.document (.ofBytes [123, 34, 97, 34, 58, 55, 125]) =
      some (.object (.cons (some (.ofBytes [97])) (.number (CJson.kept ⟨false, [55], [], 0⟩)) .nil)) :=
    rfl
  obtain ⟨vars, hload⟩ := loaded_of_single ⟨.ofBytes [58], .ofBytes [59]⟩ hdocument (by decide) rfl
  obtain ⟨items, hitems, hkept⟩ := integers_kept_iff _ hload
  cases hdocument.symm.trans hitems
  refine ⟨vars, hload, (hkept _ _ 7 List.mem_cons_self ?_ (by decide)).mpr (by decide)⟩
  have hdigits : Numeral.ofDigits [55] = 7 := rfl
  simp [Numeral.value, hdigits]

/-- `{"a":2147483648}` is stored as 2147483647. -/
theorem byte_size_saturates :
    ∃ vars items x, fileParseJson CJson.lib ⟨.ofBytes [58], .ofBytes [59]⟩
        (.ofBytes [123, 34, 97, 34, 58, 50, 49, 52, 55, 52, 56, 51, 54, 52, 56, 125]) =
          .parsed vars ∧
      CJson.document (.ofBytes
        [123, 34, 97, 34, 58, 50, 49, 52, 55, 52, 56, 51, 54, 52, 56, 125]) =
          some (.object items) ∧
      (CString.ofBytes [97], Json.number (CJson.kept x)) ∈
        leaves ⟨.ofBytes [58], .ofBytes [59]⟩ .empty items ∧
      x.value = (2147483648 : ℤ) ∧ |(2147483648 : ℤ)| ≤ 2 ^ 53 ∧
      vars.findVariable (.ofBytes [97]) = some (.ofBytes (Decimal.text 2147483647)) ∧
      vars.findVariable (.ofBytes [97]) ≠ some (.ofBytes (Decimal.text 2147483648)) := by
  have hdocument : CJson.document
      (.ofBytes [123, 34, 97, 34, 58, 50, 49, 52, 55, 52, 56, 51, 54, 52, 56, 125]) =
      some (.object (.cons (some (.ofBytes [97]))
        (.number (CJson.kept ⟨false, [50, 49, 52, 55, 52, 56, 51, 54, 52, 56], [], 0⟩)) .nil)) :=
    rfl
  have hvalue : Numeral.value ⟨false, [50, 49, 52, 55, 52, 56, 51, 54, 52, 56], [], 0⟩ =
      (2147483648 : ℤ) := by
    have hdigits : Numeral.ofDigits [50, 49, 52, 55, 52, 56, 51, 54, 52, 56] = 2147483648 := rfl
    simp [Numeral.value, hdigits]
  obtain ⟨vars, hload⟩ := loaded_of_single ⟨.ofBytes [58], .ofBytes [59]⟩ hdocument (by decide) rfl
  have hfind := findVariable_integer _ hdocument hload List.mem_cons_self hvalue (by decide)
  refine ⟨vars, _, _, hload, hdocument, List.mem_cons_self, hvalue, by decide, hfind, ?_⟩
  intro h
  have heq := text_injective (Option.some.inj (hfind.symm.trans h))
  exact absurd heq (by decide)

end VmodCfg.File
