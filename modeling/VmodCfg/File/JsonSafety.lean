import VmodCfg.File.CJson
import VmodCfg.File.JsonWalk

/-!
# Which documents are loaded without a failed assertion

The parser gives every item of an object a name, and its loops end. What is left of the assertions
in the walk are those on the names of the leaves.
-/

namespace VmodCfg.File

universe u

open CString

namespace CJson

/-! ## What the parser leaves -/

theorem length_skipWhitespace_le (rest : List UInt8) :
    (skipWhitespace rest).length ≤ rest.length := by
  unfold skipWhitespace
  split
  · rw [List.length_drop]
    omega
  · rename_i c left heq
    rw [← heq]
    exact List.length_dropWhile_le _ _

theorem length_lt_of_skipWhitespace {rest left : List UInt8} {c : UInt8}
    (h : skipWhitespace rest = c :: left) : left.length < rest.length := by
  have hle := length_skipWhitespace_le rest
  rw [h, List.length_cons] at hle
  omega

theorem length_of_utf16LiteralToUtf8 {s bytes left : List UInt8}
    (h : utf16LiteralToUtf8 s = some (bytes, left)) : left.length < s.length := by
  have hdrop : ∀ n, 0 < n → ¬ s.length < 6 → (s.drop n).length < s.length := by
    intro n hn hlen
    rw [List.length_drop]
    omega
  unfold utf16LiteralToUtf8 at h
  split at h
  · cases h
  · rename_i hlen
    dsimp only at h
    split at h
    · cases h
    · split at h
      · split at h
        · cases h
        · split at h
          · cases h
          · split at h
            · cases h
            · obtain ⟨_, -, heq⟩ := Option.map_eq_some_iff.mp h
              cases heq
              exact hdrop 12 (by decide) hlen
      · obtain ⟨_, -, heq⟩ := Option.map_eq_some_iff.mp h
        cases heq
        exact hdrop 6 (by decide) hlen

theorem length_of_parseString {rest left : List UInt8} {string : CString}
    (h : parseString rest = some (string, left)) : left.length ≤ rest.length := by
  unfold parseString at h
  split at h
  · cases h
  · split at h
    · split at h
      · cases h
      · obtain ⟨_, -, heq⟩ := Option.map_eq_some_iff.mp h
        cases heq
        rw [List.length_drop, List.length_cons]
        omega
    · cases h

/-! ## The loops end

A loop that has at least one round for each byte left finds the same with any more of them. -/

theorem unescape_fuel {fuel : Nat} (fuel' : Nat) {s : List UInt8} (h : s.length ≤ fuel)
    (h' : s.length ≤ fuel') : unescape fuel s = unescape fuel' s := by
  induction fuel generalizing fuel' s with
  | zero =>
    obtain rfl := List.length_eq_zero_iff.mp (Nat.le_zero.mp h)
    cases fuel' <;> rfl
  | succ fuel ih =>
    cases s with
    | nil => cases fuel' <;> rfl
    | cons c s =>
      cases fuel' with
      | zero => cases h'
      | succ fuel' =>
        have hs : s.length ≤ fuel := Nat.le_of_succ_le_succ h
        have hs' : s.length ≤ fuel' := Nat.le_of_succ_le_succ h'
        simp only [unescape]
        split
        · rw [ih fuel' hs hs']
        · split
          · rfl
          · rename_i e t
            rw [List.length_cons] at hs hs'
            split
            · split
              · rfl
              · rename_i bytes left hutf
                have hleft := length_of_utf16LiteralToUtf8 hutf
                simp only [List.length_cons] at hleft
                rw [ih fuel' (show left.length ≤ fuel by omega) (by omega)]
            · split
              · rfl
              · rw [ih fuel' (show t.length ≤ fuel by omega) (by omega)]

section Loops

variable {D : Type u}

/-- What `parse_value` makes of a text: an item whose objects have names, with numbers as `P` says,
and no more text than there was. -/
structure Parsed (P : JsonNumber D → Prop) (rest : List UInt8) (x : Json D × List UInt8) : Prop where
  named : x.1.Named
  plain : x.1.Plain P
  shorter : x.2.length ≤ rest.length

variable {P : JsonNumber D → Prop} {value : List UInt8 → Option (Json D × List UInt8)}
  (hvalue : ∀ rest x, value rest = some x → Parsed P rest x)
include hvalue

theorem length_of_item {rest left left' : List UInt8} {item : Json D} {c : UInt8}
    (h : value (skipWhitespace rest) = some (item, left)) (hc : skipWhitespace left = c :: left') :
    left'.length < rest.length := by
  have hitem := (hvalue _ _ h).shorter
  have hskip := length_skipWhitespace_le rest
  have hleft := length_lt_of_skipWhitespace hc
  dsimp only at hitem
  omega

theorem parseElements_fuel {fuel : Nat} (fuel' : Nat) {rest : List UInt8} (hnil : value [] = none)
    (h : rest.length ≤ fuel) (h' : rest.length ≤ fuel') :
    parseElements value fuel rest = parseElements value fuel' rest := by
  have hempty : ∀ n, parseElements value n [] = none := by
    intro n
    cases n with
    | zero => rfl
    | succ n =>
      simp only [parseElements]
      rw [show skipWhitespace [] = [] from rfl, hnil]
  induction fuel generalizing fuel' rest with
  | zero =>
    obtain rfl := List.length_eq_zero_iff.mp (Nat.le_zero.mp h)
    rw [hempty, hempty]
  | succ fuel ih =>
    cases fuel' with
    | zero =>
      obtain rfl := List.length_eq_zero_iff.mp (Nat.le_zero.mp h')
      rw [hempty, hempty]
    | succ fuel' =>
      simp only [parseElements]
      split
      · rfl
      · rename_i item left hitem
        split
        · rfl
        · rename_i c left' hc
          have hleft := length_of_item hvalue hitem hc
          rw [ih fuel' (show left'.length ≤ fuel by omega) (by omega)]

theorem parseMembers_fuel {fuel : Nat} (fuel' : Nat) {rest : List UInt8} (h : rest.length ≤ fuel)
    (h' : rest.length ≤ fuel') : parseMembers value fuel rest = parseMembers value fuel' rest := by
  have hempty : ∀ n, parseMembers value n [] = none := by
    intro n
    cases n <;> rfl
  induction fuel generalizing fuel' rest with
  | zero =>
    obtain rfl := List.length_eq_zero_iff.mp (Nat.le_zero.mp h)
    rw [hempty, hempty]
  | succ fuel ih =>
    cases fuel' with
    | zero =>
      obtain rfl := List.length_eq_zero_iff.mp (Nat.le_zero.mp h')
      rw [hempty, hempty]
    | succ fuel' =>
      simp only [parseMembers]
      split
      · rfl
      · split
        · rfl
        · rename_i string colon hstring
          have hcolon := length_of_parseString hstring
          have hskip := length_skipWhitespace_le rest
          split
          · rfl
          · rename_i c text hc
            have htext := length_lt_of_skipWhitespace hc
            split
            · split
              · rfl
              · rename_i item left hitem
                split
                · rfl
                · rename_i d left' hd
                  have hleft := length_of_item hvalue hitem hd
                  rw [ih fuel' (show left'.length ≤ fuel by omega) (by omega)]
            · rfl

/-! ## What the loops find -/

theorem length_of_parseElements {fuel : Nat} {rest : List UInt8} {x : JsonItems D × List UInt8}
    (h : parseElements value fuel rest = some x) : x.2.length ≤ rest.length := by
  induction fuel generalizing rest x with
  | zero => cases h
  | succ fuel ih =>
    simp only [parseElements] at h
    split at h
    · cases h
    · rename_i item left hitem
      split at h
      · cases h
      · rename_i c left' hc
        have hleft := length_of_item hvalue hitem hc
        split at h
        · obtain ⟨y, hy, rfl⟩ := Option.map_eq_some_iff.mp h
          have hnext := ih hy
          dsimp only
          omega
        · split at h
          · cases h
            dsimp only
            omega
          · cases h

theorem parsed_parseMembers {fuel : Nat} {rest : List UInt8} {x : JsonItems D × List UInt8}
    (h : parseMembers value fuel rest = some x) :
    x.1.Named ∧ x.1.Plain P ∧ x.2.length ≤ rest.length := by
  induction fuel generalizing rest x with
  | zero => cases h
  | succ fuel ih =>
    simp only [parseMembers] at h
    split at h
    · cases h
    · split at h
      · cases h
      · rename_i string colon hstring
        have hcolon := length_of_parseString hstring
        have hskip := length_skipWhitespace_le rest
        split at h
        · cases h
        · rename_i c text hc
          have htext := length_lt_of_skipWhitespace hc
          split at h
          · split at h
            · cases h
            · rename_i item left hitem
              have hnamed := (hvalue _ _ hitem).named
              have hplain := (hvalue _ _ hitem).plain
              split at h
              · cases h
              · rename_i d left' hd
                have hleft := length_of_item hvalue hitem hd
                split at h
                · -- another member
                  obtain ⟨y, hy, rfl⟩ := Option.map_eq_some_iff.mp h
                  obtain ⟨hnext, hnextPlain, hlen⟩ := ih hy
                  refine ⟨(JsonItems.named_cons ..).mpr ⟨hnamed, hnext⟩,
                    (JsonItems.plain_cons ..).mpr ⟨hplain, hnextPlain⟩, ?_⟩
                  dsimp only
                  omega
                · split at h
                  · -- the last one
                    cases h
                    refine ⟨(JsonItems.named_cons ..).mpr ⟨hnamed, trivial⟩,
                      (JsonItems.plain_cons ..).mpr ⟨hplain, trivial⟩, ?_⟩
                    dsimp only
                    omega
                  · cases h
          · cases h

theorem parsed_parseArray {rest : List UInt8} {x : Json D × List UInt8}
    (h : parseArray value rest = some x) : Parsed P rest x := by
  unfold parseArray at h
  split at h
  · cases h
  · rename_i c left hc
    have hleft := length_lt_of_skipWhitespace hc
    split at h
    · cases h
      exact ⟨trivial, trivial, Nat.le_of_lt hleft⟩
    · obtain ⟨y, hy, rfl⟩ := Option.map_eq_some_iff.mp h
      have hlen := length_of_parseElements hvalue hy
      rw [List.length_cons] at hlen
      refine ⟨trivial, trivial, ?_⟩
      dsimp only
      omega

theorem parsed_parseObject {rest : List UInt8} {x : Json D × List UInt8}
    (h : parseObject value rest = some x) : Parsed P rest x := by
  unfold parseObject at h
  split at h
  · cases h
  · rename_i c left hc
    have hleft := length_lt_of_skipWhitespace hc
    split at h
    · cases h
      exact ⟨trivial, trivial, Nat.le_of_lt hleft⟩
    · obtain ⟨y, hy, rfl⟩ := Option.map_eq_some_iff.mp h
      obtain ⟨hnamed, hplain, hlen⟩ := parsed_parseMembers hvalue hy
      rw [List.length_cons] at hlen
      refine ⟨hnamed, hplain, ?_⟩
      dsimp only
      omega

end Loops

section Values

variable {D : Type u} (number : Numeral → JsonNumber D)

theorem parsed_parseCases {value : Option (List UInt8 → Option (Json D × List UInt8))}
    (hvalue : ∀ f ∈ value, ∀ rest x, f rest = some x → Parsed (· ∈ Set.range number) rest x)
    {rest : List UInt8} {x : Json D × List UInt8} (h : parseCases number value rest = some x) :
    Parsed (· ∈ Set.range number) rest x := by
  have hdrop : ∀ n, (rest.drop n).length ≤ rest.length := by
    intro n
    rw [List.length_drop]
    omega
  unfold parseCases at h
  split at h
  · cases h
    exact ⟨trivial, trivial, hdrop 4⟩
  · split at h
    · cases h
      exact ⟨trivial, trivial, hdrop 5⟩
    · split at h
      · cases h
        exact ⟨trivial, trivial, hdrop 4⟩
      · split at h
        · cases h
        · rename_i c left
          split at h
          · obtain ⟨y, hy, rfl⟩ := Option.map_eq_some_iff.mp h
            exact ⟨trivial, trivial, length_of_parseString hy⟩
          · split at h
            · obtain ⟨y, -, rfl⟩ := Option.map_eq_some_iff.mp h
              exact ⟨trivial, Set.mem_range_self _, hdrop _⟩
            · split at h
              · obtain ⟨f, hf, harray⟩ := Option.bind_eq_some_iff.mp h
                have hparsed := parsed_parseArray (hvalue f hf) harray
                exact ⟨hparsed.named, hparsed.plain, Nat.le_succ_of_le hparsed.shorter⟩
              · split at h
                · obtain ⟨f, hf, hobject⟩ := Option.bind_eq_some_iff.mp h
                  have hparsed := parsed_parseObject (hvalue f hf) hobject
                  exact ⟨hparsed.named, hparsed.plain, Nat.le_succ_of_le hparsed.shorter⟩
                · cases h

theorem parsed_parseValue (levels : Nat) {rest : List UInt8} {x : Json D × List UInt8}
    (h : parseValue number levels rest = some x) : Parsed (· ∈ Set.range number) rest x := by
  induction levels generalizing rest x with
  | zero =>
    refine parsed_parseCases number ?_ h
    intro f hf
    cases hf
  | succ levels ih =>
    refine parsed_parseCases number ?_ h
    intro f hf
    cases hf
    exact fun _ _ => ih

/-- **The documents that the parser accepts** are named. -/
theorem named_of_parseWithOpts {contents : CString} {item : Json D}
    (h : parseWithOpts number contents = some item) : item.Named := by
  obtain ⟨x, hx, rfl⟩ := Option.map_eq_some_iff.mp h
  exact (parsed_parseValue number _ hx).named

theorem plain_of_parseWithOpts {contents : CString} {item : Json D}
    (h : parseWithOpts number contents = some item) : item.Plain (· ∈ Set.range number) := by
  obtain ⟨x, hx, rfl⟩ := Option.map_eq_some_iff.mp h
  exact (parsed_parseValue number _ hx).plain

theorem parseValue_nil (levels : Nat) : parseValue number levels [] = none := by
  cases levels <;> rfl

/-- The loops of the parser end: with more rounds than they are given they find the same. -/
structure LoopsEnd : Prop where
  literal : ∀ fuel s, s.length ≤ fuel → unescape fuel s = unescape s.length s
  elements : ∀ levels fuel rest, rest.length ≤ fuel →
    parseElements (parseValue number levels) fuel rest =
      parseElements (parseValue number levels) rest.length rest
  members : ∀ levels fuel rest, rest.length ≤ fuel →
    parseMembers (parseValue number levels) fuel rest =
      parseMembers (parseValue number levels) rest.length rest

theorem loopsEnd : LoopsEnd number where
  literal _ _ h := unescape_fuel _ h (Nat.le_refl _)
  elements levels _ _ h :=
    parseElements_fuel (fun _ _ => parsed_parseValue number levels) _ (parseValue_nil number levels) h
      (Nat.le_refl _)
  members levels _ _ h :=
    parseMembers_fuel (fun _ _ => parsed_parseValue number levels) _ h (Nat.le_refl _)

end Values

/-! ## The texts of doubles -/

open Binary64

theorem ofBytes_ne_empty {c : UInt8} {l : List UInt8} (hc : c ≠ 0) :
    CString.ofBytes (c :: l) ≠ .empty := by
  intro h
  have hbytes : (c :: l).takeWhile (· != 0) = [] := congrArg CString.bytes h
  rw [List.takeWhile_cons_of_pos (by simpa using hc)] at hbytes
  cases hbytes

theorem length_ofBytes_le (l : List UInt8) : (CString.ofBytes l).bytes.length ≤ l.length :=
  (List.takeWhile_prefix _).length_le

theorem asprintf_of_text {sign digits rest : List UInt8} (hsign : sign = [] ∨ sign = [45])
    (hdigits : digits ≠ []) (hdigit : ∀ b ∈ digits, Decimal.isDigit b = true)
    (hlen : (sign ++ digits ++ rest).length < 2 ^ 31) :
    0 < (CString.ofBytes (sign ++ digits ++ rest)).asprintf := by
  have hbytes := length_ofBytes_le (sign ++ digits ++ rest)
  rw [asprintf_pos]
  refine ⟨?_, by omega⟩
  rcases hsign with rfl | rfl
  · obtain ⟨c, l, rfl⟩ := List.exists_cons_of_ne_nil hdigits
    apply ofBytes_ne_empty
    rintro rfl
    exact absurd (hdigit 0 List.mem_cons_self) (by decide)
  · exact ofBytes_ne_empty (by decide)

theorem length_integerPart_le {q : ℚ} {k : ℕ} (hq : |q| < 2 ^ k) :
    (Nat.toDigits 10 ((roundHalfEven (|q| * 1000)).toNat / 1000)).length ≤ k + 1 := by
  have hmul : |q| * 1000 < 2 ^ k * 1000 := by
    linarith
  have hfloor : ⌊|q| * 1000⌋ < 2 ^ k * 1000 := Int.floor_lt.mpr (by exact_mod_cast hmul)
  have hround := (roundHalfEven_bounds (|q| * 1000)).2
  have hnat : (roundHalfEven (|q| * 1000)).toNat ≤ 2 ^ k * 1000 := by
    rw [Int.toNat_le]
    push_cast
    omega
  refine (Nat.length_toDigits_le_iff (by decide) (Nat.succ_pos k)).mpr ?_
  calc (roundHalfEven (|q| * 1000)).toNat / 1000 ≤ 2 ^ k * 1000 / 1000 :=
        Nat.div_le_div_right hnat
    _ = 2 ^ k := Nat.mul_div_cancel _ (by decide)
    _ ≤ 10 ^ k := Nat.pow_le_pow_left (by decide) k
    _ < 10 ^ (k + 1) := Nat.pow_lt_pow_right (by decide) (Nat.lt_succ_self k)

theorem lib_prints : lib.Prints := by
  intro x
  cases x with
  | infinite negative => cases negative <;> decide
  | finite q hq =>
    have hdigits := length_integerPart_le hq.1
    refine asprintf_of_text ?_ (Decimal.digits_ne_nil _) (Decimal.isDigit_digits _) ?_
    · split
      · exact .inr rfl
      · exact .inl rfl
    · have hsign : (if q < 0 then [(45 : UInt8)] else []).length ≤ 1 := by
        split <;> decide
      simp only [List.length_append, List.length_map, List.length_cons, threeDigits,
        List.length_nil] at hdigits ⊢
      omega

end CJson

/-! ## The documents -/

variable (cfg : FileCfg) {contents : CString}

theorem fileParseJson_object {D : Type*} {lib : JsonLib D} {items : JsonItems D}
    (hparse : lib.parse contents = some (.object items)) :
    fileParseJson lib cfg contents =
      (fileParseJsonWalk lib cfg .empty ∅ items).elim .panic .parsed := by
  simp only [fileParseJson, hparse]
  cases fileParseJsonWalk lib cfg .empty ∅ items <;> rfl

theorem object_of_fileParseJson {D : Type*} {lib : JsonLib D} {r : Remote.Parsed Variables}
    (h : fileParseJson lib cfg contents = r) (hr : r ≠ .failed) :
    ∃ items, lib.parse contents = some (.object items) := by
  unfold fileParseJson at h
  split at h
  · rename_i items hparse
    exact ⟨items, hparse⟩
  · exact absurd h.symm hr

theorem fileParseJson_eq_panic_iff :
    fileParseJson CJson.lib cfg contents = .panic ↔
      ∃ items, CJson.lib.parse contents = some (.object items) ∧
        ¬ Flattens cfg CJson.lib items := by
  constructor
  · intro h
    obtain ⟨items, hparse⟩ := object_of_fileParseJson cfg h (by simp)
    refine ⟨items, hparse, fun hflat => ?_⟩
    have hnamed := CJson.named_of_parseWithOpts CJson.ofNumeral hparse
    obtain ⟨vars, hvars⟩ := Option.isSome_iff_exists.mp
      ((fileParseJsonWalk_isSome_iff cfg CJson.lib_prints hnamed).mpr hflat)
    rw [fileParseJson_object cfg hparse, hvars] at h
    cases h
  · rintro ⟨items, hparse, hflat⟩
    have hnamed := CJson.named_of_parseWithOpts CJson.ofNumeral hparse
    rw [fileParseJson_object cfg hparse]
    cases hwalk : fileParseJsonWalk CJson.lib cfg .empty ∅ items with
    | none => rfl
    | some vars =>
      refine absurd ?_ hflat
      rw [← fileParseJsonWalk_isSome_iff cfg CJson.lib_prints hnamed, hwalk]
      rfl

/-- **Loading JSON returns, and fails no assertion,** exactly when the leaves of the object, the
nested objects flattened, have different names that are neither empty nor too long. -/
theorem parse_json_returns_iff (contents : CString) :
    CJson.LoopsEnd CJson.ofNumeral ∧ fileParseJson CJson.lib cfg contents ≠ .panic ↔
      ∀ items, CJson.lib.parse contents = some (.object items) →
        Flattens cfg CJson.lib items := by
  rw [ne_eq, fileParseJson_eq_panic_iff]
  simp only [not_exists, not_and, not_not]
  exact and_iff_right (CJson.loopsEnd _)

/-- `{"a":"","a":""}`: the second insertion fails. -/
theorem repeated_key_panics :
    fileParseJson CJson.lib ⟨.ofBytes [58], .ofBytes [59]⟩ (.ofBytes
      [123, 34, 97, 34, 58, 34, 34, 44, 34, 97, 34, 58, 34, 34, 125]) = .panic := by
  rw [fileParseJson_eq_panic_iff]
  refine ⟨.cons (some (.ofBytes [97])) (.string .empty)
    (.cons (some (.ofBytes [97])) (.string .empty) .nil), rfl, fun hflat => ?_⟩
  exact absurd hflat.distinct (by decide)

end VmodCfg.File
