import VmodCfg.File.CJsonStrings
import VmodCfg.File.JsonFlatten
import VmodCfg.Lib.JsonGrammar

/-!
# JSON documents are loaded

What the grammar of JSON derives, cJSON parses, with the items that the text denotes: white space,
escapes, surrogate pairs and all, up to its own limits on nesting and on numerals. What follows the
document is not looked at.
-/

namespace VmodCfg.File

universe u

open CString JsonGrammar

namespace CJson

/-! ## White space -/

theorem skipWhitespace_append {w : List UInt8} (hw : Space w) {c : UInt8} (hc : 32 < c)
    (s : List UInt8) : skipWhitespace (w ++ c :: s) = c :: s := by
  have hspace : ∀ b ∈ w, decide (b ≤ 32) = true := by
    intro b hb
    rcases hw b hb with rfl | rfl | rfl | rfl <;> decide
  have hne : ¬ c ≤ 32 := UInt8.not_le.mpr hc
  unfold skipWhitespace
  rw [List.dropWhile_append_of_pos hspace, List.dropWhile_cons_of_neg (by simpa using hne)]

theorem skipWhitespace_idem (rest : List UInt8) :
    skipWhitespace (skipWhitespace rest) = skipWhitespace rest := by
  cases hdrop : rest.dropWhile fun c => decide (c ≤ 32) with
  | cons c left =>
    have hskip : skipWhitespace rest = c :: left := by
      unfold skipWhitespace
      rw [hdrop]
    have hc := List.head_dropWhile_not (fun c : UInt8 => decide (c ≤ 32))
      (show rest.dropWhile _ ≠ [] by rw [hdrop]; exact List.cons_ne_nil _ _)
    simp only [hdrop, List.head_cons, decide_eq_false_iff_not, UInt8.not_le] at hc
    rw [hskip, skipWhitespace_of_lt hc]
  | nil =>
    have hskip : skipWhitespace rest = rest.drop (rest.length - 1) := by
      unfold skipWhitespace
      rw [hdrop]
    have hall := List.dropWhile_eq_nil_iff.mp hdrop
    have hlast : (rest.drop (rest.length - 1)).dropWhile (fun c => decide (c ≤ 32)) = [] :=
      List.dropWhile_eq_nil_iff.mpr fun c hc => hall c (List.mem_of_mem_drop hc)
    rw [hskip]
    unfold skipWhitespace
    rw [hlast]
    simp only [List.length_drop, List.drop_drop]
    congr 1
    omega

/-! ## Strings -/

theorem parseHex4_append {t : List UInt8} {n : Nat} (h : Hex4 t n) (s : List UInt8) :
    parseHex4 (t ++ s) = n := by
  obtain ⟨ha, hb, hc, hd⟩ := h
  simp only [parseHex4, List.cons_append, ha, hb, hc, hd]

theorem length_hex4 {t : List UInt8} {n : Nat} (h : Hex4 t n) : t.length = 4 := by
  obtain ⟨-, -, -, -⟩ := h
  rfl

theorem hex4_lt {t : List UInt8} {n : Nat} (h : Hex4 t n) : n < 0x10000 := by
  obtain ⟨ha, hb, hc, hd⟩ := h
  have := hexDigit_lt _ ha
  have := hexDigit_lt _ hb
  have := hexDigit_lt _ hc
  have := hexDigit_lt _ hd
  omega

theorem utf8Next_eq (n : Nat) : utf8Next n = .ofNat (n % 64 + 128) := by
  -- the two bits above the lower six are those of the masks
  have hbits : Nat.testBit 0xBF 6 = false ∧ Nat.testBit 0x80 7 = true := by decide
  have hlow : (n ||| 0x80) &&& 0xBF = (n % 64 ||| 0x80) &&& 0xBF := by
    apply Nat.eq_of_testBit_eq
    intro i
    rw [show 64 = 2 ^ 6 from rfl]
    simp only [Nat.testBit_and, Nat.testBit_or, Nat.testBit_mod_two_pow]
    by_cases hi : i < 6
    · simp [hi]
    · rcases Nat.lt_or_ge i 8 with h | h
      · obtain rfl | rfl : i = 6 ∨ i = 7 := by omega
        · simp only [hbits.1, Bool.and_false]
        · simp only [hbits.2, Bool.or_true]
      · have hmask : Nat.testBit 0xBF i = false :=
          Nat.testBit_lt_two_pow
            (Nat.lt_of_lt_of_le (by decide) (Nat.pow_le_pow_right (by decide) h))
        simp [hmask]
  have hall : ∀ m < 64, (m ||| 0x80) &&& 0xBF = m + 128 := by decide
  rw [utf8Next, hlow, hall _ (Nat.mod_lt _ (by decide))]

theorem utf8First_eq {n k mark : Nat} (hn : n < 2 ^ k)
    (hmark : ∀ m < 2 ^ k, (m ||| mark) &&& 0xFF = m + mark) :
    utf8First n mark = .ofNat (n % 2 ^ k + mark) := by
  rw [utf8First, hmark n hn, Nat.mod_eq_of_lt hn]

/-- **`utf16_literal_to_utf8` gives UTF-8.** -/
theorem encodeUtf8_eq {n : Nat} (h : n.isValidChar) : encodeUtf8 n = some (utf8 n) := by
  have hval : (Char.ofNat n).val.toNat = n := by
    rw [Char.ofNat, dif_pos h]
    rfl
  have hmax : n < 0x110000 := by
    rcases h with h | ⟨-, h⟩ <;> omega
  unfold encodeUtf8 utf8 String.utf8EncodeChar
  simp only [hval]
  by_cases h1 : n < 0x80
  · have hall : ∀ m < 0x80, m &&& 0x7F = m := by decide
    rw [if_pos h1, if_pos (show n ≤ 0x7F by omega), hall n h1]
  rw [if_neg h1, if_neg (show ¬ n ≤ 0x7F by omega)]
  simp only [Nat.shiftRight_eq_div_pow, utf8Next_eq]
  by_cases h2 : n < 0x800
  · rw [if_pos h2, if_pos (show n ≤ 0x7FF by omega), utf8First_eq (k := 5) (by omega) (by decide)]
    rfl
  rw [if_neg h2, if_neg (show ¬ n ≤ 0x7FF by omega)]
  by_cases h3 : n < 0x10000
  · rw [if_pos h3, if_pos (show n ≤ 0xFFFF by omega), utf8First_eq (k := 4) (by omega) (by decide)]
    rfl
  rw [if_neg h3, if_pos (show n ≤ 0x10FFFF by omega), if_neg (show ¬ n ≤ 0xFFFF by omega),
    utf8First_eq (k := 3) (by omega) (by decide)]
  rfl

theorem pair_bits {hi lo : Nat} (hhi : 0xD800 ≤ hi ∧ hi ≤ 0xDBFF) (hlo : 0xDC00 ≤ lo ∧ lo ≤ 0xDFFF) :
    0x10000 + (((hi &&& 0x3FF) <<< 10) ||| (lo &&& 0x3FF)) = pairCode hi lo := by
  have hmask : ∀ m : Nat, m &&& 0x3FF = m % 1024 := by
    intro m
    simpa using Nat.and_two_pow_sub_one_eq_mod m 10
  have hhigh : hi &&& 0x3FF = hi - 0xD800 := by
    rw [hmask]
    omega
  have hlow : lo &&& 0x3FF = lo - 0xDC00 := by
    rw [hmask]
    omega
  have hor : ((hi - 0xD800) <<< 10) ||| (lo - 0xDC00) = (hi - 0xD800) * 0x400 + (lo - 0xDC00) := by
    rw [← Nat.shiftLeft_add_eq_or_of_lt (by omega), Nat.shiftLeft_eq]
  rw [hhigh, hlow, hor]
  unfold pairCode
  omega

theorem utf16LiteralToUtf8_unicode {t : List UInt8} {n : Nat} (ht : Hex4 t n)
    (hn : n < 0xD800 ∨ 0xDFFF < n) (s : List UInt8) :
    utf16LiteralToUtf8 (92 :: 117 :: (t ++ s)) = some (utf8 n, s) := by
  have hlen := length_hex4 ht
  have hlt := hex4_lt ht
  have hdrop : (92 :: 117 :: (t ++ s)).drop 6 = s := by
    rw [List.drop_succ_cons, List.drop_succ_cons, ← hlen, List.drop_left]
  have hvalid : n.isValidChar := by
    rcases hn with hn | hn
    · exact .inl hn
    · exact .inr ⟨hn, by omega⟩
  unfold utf16LiteralToUtf8
  rw [if_neg (by simp only [List.length_cons, List.length_append, hlen]; omega)]
  simp only [List.drop_succ_cons, List.drop_zero, parseHex4_append ht]
  rw [if_neg (by omega), if_neg (by omega), encodeUtf8_eq hvalid, Option.map_some,
    ← hlen, List.drop_left]

theorem utf16LiteralToUtf8_pair {t u : List UInt8} {hi lo : Nat} (ht : Hex4 t hi)
    (hhi : 0xD800 ≤ hi ∧ hi ≤ 0xDBFF) (hu : Hex4 u lo) (hlo : 0xDC00 ≤ lo ∧ lo ≤ 0xDFFF)
    (s : List UInt8) :
    utf16LiteralToUtf8 (92 :: 117 :: (t ++ 92 :: 117 :: (u ++ s))) =
      some (utf8 (pairCode hi lo), s) := by
  have hlen := length_hex4 ht
  have hlenu := length_hex4 hu
  have hsecond : (92 :: 117 :: (t ++ 92 :: 117 :: (u ++ s))).drop 6 = 92 :: 117 :: (u ++ s) := by
    rw [List.drop_succ_cons, List.drop_succ_cons, ← hlen, List.drop_left]
  have hrest : (92 :: 117 :: (t ++ 92 :: 117 :: (u ++ s))).drop 12 = s := by
    rw [show 12 = 6 + 6 from rfl, ← List.drop_drop, hsecond, List.drop_succ_cons,
      List.drop_succ_cons, ← hlenu, List.drop_left]
  have hvalid : (pairCode hi lo).isValidChar := by
    unfold pairCode
    exact .inr ⟨by omega, by omega⟩
  unfold utf16LiteralToUtf8
  rw [if_neg (by simp only [List.length_cons, List.length_append, hlen]; omega)]
  simp only [hsecond, hrest]
  simp only [List.drop_succ_cons, List.drop_zero, parseHex4_append ht, parseHex4_append hu]
  rw [if_neg (by omega), if_pos hhi,
    if_neg (by simp only [List.length_cons, List.length_append, hlenu]; omega),
    if_neg (by simp), if_neg (by omega), pair_bits hhi hlo, encodeUtf8_eq hvalid]
  rfl

theorem unescape_grammarChar {t c : List UInt8} (h : JsonGrammar.Char t c) (fuel : Nat)
    (s : List UInt8) : unescape (fuel + 1) (t ++ s) = (unescape fuel s).map (c ++ ·) := by
  cases h with
  | byte _ _ hbackslash =>
    rw [List.singleton_append, unescape.eq_def]
    exact if_pos hbackslash
  | escape he =>
    obtain ⟨hu, -⟩ := unescape_lt _ he
    simp only [List.cons_append, List.nil_append, unescape, ne_eq, not_true, if_false, hu, he]
  | unicode ht hn =>
    simp only [List.cons_append, unescape, ne_eq, not_true, if_false, if_true,
      utf16LiteralToUtf8_unicode ht hn]
  | pair ht hhi hu hlo =>
    simp only [List.cons_append, List.append_assoc, unescape, ne_eq, not_true, if_false, if_true,
      utf16LiteralToUtf8_pair ht hhi hu hlo]

theorem grammarChar_ne_nil {t c : List UInt8} (h : JsonGrammar.Char t c) : t ≠ [] := by
  cases h <;> exact List.cons_ne_nil _ _

theorem unescape_grammarChars {t s : List UInt8} (h : JsonGrammar.Chars t s) {fuel : Nat}
    (hfuel : t.length ≤ fuel) : unescape fuel t = some s := by
  induction h generalizing fuel with
  | nil => cases fuel <;> rfl
  | @cons t c ts cs hc _ ih =>
    have hpos := List.length_pos_iff.mpr (grammarChar_ne_nil hc)
    rw [List.length_append] at hfuel
    obtain ⟨n, rfl⟩ : ∃ n, fuel = n + 1 := ⟨fuel - 1, by omega⟩
    rw [unescape_grammarChar hc, ih (by omega)]
    rfl

theorem literalEnd_hex4 {t : List UInt8} {n : Nat} (h : Hex4 t n) (s : List UInt8) :
    literalEnd (t ++ s) = (literalEnd s).map (· + 4) := by
  obtain ⟨ha, hb, hc, hd⟩ := h
  obtain ⟨ha34, ha92⟩ := hexDigit_ne (Option.isSome_of_eq_some ha)
  obtain ⟨hb34, hb92⟩ := hexDigit_ne (Option.isSome_of_eq_some hb)
  obtain ⟨hc34, hc92⟩ := hexDigit_ne (Option.isSome_of_eq_some hc)
  obtain ⟨hd34, hd92⟩ := hexDigit_ne (Option.isSome_of_eq_some hd)
  simp only [List.cons_append, List.nil_append]
  rw [literalEnd_plain ha34 ha92, literalEnd_plain hb34 hb92, literalEnd_plain hc34 hc92,
    literalEnd_plain hd34 hd92]
  simp only [Option.map_map]
  rfl

theorem literalEnd_grammarChar {t c : List UInt8} (h : JsonGrammar.Char t c) (s : List UInt8) :
    literalEnd (t ++ s) = (literalEnd s).map (· + t.length) := by
  cases h with
  | byte _ hquote hbackslash => exact literalEnd_plain hquote hbackslash s
  | escape he => rfl
  | unicode ht _ =>
    rw [List.cons_append, List.cons_append, literalEnd_escape, literalEnd_hex4 ht, Option.map_map,
      List.length_cons, List.length_cons, length_hex4 ht]
    rfl
  | pair ht _ hu _ =>
    simp only [List.cons_append, List.append_assoc]
    rw [literalEnd_escape, literalEnd_hex4 ht, literalEnd_escape, literalEnd_hex4 hu]
    simp only [Option.map_map, List.length_cons, List.length_append, length_hex4 ht, length_hex4 hu]
    rfl

theorem literalEnd_grammarChars {t s : List UInt8} (h : JsonGrammar.Chars t s)
    (rest : List UInt8) : literalEnd (t ++ 34 :: rest) = some t.length := by
  induction h with
  | nil =>
    rw [List.nil_append, literalEnd.eq_def]
    rfl
  | cons hc _ ih =>
    rw [List.append_assoc, literalEnd_grammarChar hc, ih, Option.map_some, List.length_append,
      Nat.add_comm]

/-- **A string is parsed**, and cut at its first NUL. -/
theorem parseString_grammarStr {t s : List UInt8} (h : JsonGrammar.Str t s) (rest : List UInt8) :
    parseString (t ++ rest) = some (.ofBytes s, rest) := by
  obtain ⟨ht⟩ := h
  rename_i t
  have hend := literalEnd_grammarChars ht rest
  have hout := unescape_grammarChars ht (Nat.le_refl t.length)
  have hdrop : (t ++ 34 :: rest).drop (t.length + 1) = rest := by
    rw [← List.drop_drop, List.drop_left]
    rfl
  rw [List.cons_append, List.append_assoc, List.singleton_append, parseString, if_pos rfl, hend]
  simp only [List.take_left, hout, hdrop, Option.map_some]

/-! ## Values -/

section Values

variable {D : Type u} (number : Numeral → JsonNumber D)

mutual

def ofValue : Value → Json D
  | .null => .null
  | .bool b => if b then .true else .false
  | .number x => .number (number x)
  | .string s => .string (.ofBytes s)
  | .array items => .array (ofItems items)
  | .object members => .object (ofMembers members)

def ofItems : Items → JsonItems D
  | .nil => .nil
  | .cons item next => .cons none (ofValue item) (ofItems next)

def ofMembers : Members → JsonItems D
  | .nil => .nil
  | .cons name value next => .cons (some (.ofBytes name)) (ofValue value) (ofMembers next)

end

/-- How long a numeral may be: `sizeof(number_c_string) - 1`. -/
def numeralLimit : Nat := 63

/-- A byte that follows a value. -/
def Ends (c : UInt8) : Prop := 32 < c ∧ isNumberChar c = false

instance (c : UInt8) : Decidable (Ends c) := inferInstanceAs (Decidable (_ ∧ _))

theorem isNumberChar_number {t : List UInt8} {x : Numeral} (h : Number t x) :
    ∀ c ∈ t, isNumberChar c = true := by
  have hdigits : ∀ {l : List UInt8}, Digits l → ∀ c ∈ l, isNumberChar c = true := by
    intro l hl c hc
    simp [isNumberChar, hl c hc]
  obtain ⟨negative, hi, hf, he⟩ := h
  intro c hc
  rcases List.mem_append.mp hc with hc | hc
  · cases negative with
    | false => cases hc
    | true =>
      cases List.mem_singleton.mp hc
      rfl
  rcases List.mem_append.mp hc with hc | hc
  · exact hdigits hi.digits_ne_nil.2 c hc
  rcases List.mem_append.mp hc with hc | hc
  · cases hf with
    | none => cases hc
    | some _ h =>
      rcases List.mem_cons.mp hc with rfl | hc
      · rfl
      · exact hdigits h c hc
  · cases he with
    | none => cases hc
    | some he ht _ h =>
      rcases List.mem_cons.mp hc with rfl | hc
      · rcases he with rfl | rfl <;> rfl
      rcases List.mem_append.mp hc with hc | hc
      · cases ht with
        | none => cases hc
        | _ =>
          cases List.mem_singleton.mp hc
          rfl
      · exact hdigits h c hc

/-- A number is no longer than the buffer, and something else follows. -/
theorem parseNumber_number {t : List UInt8} {x : Numeral} (h : Number t x)
    (hlen : t.length ≤ numeralLimit) {rest : List UInt8}
    (hrest : ∀ c ∈ rest.head?, isNumberChar c = false) :
    parseNumber number (t ++ rest) = some (.number (number x), rest) := by
  have htake : ((t ++ rest).take 63).takeWhile isNumberChar = t := by
    rw [List.take_append, List.take_of_length_le (show t.length ≤ 63 from hlen),
      List.takeWhile_append_of_pos (isNumberChar_number h)]
    have hnone : (rest.take (63 - t.length)).takeWhile isNumberChar = [] := by
      cases rest with
      | nil => rw [List.take_nil, List.takeWhile_nil]
      | cons c rest =>
        cases 63 - t.length with
        | zero => rfl
        | succ n =>
          rw [List.take_succ_cons, List.takeWhile_cons_of_neg]
          rw [hrest c rfl]
          exact Bool.false_ne_true
    rw [hnone, List.append_nil]
  unfold parseNumber
  simp only [htake, scan_number h, Option.map_some, List.length_nil, Nat.sub_zero, List.drop_left]

end Values

/-! ## What a text starts with -/

/-- White space, and a byte that is no closing bracket. -/
def Starts (t : List UInt8) : Prop :=
  ∃ w c s, t = w ++ c :: s ∧ Space w ∧ 32 < c ∧ c ≠ 93 ∧ c ≠ 125

theorem Starts.append {t : List UInt8} (h : Starts t) (u : List UInt8) : Starts (t ++ u) := by
  obtain ⟨w, c, s, rfl, hw, hc⟩ := h
  exact ⟨w, c, s ++ u, by simp, hw, hc⟩

theorem Starts.space {t w : List UInt8} (hw : Space w) (h : Starts t) : Starts (w ++ t) := by
  obtain ⟨w', c, s, rfl, hw', hc⟩ := h
  refine ⟨w ++ w', c, s, by simp, fun b hb => ?_, hc⟩
  rcases List.mem_append.mp hb with hb | hb
  · exact hw b hb
  · exact hw' b hb

theorem number_head {t : List UInt8} {x : Numeral} (h : Number t x) :
    ∃ c s, t = c :: s ∧ (c = 45 ∨ Decimal.isDigit c = true) := by
  obtain ⟨negative, hi, hf, he⟩ := h
  obtain ⟨hne, hdigits⟩ := hi.digits_ne_nil
  cases negative with
  | true => exact ⟨45, _, rfl, .inl rfl⟩
  | false =>
    obtain ⟨c, s, rfl⟩ := List.exists_cons_of_ne_nil hne
    exact ⟨c, _, rfl, .inr (hdigits c List.mem_cons_self)⟩

theorem digit_head {c : UInt8} : c = 45 ∨ Decimal.isDigit c = true →
    32 < c ∧ c ≠ 93 ∧ c ≠ 125 ∧ c ≠ 110 ∧ c ≠ 102 ∧ c ≠ 116 ∧ c ≠ 34 := by
  revert c
  apply JsonText.forall_byte
  decide +kernel

theorem value_head {width d : Nat} {t : List UInt8} {v : Value} (h : Text width d t (.value v)) :
    ∃ c s, t = c :: s ∧ 32 < c ∧ c ≠ 93 ∧ c ≠ 125 := by
  cases h with
  | number h _ =>
    obtain ⟨c, s, rfl, hc⟩ := number_head h
    obtain ⟨h32, h93, h125, -⟩ := digit_head hc
    exact ⟨c, s, rfl, h32, h93, h125⟩
  | string h =>
    obtain ⟨-⟩ := h
    exact ⟨34, _, rfl, by decide⟩
  | _ => exact ⟨_, _, rfl, by decide⟩

theorem starts_text {width d : Nat} {t : List UInt8} {p : Part} (h : Text width d t p) :
    Starts t := by
  have hvalue : ∀ {d t v}, Text width d t (.value v) → Starts t := by
    intro d t v h
    obtain ⟨c, s, rfl, hc⟩ := value_head h
    exact ⟨[], c, s, rfl, List.forall_mem_nil _, hc⟩
  induction h with
  | element hw h _ _ => exact ((hvalue h).append _).space hw
  | lastElement _ ih | lastMember _ ih => exact ih
  | elements _ _ ih _ | members _ _ ih _ => exact ih.append _
  | member hw hk _ _ _ =>
    obtain ⟨-⟩ := hk
    exact ⟨_, 34, _, rfl, hw, by decide⟩
  | null => exact hvalue (d := 0) .null
  | false => exact hvalue (d := 0) .false
  | true => exact hvalue (d := 0) .true
  | number h hlen => exact hvalue (d := 0) (.number h hlen)
  | string h => exact hvalue (d := 0) (.string h)
  | emptyArray hw => exact hvalue (d := 1) (.emptyArray hw)
  | array h _ => exact hvalue (.array h)
  | emptyObject hw => exact hvalue (d := 1) (.emptyObject hw)
  | object h _ => exact hvalue (.object h)

/-! ## Parsing -/

section Parsing

variable {D : Type u} (number : Numeral → JsonNumber D)

/-- A value that is no literal name is told by its first byte. -/
theorem parseCases_cons (value : Option (List UInt8 → Option (Json D × List UInt8))) {c : UInt8}
    (hc : c ≠ 110 ∧ c ≠ 102 ∧ c ≠ 116) (left : List UInt8) :
    parseCases number value (c :: left) =
      if c = 34 then (parseString (c :: left)).map fun x => (.string x.1, x.2)
      else if c = 45 ∨ Decimal.isDigit c = true then parseNumber number (c :: left)
      else if c = 91 then value.bind fun value => parseArray value left
      else if c = 123 then value.bind fun value => parseObject value left
      else none := by
  obtain ⟨hn, hf, ht⟩ := hc
  unfold parseCases
  rw [if_neg (by simp [Ne.symm hn]), if_neg (by simp [textFalse, ofBytes, Ne.symm hf]),
    if_neg (by simp [textTrue, ofBytes, Ne.symm ht])]

theorem parseElements_skip (value : List UInt8 → Option (Json D × List UInt8)) (fuel : Nat)
    (rest : List UInt8) :
    parseElements value fuel (skipWhitespace rest) = parseElements value fuel rest := by
  cases fuel with
  | zero => rfl
  | succ fuel => simp only [parseElements, skipWhitespace_idem]

theorem skipWhitespace_eq_nil {rest : List UInt8} : skipWhitespace rest = [] ↔ rest = [] := by
  constructor
  · intro h
    by_contra hne
    have hpos := List.length_pos_iff.mpr hne
    unfold skipWhitespace at h
    split at h
    · rw [List.drop_eq_nil_iff] at h
      omega
    · cases h
  · rintro rfl
    rfl

theorem parseMembers_skip (value : List UInt8 → Option (Json D × List UInt8)) (fuel : Nat)
    (rest : List UInt8) :
    parseMembers value fuel (skipWhitespace rest) = parseMembers value fuel rest := by
  cases fuel with
  | zero => rfl
  | succ fuel => simp only [parseMembers, skipWhitespace_idem, skipWhitespace_eq_nil]

/-- What the parser makes of a part of a text, up to a byte that does not belong to it. -/
def Parses (levels : Nat) (t : List UInt8) : Part → Prop
  | .value v => ∀ rest, (∀ c ∈ rest.head?, isNumberChar c = false) →
      parseValue number levels (t ++ rest) = some (ofValue number v, rest)
  | .element v => ∀ c rest, Ends c → ∃ left,
      parseValue number levels (skipWhitespace (t ++ c :: rest)) = some (ofValue number v, left) ∧
        skipWhitespace left = c :: rest
  | .elements items => ∀ fuel rest, (t ++ 93 :: rest).length ≤ fuel →
      parseElements (parseValue number levels) fuel (t ++ 93 :: rest) =
        some (ofItems number items, rest)
  | .member name v => ∀ c rest, Ends c → ∃ colon text left,
      parseString (skipWhitespace (t ++ c :: rest)) = some (.ofBytes name, colon) ∧
        skipWhitespace colon = 58 :: text ∧
        parseValue number levels (skipWhitespace text) = some (ofValue number v, left) ∧
        skipWhitespace left = c :: rest
  | .members members => ∀ fuel rest, (t ++ 125 :: rest).length ≤ fuel →
      parseMembers (parseValue number levels) fuel (t ++ 125 :: rest) =
        some (ofMembers number members, rest)

/-- What follows a value, with white space before it, is no part of a number. -/
theorem head_space {w : List UInt8} (hw : Space w) {c : UInt8} (hc : Ends c) (rest : List UInt8) :
    ∀ b ∈ (w ++ c :: rest).head?, isNumberChar b = false := by
  intro b hb
  cases w with
  | nil =>
    cases hb
    exact hc.2
  | cons d w =>
    have hd := hw b (List.mem_cons.mpr (.inl (Option.some.inj hb).symm))
    rcases hd with rfl | rfl | rfl | rfl <;> rfl

theorem parses_element {levels : Nat} {w t w' : List UInt8} {v : Value} {width d : Nat}
    (hw : Space w) (ht : Text width d t (.value v)) (hw' : Space w')
    (h : Parses number levels t (.value v)) :
    Parses number levels (w ++ (t ++ w')) (.element v) := by
  intro c rest hc
  obtain ⟨b, s, rfl, hb, -⟩ := value_head ht
  have hparse := h (w' ++ c :: rest) (head_space hw' hc rest)
  refine ⟨w' ++ c :: rest, ?_, skipWhitespace_append hw' hc.1 rest⟩
  simp only [List.append_assoc, List.cons_append] at hparse ⊢
  rw [skipWhitespace_append hw hb, hparse]

theorem parseElements_element {levels : Nat} {t : List UInt8} {v : Value} {c : UInt8}
    {rest : List UInt8} (hc : Ends c) (h : Parses number levels t (.element v)) (fuel : Nat) :
    parseElements (parseValue number levels) (fuel + 1) (t ++ c :: rest) =
      if c = 44 then (parseElements (parseValue number levels) fuel rest).map fun x =>
        (.cons none (ofValue number v) x.1, x.2)
      else if c = 93 then some (.cons none (ofValue number v) .nil, rest) else none := by
  obtain ⟨left, hvalue, hleft⟩ := h c rest hc
  simp only [parseElements, hvalue, hleft]

theorem parseMembers_member {levels : Nat} {t name : List UInt8} {v : Value} {c : UInt8}
    {rest : List UInt8} (hc : Ends c) (h : Parses number levels t (.member name v)) (fuel : Nat) :
    parseMembers (parseValue number levels) (fuel + 1) (t ++ c :: rest) =
      if c = 44 then (parseMembers (parseValue number levels) fuel rest).map fun x =>
        (.cons (some (.ofBytes name)) (ofValue number v) x.1, x.2)
      else if c = 125 then some (.cons (some (.ofBytes name)) (ofValue number v) .nil, rest)
      else none := by
  obtain ⟨colon, text, left, hstring, hcolon, hvalue, hleft⟩ := h c rest hc
  have hne : t ++ c :: rest ≠ [] := by
    simp
  simp only [parseMembers, hne, hstring, hcolon, hvalue, hleft, if_true, if_false]

theorem parseArray_elements {levels d : Nat} {t : List UInt8} {items : Items}
    (ht : Text numeralLimit d t (.elements items))
    (h : Parses number levels t (.elements items)) (rest : List UInt8) :
    parseArray (parseValue number levels) (t ++ 93 :: rest) =
      some (.array (ofItems number items), rest) := by
  obtain ⟨w, c, s, rfl, hw, hc, h93, -⟩ := starts_text ht
  have hskip : skipWhitespace (w ++ c :: s ++ 93 :: rest) = c :: (s ++ 93 :: rest) := by
    rw [List.append_assoc, List.cons_append, skipWhitespace_append hw hc]
  have hloop := h (w ++ c :: s ++ 93 :: rest).length rest (Nat.le_refl _)
  have hfuel : (c :: (s ++ 93 :: rest)).length ≤ (w ++ c :: s ++ 93 :: rest).length := by
    rw [← hskip]
    exact length_skipWhitespace_le _
  rw [← parseElements_skip, hskip, (loopsEnd number).elements _ _ _ hfuel] at hloop
  unfold parseArray
  rw [hskip]
  simp only [h93, if_false]
  rw [(loopsEnd number).elements _ _ _ (by simp), hloop]
  rfl

theorem parseObject_grammarMembers {levels d : Nat} {t : List UInt8} {members : Members}
    (ht : Text numeralLimit d t (.members members))
    (h : Parses number levels t (.members members)) (rest : List UInt8) :
    parseObject (parseValue number levels) (t ++ 125 :: rest) =
      some (.object (ofMembers number members), rest) := by
  obtain ⟨w, c, s, rfl, hw, hc, -, h125⟩ := starts_text ht
  have hskip : skipWhitespace (w ++ c :: s ++ 125 :: rest) = c :: (s ++ 125 :: rest) := by
    rw [List.append_assoc, List.cons_append, skipWhitespace_append hw hc]
  have hloop := h (w ++ c :: s ++ 125 :: rest).length rest (Nat.le_refl _)
  have hfuel : (c :: (s ++ 125 :: rest)).length ≤ (w ++ c :: s ++ 125 :: rest).length := by
    rw [← hskip]
    exact length_skipWhitespace_le _
  rw [← parseMembers_skip, hskip, (loopsEnd number).members _ _ _ hfuel] at hloop
  unfold parseObject
  rw [hskip]
  simp only [h125, if_false]
  rw [(loopsEnd number).members _ _ _ (by simp), hloop]
  rfl

theorem parseValue_emptyObject {w : List UInt8} (hw : Space w) (levels : Nat)
    (rest : List UInt8) : parseValue number (levels + 1) (123 :: (w ++ [125]) ++ rest) =
      some (.object .nil, rest) := by
  rw [List.cons_append, List.append_assoc, List.singleton_append, parseValue,
    parseCases_cons number _ (by decide)]
  simp only [parseObject, skipWhitespace_append hw (by decide : (32 : UInt8) < 125)]
  rfl

theorem parseValue_members {levels d : Nat} {t : List UInt8} {members : Members}
    (ht : Text numeralLimit d t (.members members))
    (h : Parses number levels t (.members members)) (rest : List UInt8) :
    parseValue number (levels + 1) (123 :: (t ++ [125]) ++ rest) =
      some (.object (ofMembers number members), rest) := by
  have hobject := parseObject_grammarMembers number ht h rest
  rw [List.cons_append, List.append_assoc, List.singleton_append, parseValue,
    parseCases_cons number _ (by decide)]
  exact hobject

/-- **What the grammar derives, cJSON parses.** -/
theorem parses_text {d : Nat} {t : List UInt8} {p : Part} (h : Text numeralLimit d t p)
    {levels : Nat} (hlevels : d ≤ levels) : Parses number levels t p := by
  induction h generalizing levels with
  | null | false | true => intro rest _; cases levels <;> rfl
  | number h hlen =>
    intro rest hrest
    have hnumber := parseNumber_number number h hlen hrest
    obtain ⟨c, s, rfl, hc⟩ := number_head h
    obtain ⟨-, -, -, hn, hf, ht, hquote⟩ := digit_head hc
    rw [List.cons_append] at hnumber ⊢
    cases levels <;>
      simp only [parseValue, parseCases_cons number _ ⟨hn, hf, ht⟩, hquote, hc, if_true, if_false,
        hnumber] <;> rfl
  | string h =>
    intro rest _
    have hstring := parseString_grammarStr h rest
    obtain ⟨-⟩ := h
    rw [List.cons_append] at hstring ⊢
    cases levels <;>
      simp only [parseValue, parseCases_cons number _ (by decide : (34 : UInt8) ≠ 110 ∧ _), if_true,
        hstring, Option.map_some] <;> rfl
  | emptyArray hw =>
    intro rest _
    obtain ⟨levels, rfl⟩ : ∃ l, levels = l + 1 := ⟨levels - 1, by omega⟩
    rw [List.cons_append, List.append_assoc, List.singleton_append, parseValue,
      parseCases_cons number _ (by decide)]
    simp only [parseArray, skipWhitespace_append hw (by decide : (32 : UInt8) < 93)]
    rfl
  | array h ih =>
    intro rest _
    obtain ⟨levels, rfl⟩ : ∃ l, levels = l + 1 := ⟨levels - 1, by omega⟩
    have harray := parseArray_elements number h (ih (Nat.le_of_succ_le_succ hlevels)) rest
    rw [List.cons_append, List.append_assoc, List.singleton_append, parseValue,
      parseCases_cons number _ (by decide)]
    exact harray
  | emptyObject hw =>
    intro rest _
    obtain ⟨levels, rfl⟩ : ∃ l, levels = l + 1 := ⟨levels - 1, by omega⟩
    exact parseValue_emptyObject number hw levels rest
  | object h ih =>
    intro rest _
    obtain ⟨levels, rfl⟩ : ∃ l, levels = l + 1 := ⟨levels - 1, by omega⟩
    exact parseValue_members number h (ih (Nat.le_of_succ_le_succ hlevels)) rest
  | element hw h hw' ih => exact parses_element number hw h hw' (ih hlevels)
  | lastElement _ ih =>
    intro fuel rest hfuel
    obtain ⟨fuel, rfl⟩ : ∃ n, fuel = n + 1 := ⟨fuel - 1, by simp at hfuel; omega⟩
    rw [parseElements_element number (by decide) (ih hlevels)]
    rfl
  | elements _ _ ih ih' =>
    intro fuel rest hfuel
    obtain ⟨fuel, rfl⟩ : ∃ n, fuel = n + 1 := ⟨fuel - 1, by simp at hfuel; omega⟩
    rw [List.append_assoc, List.cons_append] at hfuel ⊢
    rw [parseElements_element number (by decide) (ih hlevels), if_pos rfl,
      ih' hlevels fuel rest (by simp only [List.length_append, List.length_cons] at hfuel ⊢; omega)]
    rfl
  | member hw hk hw' ht ih =>
    intro c rest hc
    obtain ⟨left, hvalue, hleft⟩ := ih hlevels c rest hc
    rename_i w k w' name t v
    refine ⟨w' ++ 58 :: (t ++ c :: rest), t ++ c :: rest, left, ?_,
      skipWhitespace_append hw' (by decide) _, hvalue, hleft⟩
    have hstring := parseString_grammarStr hk (w' ++ 58 :: (t ++ c :: rest))
    obtain ⟨-⟩ := hk
    simp only [List.append_assoc, List.cons_append] at hstring ⊢
    rw [skipWhitespace_append hw (by decide), hstring]
  | lastMember _ ih =>
    intro fuel rest hfuel
    obtain ⟨fuel, rfl⟩ : ∃ n, fuel = n + 1 := ⟨fuel - 1, by simp at hfuel; omega⟩
    rw [parseMembers_member number (by decide) (ih hlevels)]
    rfl
  | members _ _ ih ih' =>
    intro fuel rest hfuel
    obtain ⟨fuel, rfl⟩ : ∃ n, fuel = n + 1 := ⟨fuel - 1, by simp at hfuel; omega⟩
    rw [List.append_assoc, List.cons_append] at hfuel ⊢
    rw [parseMembers_member number (by decide) (ih hlevels), if_pos rfl,
      ih' hlevels fuel rest (by simp only [List.length_append, List.length_cons] at hfuel ⊢; omega)]
    rfl

theorem parseValue_object {d levels : Nat} {t : List UInt8} {members : Members}
    (h : Text numeralLimit d t (.value (.object members))) (hlevels : d ≤ levels)
    (rest : List UInt8) :
    parseValue number levels (t ++ rest) = some (.object (ofMembers number members), rest) := by
  cases h with
  | emptyObject hw =>
    obtain ⟨levels, rfl⟩ : ∃ l, levels = l + 1 := ⟨levels - 1, by omega⟩
    exact parseValue_emptyObject number hw levels rest
  | object h =>
    obtain ⟨levels, rfl⟩ : ∃ l, levels = l + 1 := ⟨levels - 1, by omega⟩
    exact parseValue_members number h (parses_text number h (Nat.le_of_succ_le_succ hlevels)) rest

end Parsing

/-! ## Documents -/

/-- The contents of a JSON file: an object, maybe with a byte order mark and white space in front,
and anything behind it. -/
inductive Document : List UInt8 → Members → Prop
  | mk (marked : Bool) {w t members} (hw : Space w)
      (ht : Text numeralLimit nestingLimit t (.value (.object members))) (rest : List UInt8) :
    Document ((if marked then Ini.bom else []) ++ (w ++ (t ++ rest))) members

theorem nonzero_space {w : List UInt8} (hw : Space w) : 0 ∉ w := by
  intro hzero
  rcases hw 0 hzero with h | h | h | h <;> exact absurd h (by decide)

theorem nonzero_hex4 {t : List UInt8} {n : Nat} (h : Hex4 t n) : 0 ∉ t := by
  have hdigit : ∀ {d x : UInt8}, JsonText.hexDigit d = some x → (0 : UInt8) ≠ d := by
    rintro d x hd rfl
    exact absurd hd (by rw [show JsonText.hexDigit 0 = none by decide]; simp)
  obtain ⟨ha, hb, hc, hd⟩ := h
  simp [hdigit ha, hdigit hb, hdigit hc, hdigit hd]

theorem nonzero_str {t s : List UInt8} (h : JsonGrammar.Str t s) : 0 ∉ t := by
  obtain ⟨ht⟩ := h
  rename_i t
  have hchars : 0 ∉ t := by
    induction ht with
    | nil => exact List.not_mem_nil
    | cons hc _ ih =>
      rw [List.mem_append, not_or]
      refine ⟨?_, ih⟩
      cases hc with
      | byte hc _ _ =>
        rintro hzero
        cases List.mem_singleton.mp hzero
        exact absurd hc (by decide)
      | @escape e c he =>
        have hne : (0 : UInt8) ≠ e := by
          rintro rfl
          exact absurd he (by rw [show JsonText.unescape 0 = none by decide]; simp)
        simp [hne]
      | unicode ht _ => simp [nonzero_hex4 ht]
      | pair ht _ hu _ => simp [nonzero_hex4 ht, nonzero_hex4 hu]
  simp [hchars]

theorem nonzero_text {width d : Nat} {t : List UInt8} {p : Part} (h : Text width d t p) :
    0 ∉ t := by
  induction h with
  | null | false | true => decide
  | number h _ => exact fun hzero => absurd (isNumberChar_number h 0 hzero) (by decide)
  | string h => exact nonzero_str h
  | emptyArray hw | emptyObject hw => simp [nonzero_space hw]
  | array _ ih | object _ ih => simp [ih]
  | element hw _ hw' ih => simp [nonzero_space hw, nonzero_space hw', ih]
  | lastElement _ ih | lastMember _ ih => exact ih
  | elements _ _ ih ih' | members _ _ ih ih' => simp [ih, ih']
  | member hw hk hw' _ ih => simp [nonzero_space hw, nonzero_str hk, nonzero_space hw', ih]

theorem skipUtf8Bom_mark (marked : Bool) {s : List UInt8} (hlen : 1 < s.length)
    (hs : ¬ Ini.bom <+: s) : skipUtf8Bom ((if marked then Ini.bom else []) ++ s) = s := by
  unfold skipUtf8Bom
  cases marked with
  | true =>
    rw [if_pos rfl, if_pos ⟨by simp [Ini.bom]; omega, List.prefix_append ..⟩]
    rfl
  | false =>
    rw [if_neg Bool.false_ne_true, List.nil_append, if_neg fun h => hs h.2]

/-- **cJSON builds the items** that the document denotes. -/
theorem parseWithOpts_document {D : Type u} (number : Numeral → JsonNumber D) {t : List UInt8}
    {members : Members} (h : Document t members) :
    parseWithOpts number (.ofBytes t) = some (.object (ofMembers number members)) := by
  obtain ⟨marked, hw, ht, rest⟩ := h
  rename_i w t
  have hzero : 0 ∉ (if marked then Ini.bom else []) ++ (w ++ t) := by
    have hmark : (0 : UInt8) ∉ if marked then Ini.bom else [] := by
      cases marked <;> decide
    simp [hmark, nonzero_space hw, nonzero_text ht]
  have hbytes : (CString.ofBytes ((if marked then Ini.bom else []) ++ (w ++ (t ++ rest)))).bytes =
      (if marked then Ini.bom else []) ++ (w ++ (t ++ (CString.ofBytes rest).bytes)) := by
    have hassoc : ∀ r, (if marked then Ini.bom else []) ++ (w ++ (t ++ r)) =
        (if marked then Ini.bom else []) ++ (w ++ t) ++ r := by
      simp
    rw [hassoc, hassoc]
    refine List.takeWhile_append_of_pos fun c hc => ?_
    simpa using ne_of_mem_of_not_mem hc hzero
  have hparse := parseValue_object number ht (Nat.le_refl _) ((CString.ofBytes rest).bytes ++ [0])
  obtain ⟨s, rfl⟩ : ∃ s, t = 123 :: s := by
    cases ht with
    | emptyObject _ => exact ⟨_, rfl⟩
    | object _ => exact ⟨_, rfl⟩
  have hs : ¬ Ini.bom <+: w ++ (123 :: s ++ ((CString.ofBytes rest).bytes ++ [0])) := by
    rintro ⟨r, hr⟩
    have hhead := congrArg List.head? hr
    cases w with
    | nil => simp [Ini.bom] at hhead
    | cons d w =>
      have hd : d = 0xEF := by simpa [Ini.bom, eq_comm] using hhead
      exact absurd (hw d List.mem_cons_self) (by rw [hd]; decide)
  unfold parseWithOpts
  rw [hbytes, List.append_assoc, List.append_assoc, List.append_assoc,
    skipUtf8Bom_mark marked (by simp; omega) hs, List.cons_append,
    skipWhitespace_append hw (by decide), ← List.cons_append, hparse]
  rfl

end CJson

/-! ## Loading -/

open CJson

/-- **A JSON document is loaded** exactly when the names of its leaves are good and different, as
one variable for each leaf that has a text. -/
theorem json_document_loads (cfg : FileCfg) {t : List UInt8} {members : Members}
    (h : Document t members) (vars : Variables) :
    fileParseJson CJson.lib cfg (.ofBytes t) = .parsed vars ↔
      Flattens cfg CJson.lib (ofMembers ofNumeral members) ∧
        vars.toList.Perm (flattened cfg (ofMembers ofNumeral members)) := by
  have hparse := parseWithOpts_document ofNumeral h
  obtain ⟨hnamed, hplain⟩ := built_of_parse hparse
  have hwalk := fileParseJsonWalk_isSome_iff cfg CJson.lib_prints hnamed
  rw [fileParseJson_object cfg hparse, ← entries_eq_flattened cfg hplain]
  constructor
  · intro hload
    cases hvars : fileParseJsonWalk CJson.lib cfg .empty ∅ (ofMembers ofNumeral members) with
    | none =>
      rw [hvars] at hload
      cases hload
    | some vars' =>
      rw [hvars] at hload
      cases hload
      exact ⟨hwalk.mp (by rw [hvars]; rfl), toList_of_walk cfg hnamed hvars⟩
  · rintro ⟨hflat, hperm⟩
    obtain ⟨vars', hvars⟩ := Option.isSome_iff_exists.mp (hwalk.mpr hflat)
    have hsame := Std.ExtTreeMap.ext_toList ((toList_of_walk cfg hnamed hvars).trans hperm.symm)
    rw [hvars, hsame]
    rfl

/-- `{"a" : {"b":"\ud83d\ude00"}, "c":true};` is loaded, with the emoticon as the value of `a:b`. -/
theorem json_document_loads_pair :
    ∃ vars, fileParseJson CJson.lib ⟨.ofString ":", .ofString ";"⟩
        (.ofString "\x7b\"a\" : \x7b\"b\":\"\\ud83d\\ude00\"\x7d, \"c\":true\x7d;") = .parsed vars ∧
      vars.toList = [(.ofString "a:b", .ofString "😀"), (.ofString "c", .ofString "true")] := by
  have hspace : Space [] := by decide
  have hblank : Space [32] := by decide
  have hname : ∀ c : UInt8, 32 ≤ c ∧ c ≠ 34 ∧ c ≠ 92 → JsonGrammar.Str [34, c, 34] [c] := by
    intro c ⟨hlo, hquote, hbackslash⟩
    exact .mk (.cons (.byte hlo hquote hbackslash) .nil)
  have hhigh : Hex4 [100, 56, 51, 100] 0xD83D :=
    .mk (x := 13) (y := 8) (z := 3) (w := 13) rfl rfl rfl rfl
  have hlow : Hex4 [100, 101, 48, 48] 0xDE00 :=
    .mk (x := 13) (y := 14) (z := 0) (w := 0) rfl rfl rfl rfl
  have hpair := JsonGrammar.Str.mk (.cons (.pair hhigh (by decide) hlow (by decide)) .nil)
  have hinner : Text numeralLimit 999 _ _ :=
    .object (.lastMember (.member hspace (hname 98 (by decide)) hspace
      (.element hspace (.string hpair) hspace)))
  have houter : Text numeralLimit 1000 _ _ :=
    .object (.members
      (.member hspace (hname 97 (by decide)) hblank (.element hblank hinner hspace))
      (.lastMember (.member hblank (hname 99 (by decide)) hspace (.element hspace .true hspace))))
  have hload := json_document_loads ⟨.ofString ":", .ofString ";"⟩
    (Document.mk false hspace houter [59])
    (.ofList [(.ofString "a:b", .ofString "😀"), (.ofString "c", .ofString "true")] _)
  refine ⟨_, Eq.trans (congrArg (fileParseJson CJson.lib _) (by decide +kernel)) (hload.mpr
    ⟨⟨by decide +kernel, by decide +kernel, by decide +kernel⟩, by decide +kernel⟩),
    by decide +kernel⟩

end VmodCfg.File
