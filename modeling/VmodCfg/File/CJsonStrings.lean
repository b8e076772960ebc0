import VmodCfg.File.CJson

/-!
# cJSON on objects of strings

The parser is run on the grammar of `JsonText`, in which a character has the code of the byte it
stands for. cJSON takes these codes for characters of Unicode and gives them in UTF-8: a byte from
0x80 on is read as two.
-/

namespace VmodCfg.File

universe u

open CString

/-! ## Bytes that are read as characters -/

/-- The character with the code `c`, in UTF-8. -/
def widenByte (c : UInt8) : List UInt8 :=
  if c < 128 then [c] else [CJson.utf8First (c.toNat >>> 6) 0xC0, CJson.utf8Next c.toNat]

def widen (t : List UInt8) : List UInt8 := t.flatMap widenByte

def Ascii (t : List UInt8) : Prop := ∀ c ∈ t, c < 128

instance (t : List UInt8) : Decidable (Ascii t) := List.decidableBAll _ t

theorem widenByte_of_lt {c : UInt8} (h : c < 128) : widenByte c = [c] := if_pos h

theorem length_widenByte (c : UInt8) : (widenByte c).length = if c < 128 then 1 else 2 := by
  unfold widenByte
  split <;> rfl

theorem zero_not_mem_widenByte {c : UInt8} : c ≠ 0 → 0 ∉ widenByte c := by
  revert c
  apply JsonText.forall_byte
  decide +kernel

@[simp] theorem widen_cons (c : UInt8) (t : List UInt8) : widen (c :: t) = widenByte c ++ widen t :=
  List.flatMap_cons

theorem zero_not_mem_widen {t : List UInt8} (h : 0 ∉ t) : 0 ∉ widen t := by
  intro hmem
  obtain ⟨c, hc, hzero⟩ := List.mem_flatMap.mp hmem
  refine zero_not_mem_widenByte ?_ hzero
  rintro rfl
  exact h hc

/-- A text gets no shorter, and longer where a byte is no ASCII. -/
theorem length_widen (t : List UInt8) :
    t.length ≤ (widen t).length ∧ ((widen t).length = t.length ↔ Ascii t) := by
  induction t with
  | nil => exact ⟨Nat.le_refl 0, iff_of_true rfl (by decide)⟩
  | cons c t ih =>
    have hlen := length_widenByte c
    rw [Ascii, List.forall_mem_cons, ← Ascii, ← ih.2, widen_cons, List.length_append,
      List.length_cons]
    split at hlen
    · rename_i hc
      simp only [hc, true_and]
      omega
    · rename_i hc
      simp only [hc, false_and, iff_false]
      omega

theorem widen_eq_self {t : List UInt8} (h : Ascii t) : widen t = t := by
  induction t with
  | nil => rfl
  | cons c t ih =>
    rw [Ascii, List.forall_mem_cons] at h
    rw [widen_cons, widenByte_of_lt h.1, ih h.2]
    rfl

/-! ## cJSON on strings -/

namespace CJson

theorem skipWhitespace_of_lt {c : UInt8} (h : 32 < c) (s : List UInt8) :
    skipWhitespace (c :: s) = c :: s := by
  have hc : ¬ c ≤ 32 := UInt8.not_le.mpr h
  unfold skipWhitespace
  rw [List.dropWhile_cons_of_neg (by simpa using hc)]

theorem hexDigit_lt {d : UInt8} : ∀ x ∈ JsonText.hexDigit d, x.toNat < 16 := by
  revert d
  apply JsonText.forall_byte
  decide +kernel

theorem hexDigit_ne {d : UInt8} : (JsonText.hexDigit d).isSome → d ≠ 34 ∧ d ≠ 92 := by
  revert d
  apply JsonText.forall_byte
  decide +kernel

theorem unescape_lt {e : UInt8} : ∀ c ∈ JsonText.unescape e, e ≠ 117 ∧ c < 128 := by
  revert e
  apply JsonText.forall_byte
  decide +kernel

theorem encodeUtf8_byte (c : UInt8) : encodeUtf8 c.toNat = some (widenByte c) := by
  revert c
  apply JsonText.forall_byte
  decide +kernel

theorem utf16LiteralToUtf8_byte {a b x y : UInt8} (ha : JsonText.hexDigit a = some x)
    (hb : JsonText.hexDigit b = some y) (s : List UInt8) :
    utf16LiteralToUtf8 (92 :: 117 :: 48 :: 48 :: a :: b :: s) =
      some (widenByte (x * 16 + y), s) := by
  have hx := hexDigit_lt x ha
  have hy := hexDigit_lt y hb
  have hzero : JsonText.hexDigit 48 = some 0 := by decide
  have hcode : (x * 16 + y).toNat = x.toNat * 16 + y.toNat := by
    rw [UInt8.toNat_add, UInt8.toNat_mul]
    show (x.toNat * 16 % 256 + y.toNat) % 256 = _
    omega
  have hhex : parseHex4 (48 :: 48 :: a :: b :: s) = (x * 16 + y).toNat := by
    simp only [parseHex4, hzero, ha, hb, hcode]
    simp
  have hlt := (x * 16 + y).toNat_lt
  unfold utf16LiteralToUtf8
  rw [if_neg (by simp only [List.length_cons]; omega)]
  simp only [List.drop_succ_cons, List.drop_zero, hhex]
  rw [if_neg (by omega), if_neg (by omega), encodeUtf8_byte]
  rfl

theorem unescape_char {t : List UInt8} {c : UInt8} (h : JsonText.Char t c) (fuel : Nat)
    (s : List UInt8) :
    unescape (fuel + 1) (t ++ s) = (unescape fuel s).map (widenByte c ++ ·) := by
  cases h with
  | plain hp =>
    obtain ⟨-, hlt, -, hbackslash⟩ := hp
    rw [widenByte_of_lt hlt, List.singleton_append, unescape.eq_def]
    exact if_pos hbackslash
  | escape he =>
    obtain ⟨hu, hlt⟩ := unescape_lt c he
    rw [widenByte_of_lt hlt]
    simp only [List.cons_append, List.nil_append, unescape, ne_eq, not_true, if_false, hu, he]
  | unicode ha hb =>
    simp only [List.cons_append, List.nil_append, unescape, ne_eq, not_true, if_false, if_true,
      utf16LiteralToUtf8_byte ha hb]

theorem unescape_chars {t s : List UInt8} (h : JsonText.Chars t s) {fuel : Nat}
    (hfuel : t.length ≤ fuel) : unescape fuel t = some (widen s) := by
  induction h generalizing fuel with
  | nil => cases fuel <;> rfl
  | @cons t c ts cs hc _ ih =>
    have hpos : 0 < t.length := by
      cases hc <;> simp
    rw [List.length_append] at hfuel
    obtain ⟨n, rfl⟩ : ∃ n, fuel = n + 1 := ⟨fuel - 1, by omega⟩
    rw [unescape_char hc, ih (by omega)]
    rfl

theorem literalEnd_plain {c : UInt8} (hquote : c ≠ 34) (hbackslash : c ≠ 92) (s : List UInt8) :
    literalEnd (c :: s) = (literalEnd s).map (· + 1) := by
  rw [literalEnd.eq_def]
  simp only [hquote, hbackslash, if_false]

theorem literalEnd_escape (e : UInt8) (s : List UInt8) :
    literalEnd (92 :: e :: s) = (literalEnd s).map (· + 2) := rfl

theorem literalEnd_chars {t s : List UInt8} (h : JsonText.Chars t s) (rest : List UInt8) :
    literalEnd (t ++ 34 :: rest) = some t.length := by
  induction h with
  | nil =>
    rw [List.nil_append, literalEnd.eq_def]
    rfl
  | cons hc _ ih =>
    cases hc with
    | plain hp =>
      obtain ⟨-, -, hquote, hbackslash⟩ := hp
      rw [List.singleton_append, List.cons_append, literalEnd_plain hquote hbackslash, ih]
      rfl
    | escape he =>
      simp only [List.cons_append, List.nil_append, literalEnd_escape, ih]
      rfl
    | @unicode a b x y ha hb =>
      obtain ⟨ha34, ha92⟩ := hexDigit_ne (Option.isSome_of_eq_some ha)
      obtain ⟨hb34, hb92⟩ := hexDigit_ne (Option.isSome_of_eq_some hb)
      simp only [List.cons_append, List.nil_append, literalEnd_escape]
      rw [literalEnd_plain (by decide) (by decide), literalEnd_plain (by decide) (by decide),
        literalEnd_plain ha34 ha92, literalEnd_plain hb34 hb92, ih]
      rfl

/-- **A string is read** with its codes as characters. -/
theorem parseString_str {t s : List UInt8} (h : JsonText.Str t s) (rest : List UInt8) :
    parseString (t ++ rest) = some (.ofBytes (widen s), rest) := by
  obtain ⟨ht⟩ := h
  rename_i t
  have hend := literalEnd_chars ht rest
  have hout := unescape_chars ht (Nat.le_refl t.length)
  have hdrop : (t ++ 34 :: rest).drop (t.length + 1) = rest := by
    rw [← List.drop_drop, List.drop_left]
    rfl
  rw [List.cons_append, List.append_assoc, List.singleton_append, parseString, if_pos rfl, hend]
  simp only [List.take_left, hout, hdrop, Option.map_some]

/-! ## cJSON on objects of strings -/

section Objects

variable {D : Type u} (number : Numeral → JsonNumber D)

def stringItems : List (List UInt8 × List UInt8) → JsonItems D
  | [] => .nil
  | (n, m) :: ps =>
    .cons (some (.ofBytes (widen n))) (.string (.ofBytes (widen m))) (stringItems ps)

theorem parseValue_str {t s : List UInt8} (h : JsonText.Str t s) (levels : Nat)
    (rest : List UInt8) :
    parseValue number levels (t ++ rest) = some (.string (.ofBytes (widen s)), rest) := by
  have hstring := parseString_str h rest
  obtain ⟨ht⟩ := h
  rename_i t
  have hcases : ∀ value, parseCases number value (34 :: (t ++ [34]) ++ rest) =
      some (.string (.ofBytes (widen s)), rest) := by
    intro value
    rw [List.cons_append] at hstring ⊢
    unfold parseCases
    rw [if_neg (by simp), if_neg (by simp [textFalse, ofBytes]),
      if_neg (by simp [textTrue, ofBytes])]
    simp only [if_true, hstring, Option.map_some]
  cases levels <;> exact hcases _

theorem skipWhitespace_str {t s : List UInt8} (h : JsonText.Str t s) (rest : List UInt8) :
    skipWhitespace (t ++ rest) = t ++ rest := by
  obtain ⟨ht⟩ := h
  exact skipWhitespace_of_lt (by decide) _

theorem parseMembers_step {k v n m : List UInt8} (hk : JsonText.Str k n) (hv : JsonText.Str v m)
    (levels fuel : Nat) {c : UInt8} (hc : 32 < c) (rest : List UInt8) :
    parseMembers (parseValue number levels) (fuel + 1) (k ++ 58 :: (v ++ c :: rest)) =
      if c = 44 then
        (parseMembers (parseValue number levels) fuel rest).map fun x =>
          (.cons (some (.ofBytes (widen n))) (.string (.ofBytes (widen m))) x.1, x.2)
      else if c = 125 then
        some (.cons (some (.ofBytes (widen n))) (.string (.ofBytes (widen m))) .nil, rest)
      else none := by
  have hne : k ++ 58 :: (v ++ c :: rest) ≠ [] := by
    simp
  rw [parseMembers, if_neg hne, skipWhitespace_str hk, parseString_str hk]
  simp only
  rw [skipWhitespace_of_lt (by decide)]
  simp only [if_true]
  rw [skipWhitespace_str hv, parseValue_str number hv]
  simp only
  rw [skipWhitespace_of_lt hc]

theorem parseMembers_members {t : List UInt8} {ps : List (List UInt8 × List UInt8)}
    (h : JsonText.Members t ps) (levels : Nat) {fuel : Nat} (hfuel : ps.length ≤ fuel)
    (rest : List UInt8) :
    parseMembers (parseValue number levels) fuel (t ++ 125 :: rest) =
      some (stringItems ps, rest) := by
  induction h generalizing fuel with
  | one hk hv =>
    obtain ⟨f, rfl⟩ : ∃ f, fuel = f + 1 := ⟨fuel - 1, by simp at hfuel; omega⟩
    rw [List.append_assoc, List.cons_append, parseMembers_step number hk hv levels f (by decide)]
    rfl
  | cons hk hv _ ih =>
    obtain ⟨f, rfl⟩ : ∃ f, fuel = f + 1 := ⟨fuel - 1, by simp at hfuel; omega⟩
    simp only [List.length_cons] at hfuel
    rw [List.append_assoc, List.cons_append, List.append_assoc, List.cons_append,
      parseMembers_step number hk hv levels f (by decide), if_pos rfl, ih (by omega)]
    rfl

/-- Members that another one follows without a comma are refused. -/
theorem parseMembers_no_comma {t : List UInt8} {ps : List (List UInt8 × List UInt8)}
    (h : JsonText.Members t ps) (levels fuel : Nat) (rest : List UInt8) :
    parseMembers (parseValue number levels) fuel (t ++ 34 :: rest) = none := by
  induction h generalizing fuel with
  | one hk hv =>
    cases fuel with
    | zero => rfl
    | succ f =>
      rw [List.append_assoc, List.cons_append, parseMembers_step number hk hv levels f (by decide)]
      rfl
  | cons hk hv _ ih =>
    cases fuel with
    | zero => rfl
    | succ f =>
      rw [List.append_assoc, List.cons_append, List.append_assoc, List.cons_append,
        parseMembers_step number hk hv levels f (by decide), if_pos rfl, ih f]
      rfl

theorem parseWithOpts_brace (contents : CString) (s : List UInt8)
    (h : contents.bytes = 123 :: s) :
    parseWithOpts number contents =
      (parseObject (parseValue number 999) (s ++ [0])).map Prod.fst := by
  have hbom : skipUtf8Bom (123 :: (s ++ [0])) = 123 :: (s ++ [0]) := by
    unfold skipUtf8Bom
    rw [if_neg (by simp [Ini.bom])]
  unfold parseWithOpts
  rw [h, List.cons_append, hbom, skipWhitespace_of_lt (by decide)]
  show (parseCases number (some (parseValue number 999)) (123 :: (s ++ [0]))).map Prod.fst = _
  unfold parseCases
  rw [if_neg (by simp), if_neg (by simp [textFalse, ofBytes]), if_neg (by simp [textTrue, ofBytes])]
  rfl

theorem parseObject_members {t : List UInt8} {ps : List (List UInt8 × List UInt8)}
    (h : JsonText.Members t ps) (value : List UInt8 → Option (Json D × List UInt8))
    (rest : List UInt8) : ∃ fuel, ps.length ≤ fuel ∧
      parseObject value (t ++ rest) =
        (parseMembers value fuel (t ++ rest)).map fun x => (.object x.1, x.2) := by
  obtain ⟨t', rfl, hlen⟩ := h.head
  refine ⟨(t' ++ rest).length + 1, ?_, ?_⟩
  · rw [List.length_append]
    rw [List.length_cons] at hlen
    omega
  · unfold parseObject
    rw [List.cons_append, skipWhitespace_of_lt (by decide)]
    exact if_neg (by decide)

/-- **An object of strings is read** with its codes as characters. -/
theorem parseWithOpts_object {text : List UInt8} {ps : List (List UInt8 × List UInt8)}
    (h : JsonText.Object text ps) (hzero : 0 ∉ text) :
    parseWithOpts number (.ofBytes text) = some (.object (stringItems ps)) := by
  have hbytes := bytes_ofBytes hzero
  cases h with
  | empty => rfl
  | @members t ps ht =>
    obtain ⟨fuel, hfuel, hobject⟩ := parseObject_members ht (parseValue number 999) [125, 0]
    rw [parseWithOpts_brace number _ _ hbytes, List.append_assoc, List.cons_append, List.nil_append,
      hobject, parseMembers_members number ht 999 hfuel]
    rfl

theorem parseWithOpts_no_comma {t r : List UInt8} {ps : List (List UInt8 × List UInt8)}
    (h : JsonText.Members t ps) (hzero : 0 ∉ 123 :: (t ++ 34 :: r)) :
    parseWithOpts number (.ofBytes (123 :: (t ++ 34 :: r))) = none := by
  obtain ⟨fuel, -, hobject⟩ := parseObject_members h (parseValue number 999) (34 :: (r ++ [0]))
  rw [parseWithOpts_brace number _ _ (bytes_ofBytes hzero), List.append_assoc, List.cons_append,
    hobject, parseMembers_no_comma number h]
  rfl

end Objects

end CJson

end VmodCfg.File
