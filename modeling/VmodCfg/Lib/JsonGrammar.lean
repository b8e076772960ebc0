import VmodCfg.Lib.JsonText
import VmodCfg.Lib.NumeralText

/-!
# JSON documents, over bytes

The grammar of JSON texts in UTF-8, with what they denote. A byte from 0x80 on stands for itself,
and an escape for the UTF-8 encoding of its character, so that a string denotes bytes. As the
standard allows, there are limits: on how deep arrays and objects are nested, and on how long a
numeral is.
-/

namespace JsonGrammar

mutual

inductive Value where
  | null
  | bool (b : Bool)
  | number (x : Numeral)
  | string (s : List UInt8)
  | array (items : Items)
  | object (members : Members)

inductive Items where
  | nil
  | cons (item : Value) (next : Items)

inductive Members where
  | nil
  | cons (name : List UInt8) (value : Value) (next : Members)

end

/-! ## Strings -/

/-- Four hexadecimal digits, and the number they stand for. -/
inductive Hex4 : List UInt8 → Nat → Prop
  | mk {a b c d x y z w} (ha : JsonText.hexDigit a = some x) (hb : JsonText.hexDigit b = some y)
      (hc : JsonText.hexDigit c = some z) (hd : JsonText.hexDigit d = some w) :
    Hex4 [a, b, c, d] (((x.toNat * 16 + y.toNat) * 16 + z.toNat) * 16 + w.toNat)

def pairCode (hi lo : Nat) : Nat := 0x10000 + (hi - 0xD800) * 0x400 + (lo - 0xDC00)

def utf8 (n : Nat) : List UInt8 := String.utf8EncodeChar (.ofNat n)

/-- A character of a string, or one byte of it, and the bytes it stands for. -/
inductive Char : List UInt8 → List UInt8 → Prop
  | byte {c} (h : 32 ≤ c) (hquote : c ≠ 34) (hbackslash : c ≠ 92) : Char [c] [c]
  | escape {e c} (h : JsonText.unescape e = some c) : Char [92, e] [c]
  | unicode {t n} (ht : Hex4 t n) (hn : n < 0xD800 ∨ 0xDFFF < n) : Char (92 :: 117 :: t) (utf8 n)
  | pair {t u hi lo} (ht : Hex4 t hi) (hhi : 0xD800 ≤ hi ∧ hi ≤ 0xDBFF) (hu : Hex4 u lo)
      (hlo : 0xDC00 ≤ lo ∧ lo ≤ 0xDFFF) :
    Char (92 :: 117 :: (t ++ 92 :: 117 :: u)) (utf8 (pairCode hi lo))

inductive Chars : List UInt8 → List UInt8 → Prop
  | nil : Chars [] []
  | cons {t c ts cs} (h : Char t c) (hs : Chars ts cs) : Chars (t ++ ts) (c ++ cs)

inductive Str : List UInt8 → List UInt8 → Prop
  | mk {t s} (h : Chars t s) : Str (34 :: (t ++ [34])) s

/-! ## Numbers -/

def Digits (l : List UInt8) : Prop := ∀ c ∈ l, Decimal.isDigit c

instance (l : List UInt8) : Decidable (Digits l) := List.decidableBAll _ l

inductive Integer : List UInt8 → Prop
  | zero : Integer [48]
  | digits {c l} (hc : Decimal.isDigit c) (hzero : c ≠ 48) (h : Digits l) : Integer (c :: l)

inductive Fraction : List UInt8 → List UInt8 → Prop
  | none : Fraction [] []
  | some {l} (hne : l ≠ []) (h : Digits l) : Fraction (46 :: l) l

/-- An optional sign, and whether it is a minus. -/
inductive Sign : List UInt8 → Bool → Prop
  | none : Sign [] false
  | plus : Sign [43] false
  | minus : Sign [45] true

inductive Exponent : List UInt8 → ℤ → Prop
  | none : Exponent [] 0
  | some {e t negative l} (he : e = 101 ∨ e = 69) (ht : Sign t negative) (hne : l ≠ [])
      (h : Digits l) : Exponent (e :: (t ++ l)) (if negative then -(Numeral.ofDigits l : ℤ)
        else Numeral.ofDigits l)

inductive Number : List UInt8 → Numeral → Prop
  | mk (negative : Bool) {i f e fraction exponent} (hi : Integer i) (hf : Fraction f fraction)
      (he : Exponent e exponent) :
    Number ((if negative then [45] else []) ++ (i ++ (f ++ e))) ⟨negative, i, fraction, exponent⟩

/-! ## Values -/

def Space (t : List UInt8) : Prop := ∀ c ∈ t, c = 32 ∨ c = 9 ∨ c = 10 ∨ c = 13

instance (t : List UInt8) : Decidable (Space t) := List.decidableBAll _ t

/-- What a part of a text denotes: a value, a value with white space around it, or one or more of
these, or members. -/
inductive Part where
  | value (v : Value)
  | element (v : Value)
  | elements (items : Items)
  | member (name : List UInt8) (v : Value)
  | members (members : Members)

/-- The grammar: `width` is how long a numeral may be, and the number how deep the nesting. -/
inductive Text (width : Nat) : Nat → List UInt8 → Part → Prop
  | null {d} : Text width d [110, 117, 108, 108] (.value .null)
  | false {d} : Text width d [102, 97, 108, 115, 101] (.value (.bool false))
  | true {d} : Text width d [116, 114, 117, 101] (.value (.bool true))
  | number {d t x} (h : Number t x) (hlen : t.length ≤ width) : Text width d t (.value (.number x))
  | string {d t s} (h : Str t s) : Text width d t (.value (.string s))
  | emptyArray {d w} (hw : Space w) : Text width (d + 1) (91 :: (w ++ [93])) (.value (.array .nil))
  | array {d t items} (h : Text width d t (.elements items)) :
    Text width (d + 1) (91 :: (t ++ [93])) (.value (.array items))
  | emptyObject {d w} (hw : Space w) :
    Text width (d + 1) (123 :: (w ++ [125])) (.value (.object .nil))
  | object {d t members} (h : Text width d t (.members members)) :
    Text width (d + 1) (123 :: (t ++ [125])) (.value (.object members))
  | element {d w t w' v} (hw : Space w) (h : Text width d t (.value v)) (hw' : Space w') :
    Text width d (w ++ (t ++ w')) (.element v)
  | lastElement {d t v} (h : Text width d t (.element v)) :
    Text width d t (.elements (.cons v .nil))
  | elements {d t v t' items} (h : Text width d t (.element v))
      (h' : Text width d t' (.elements items)) :
    Text width d (t ++ 44 :: t') (.elements (.cons v items))
  | member {d w k w' name t v} (hw : Space w) (hk : Str k name) (hw' : Space w')
      (h : Text width d t (.element v)) : Text width d (w ++ (k ++ (w' ++ 58 :: t))) (.member name v)
  | lastMember {d t name v} (h : Text width d t (.member name v)) :
    Text width d t (.members (.cons name v .nil))
  | members {d t name v t' members} (h : Text width d t (.member name v))
      (h' : Text width d t' (.members members)) :
    Text width d (t ++ 44 :: t') (.members (.cons name v members))

/-! ## Reading numbers -/

theorem Integer.digits_ne_nil {i : List UInt8} (h : Integer i) : i ≠ [] ∧ Digits i := by
  cases h with
  | zero => exact ⟨List.cons_ne_nil _ _, by decide⟩
  | digits hc _ h => exact ⟨List.cons_ne_nil _ _, List.forall_mem_cons.mpr ⟨hc, h⟩⟩

theorem scanSign_sign {t l : List UInt8} {negative : Bool} (h : Sign t negative) (hl : Digits l) :
    Numeral.scanSign (t ++ l) = (negative, l) := by
  cases h with
  | none => exact Numeral.scanSign_digit fun c hc => hl c (List.mem_of_mem_head? hc)
  | plus => rfl
  | minus => rfl

theorem scanDigits_all {l : List UInt8} (h : Digits l) :
    l.takeWhile Decimal.isDigit = l ∧ l.dropWhile Decimal.isDigit = [] := by
  have hscan := Numeral.scanDigits (b := []) h (fun c hc => by cases hc)
  rwa [List.append_nil] at hscan

theorem scanExponent_exponent {t : List UInt8} {e : ℤ} (h : Exponent t e) :
    Numeral.scanExponent t = (e, []) := by
  cases h with
  | none => rfl
  | some he ht hne hl =>
    obtain ⟨htake, hdrop⟩ := scanDigits_all hl
    unfold Numeral.scanExponent
    simp only [scanSign_sign ht hl, htake, hdrop, he, hne, ne_eq, not_false_eq_true, and_self,
      if_true]

theorem Exponent.head {t : List UInt8} {e : ℤ} (h : Exponent t e) :
    ∀ c ∈ t.head?, c ≠ 46 ∧ Decimal.isDigit c = false := by
  intro c hc
  cases h with
  | none => cases hc
  | some he _ _ _ =>
    cases hc
    rcases he with rfl | rfl <;> decide

theorem scanFraction_fraction {f fraction t : List UInt8} {e : ℤ} (h : Fraction f fraction)
    (ht : Exponent t e) : Numeral.scanFraction (f ++ t) = (fraction, t) := by
  cases h with
  | none =>
    rw [List.nil_append]
    unfold Numeral.scanFraction
    split
    · exact absurd rfl (ht.head 46 rfl).1
    · rfl
  | some _ h =>
    obtain ⟨htake, hdrop⟩ := Numeral.scanDigits h fun c hc => (ht.head c hc).2
    rw [List.cons_append, Numeral.scanFraction, htake, hdrop]

/-- **A number is scanned** to its end. -/
theorem scan_number {t : List UInt8} {x : Numeral} (h : Number t x) :
    Numeral.scan t = some (x, []) := by
  obtain ⟨negative, hi, hf, he⟩ := h
  rename_i i f e fraction exponent
  obtain ⟨hne, hdigits⟩ := hi.digits_ne_nil
  have hstop : ∀ c ∈ (f ++ e).head?, Decimal.isDigit c = false := by
    cases hf with
    | none => exact fun c hc => (he.head c hc).2
    | some _ _ =>
      rintro c hc
      cases hc
      rfl
  have hsign : Numeral.scanSign ((if negative then [45] else []) ++ (i ++ (f ++ e))) =
      (negative, i ++ (f ++ e)) := by
    cases negative with
    | false =>
      refine Numeral.scanSign_digit fun c hc => ?_
      rw [if_neg Bool.false_ne_true, List.nil_append, List.head?_append_of_ne_nil _ hne] at hc
      exact hdigits c (List.mem_of_mem_head? hc)
    | true => rfl
  obtain ⟨htake, hdrop⟩ := Numeral.scanDigits hdigits hstop
  unfold Numeral.scan
  simp only [hsign, htake, hdrop, scanFraction_fraction hf he, scanExponent_exponent he, hne,
    false_and, if_false]

end JsonGrammar
