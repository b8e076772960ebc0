import Mathlib.Data.List.DropRight
import VmodCfg.Lib.Numeral

/-!
# Numbers as numerals

How a numeral is written, and which numeral is written for a number: `%g` with a precision, and the
shortest one that reads back, as ECMAScript has it. Both round the number to significant digits and
differ in where they put the point.
-/

namespace Numeral

open Binary64

/-! ## Writing -/

def digitsOf (n : Nat) : List UInt8 := (Nat.toDigits 10 n).map Decimal.ofChar

/-- An exponent that is not 0, with at least `width` digits. -/
def exponentText (width : Nat) (e : ℤ) : List UInt8 :=
  if e = 0 then []
  else
    101 :: (if e < 0 then 45 else 43) ::
      (List.replicate (width - (digitsOf e.natAbs).length) 48 ++ digitsOf e.natAbs)

def fractionText (fraction : List UInt8) : List UInt8 :=
  if fraction = [] then [] else 46 :: fraction

def text (width : Nat) (x : Numeral) : List UInt8 :=
  (if x.negative then [45] else []) ++
    (x.digits ++ (fractionText x.fraction ++ exponentText width x.exponent))

/-- There is a digit, and the digits are digits. -/
structure WellFormed (x : Numeral) : Prop where
  digits_ne_nil : x.digits ≠ []
  digits : ∀ c ∈ x.digits, Decimal.isDigit c
  fraction : ∀ c ∈ x.fraction, Decimal.isDigit c

theorem isDigit_digitsOf (n : Nat) : ∀ c ∈ digitsOf n, Decimal.isDigit c := Decimal.isDigit_digits n

theorem isDigit_zeros (k : Nat) : ∀ c ∈ List.replicate k (48 : UInt8), Decimal.isDigit c := by
  intro c hc
  rw [List.eq_of_mem_replicate hc]
  rfl

theorem isDigit_append {a b : List UInt8} (ha : ∀ c ∈ a, Decimal.isDigit c)
    (hb : ∀ c ∈ b, Decimal.isDigit c) : ∀ c ∈ a ++ b, Decimal.isDigit c := by
  intro c hc
  rcases List.mem_append.mp hc with hc | hc
  · exact ha c hc
  · exact hb c hc

/-! ### What digits stand for -/

theorem ofDigits_append (a b : List UInt8) :
    ofDigits (a ++ b) = ofDigits a * 10 ^ b.length + ofDigits b := by
  unfold ofDigits
  rw [List.map_append, Nat.ofDigitChars_append, Nat.ofDigitChars_eq_ofDigitChars_zero,
    List.length_map, Nat.mul_comm]

theorem ofDigits_zeros (k : Nat) : ofDigits (List.replicate k 48) = 0 := by
  have hzero : Decimal.toChar 48 = '0' := by decide
  rw [ofDigits, List.map_replicate, hzero, Nat.ofDigitChars_replicate_zero, Nat.mul_zero]

theorem ofDigits_digitsOf (n : Nat) : ofDigits (digitsOf n) = n := by
  have hnat := Decimal.natural_digits n
  unfold Decimal.natural at hnat
  split at hnat
  · exact Option.some.inj hnat
  · cases hnat

theorem ofDigits_zeros_append (k : Nat) (l : List UInt8) :
    ofDigits (List.replicate k 48 ++ l) = ofDigits l := by
  rw [ofDigits_append, ofDigits_zeros, Nat.zero_mul, Nat.zero_add]

/-! ### Reading back -/

theorem scanDigits {a b : List UInt8} (ha : ∀ c ∈ a, Decimal.isDigit c)
    (hb : ∀ c ∈ b.head?, Decimal.isDigit c = false) :
    (a ++ b).takeWhile Decimal.isDigit = a ∧ (a ++ b).dropWhile Decimal.isDigit = b := by
  have hstop : b.takeWhile Decimal.isDigit = [] ∧ b.dropWhile Decimal.isDigit = b := by
    cases b with
    | nil => exact ⟨rfl, rfl⟩
    | cons c b =>
      have hc := hb c rfl
      simp [hc]
  rw [List.takeWhile_append_of_pos ha, List.dropWhile_append_of_pos ha, hstop.1, hstop.2]
  exact ⟨List.append_nil a, rfl⟩

theorem scanSign_digit {l : List UInt8} (h : ∀ c ∈ l.head?, Decimal.isDigit c) :
    scanSign l = (false, l) := by
  unfold scanSign
  split
  · exact absurd (h 45 rfl) (by decide)
  · exact absurd (h 43 rfl) (by decide)
  · rfl

theorem head_exponentText (width : Nat) (e : ℤ) :
    ∀ c ∈ (exponentText width e).head?, c = 101 := by
  intro c hc
  unfold exponentText at hc
  split at hc
  · cases hc
  · exact (Option.some.inj hc).symm

theorem scanExponent_text (width : Nat) (e : ℤ) : scanExponent (exponentText width e) = (e, []) := by
  unfold exponentText
  split
  · rename_i hzero
    rw [hzero]
    rfl
  · rename_i hne
    let ds := List.replicate (width - (digitsOf e.natAbs).length) 48 ++ digitsOf e.natAbs
    have hdigits : ∀ c ∈ ds, Decimal.isDigit c :=
      isDigit_append (isDigit_zeros _) (isDigit_digitsOf _)
    have hsign : scanSign ((if e < 0 then 45 else 43) :: ds) = (decide (e < 0), ds) := by
      by_cases hneg : e < 0
      · simp [hneg, scanSign]
      · simp [hneg, scanSign]
    have hscan := scanDigits (b := []) hdigits (fun c hc => by cases hc)
    rw [List.append_nil] at hscan
    have hnil : ds ≠ [] := by
      intro hds
      exact Decimal.digits_ne_nil _ (List.append_eq_nil_iff.mp hds).2
    have hvalue : ofDigits ds = e.natAbs := by
      rw [ofDigits_zeros_append, ofDigits_digitsOf]
    show scanExponent (101 :: (if e < 0 then 45 else 43) :: ds) = (e, [])
    unfold scanExponent
    simp only [hsign, hscan.1, hscan.2, hnil, hvalue, true_or, ne_eq, not_false_eq_true, and_self,
      if_true, decide_eq_true_eq, Prod.mk.injEq, and_true]
    split <;> omega

theorem scanFraction_text {fraction : List UInt8} (h : ∀ c ∈ fraction, Decimal.isDigit c)
    (width : Nat) (e : ℤ) :
    scanFraction (fractionText fraction ++ exponentText width e) =
      (fraction, exponentText width e) := by
  unfold fractionText
  split
  · rename_i hnil
    rw [hnil, List.nil_append]
    unfold scanFraction
    split
    · rename_i l heq
      have hdot := head_exponentText width e 46 (by rw [heq]; rfl)
      exact absurd hdot (by decide)
    · rfl
  · have hstop : ∀ c ∈ (exponentText width e).head?, Decimal.isDigit c = false := by
      intro c hc
      rw [head_exponentText width e c hc]
      rfl
    obtain ⟨htake, hdrop⟩ := scanDigits h hstop
    rw [List.cons_append, scanFraction, htake, hdrop]

/-- **What is written is read back**, with nothing left over. -/
theorem scan_text {x : Numeral} (h : x.WellFormed) (width : Nat) :
    scan (x.text width) = some (x, []) := by
  let rest := fractionText x.fraction ++ exponentText width x.exponent
  have hstop : ∀ c ∈ rest.head?, Decimal.isDigit c = false := by
    intro c hc
    by_cases hnil : x.fraction = []
    · have hexp : c ∈ (exponentText width x.exponent).head? := by
        simpa [rest, fractionText, hnil] using hc
      rw [head_exponentText _ _ c hexp]
      rfl
    · have hdot : c = 46 := by simpa [rest, fractionText, hnil, eq_comm] using hc
      rw [hdot]
      rfl
  have hhead : ∀ c ∈ (x.digits ++ rest).head?, Decimal.isDigit c := by
    intro c hc
    obtain ⟨d, ds, hds⟩ := List.exists_cons_of_ne_nil h.digits_ne_nil
    rw [hds] at hc
    obtain rfl : d = c := Option.some.inj hc
    exact h.digits d (by rw [hds]; exact List.mem_cons_self)
  have hsign : scanSign (x.text width) = (x.negative, x.digits ++ rest) := by
    unfold text
    cases hneg : x.negative with
    | false => exact scanSign_digit hhead
    | true => rfl
  obtain ⟨htake, hdrop⟩ := scanDigits h.digits hstop
  unfold scan
  simp only [hsign, htake, hdrop, rest, scanFraction_text h.fraction, scanExponent_text,
    h.digits_ne_nil, false_and, if_false]

theorem text_range {x : Numeral} (h : x.WellFormed) (width : Nat) :
    ∀ c ∈ x.text width, 43 ≤ c ∧ c ≤ 101 := by
  have hdigits : ∀ {l : List UInt8}, (∀ c ∈ l, Decimal.isDigit c) →
      ∀ c ∈ l, 43 ≤ c ∧ c ≤ 101 := by
    intro l hl c hc
    have hdigit := hl c hc
    simp only [Decimal.isDigit, Bool.and_eq_true, decide_eq_true_eq, UInt8.le_iff_toNat_le]
      at hdigit
    obtain ⟨hlo, hhi⟩ := hdigit
    rw [UInt8.le_iff_toNat_le, UInt8.le_iff_toNat_le]
    change 48 ≤ c.toNat at hlo
    change c.toNat ≤ 57 at hhi
    exact ⟨show 43 ≤ c.toNat by omega, show c.toNat ≤ 101 by omega⟩
  intro c hc
  unfold text at hc
  rcases List.mem_append.mp hc with hc | hc
  · split at hc
    · obtain rfl := List.mem_singleton.mp hc
      decide
    · cases hc
  rcases List.mem_append.mp hc with hc | hc
  · exact hdigits h.digits c hc
  rcases List.mem_append.mp hc with hc | hc
  · unfold fractionText at hc
    split at hc
    · cases hc
    · rcases List.mem_cons.mp hc with rfl | hc
      · decide
      · exact hdigits h.fraction c hc
  · unfold exponentText at hc
    split at hc
    · cases hc
    · rcases List.mem_cons.mp hc with rfl | hc
      · decide
      rcases List.mem_cons.mp hc with rfl | hc
      · split <;> decide
      · exact hdigits (isDigit_append (isDigit_zeros _) (isDigit_digitsOf _)) c hc

/-! ## Significant digits -/

/-- A number that is not 0 to `p` significant digits: the digits, as a number, and the exponent of
the first one. -/
def significant (p : Nat) (q : ℚ) : Nat × ℤ :=
  let x := Int.log 10 |q|
  let m := (roundHalfEven (|q| / 10 ^ (x - (p - 1)))).toNat
  if m = 10 ^ p then (10 ^ (p - 1), x + 1) else (m, x)

def rounded (p : Nat) (q : ℚ) : ℚ :=
  (if q < 0 then -1 else 1) * (significant p q).1 * 10 ^ ((significant p q).2 - (p - 1))

def stripZeros (l : List UInt8) : List UInt8 := l.rdropWhile (· == 48)

def general (p : Nat) (q : ℚ) : Numeral :=
  if q = 0 then ⟨false, [48], [], 0⟩
  else
    let (m, x) := significant p q
    let ds := digitsOf m
    if x < -4 ∨ (p : ℤ) ≤ x then ⟨decide (q < 0), ds.take 1, stripZeros (ds.drop 1), x⟩
    else if x < 0 then
      ⟨decide (q < 0), [48], stripZeros (List.replicate (-x - 1).toNat 48 ++ ds), 0⟩
    else ⟨decide (q < 0), ds.take (x + 1).toNat, stripZeros (ds.drop (x + 1).toNat), 0⟩

/-- The least number of significant digits with which the nearest double is `q`. -/
def shortest (q : ℚ) : Nat :=
  ((List.range' 1 17).find? fun p => nearest (rounded p q) = q).getD 17

/-- The numeral of ECMAScript: the point is in the digits, or next to them among zeros, or there is
an exponent. -/
def ecma (q : ℚ) : Numeral :=
  if q = 0 then ⟨false, [48], [], 0⟩
  else
    let k := shortest q
    let (m, x) := significant k q
    let ds := digitsOf m
    if (k : ℤ) ≤ x + 1 ∧ x + 1 ≤ 21 then
      ⟨decide (q < 0), ds ++ List.replicate (x + 1 - k).toNat 48, [], 0⟩
    else if 0 < x + 1 ∧ x + 1 ≤ 21 then
      ⟨decide (q < 0), ds.take (x + 1).toNat, ds.drop (x + 1).toNat, 0⟩
    else if -6 < x + 1 ∧ x + 1 ≤ 0 then
      ⟨decide (q < 0), [48], List.replicate (-(x + 1)).toNat 48 ++ ds, 0⟩
    else ⟨decide (q < 0), ds.take 1, ds.drop 1, x⟩

section Significant

variable {p : Nat} {q : ℚ}

theorem significant_bounds (hp : 0 < p) (hq : q ≠ 0) :
    10 ^ (p - 1) ≤ (significant p q).1 ∧ (significant p q).1 < 10 ^ p := by
  have hpos : 0 < |q| := abs_pos.mpr hq
  have hten : (0 : ℚ) < 10 ^ (Int.log 10 |q| - (p - 1)) := zpow_pos (by norm_num) _
  have hlo : (10 : ℚ) ^ Int.log 10 |q| ≤ |q| := Int.zpow_log_le_self (by decide) hpos
  have hhi : |q| < (10 : ℚ) ^ (Int.log 10 |q| + 1) := Int.lt_zpow_succ_log_self (by decide) _
  let t := |q| / 10 ^ (Int.log 10 |q| - (p - 1))
  have hfloor : (10 : ℤ) ^ (p - 1) ≤ ⌊t⌋ := by
    rw [Int.le_floor, le_div_iff₀ hten]
    refine le_trans (le_of_eq ?_) hlo
    push_cast
    rw [← zpow_natCast, ← zpow_add₀ (by norm_num)]
    congr 1
    omega
  have hceil : ⌊t⌋ < (10 : ℤ) ^ p := by
    rw [Int.floor_lt, div_lt_iff₀ hten]
    refine lt_of_lt_of_eq hhi ?_
    push_cast
    rw [← zpow_natCast, ← zpow_add₀ (by norm_num)]
    congr 1
    omega
  have hround := roundHalfEven_bounds t
  have hpow : (10 : ℤ) ^ p = ((10 ^ p : Nat) : ℤ) := by push_cast; rfl
  have hpow' : (10 : ℤ) ^ (p - 1) = ((10 ^ (p - 1) : Nat) : ℤ) := by push_cast; rfl
  have hlt : 10 ^ (p - 1) < 10 ^ p := Nat.pow_lt_pow_right (by decide) (by omega)
  unfold significant
  simp only
  split
  · exact ⟨le_rfl, hlt⟩
  · rename_i hne
    rw [hpow] at hceil
    rw [hpow'] at hfloor
    change (roundHalfEven t).toNat ≠ 10 ^ p at hne
    change 10 ^ (p - 1) ≤ (roundHalfEven t).toNat ∧ (roundHalfEven t).toNat < 10 ^ p
    have hten' : 0 < 10 ^ p := Nat.pow_pos (by decide)
    constructor <;> omega

theorem length_digitsOf {m : Nat} (hp : 0 < p) (hlo : 10 ^ (p - 1) ≤ m) (hhi : m < 10 ^ p) :
    (digitsOf m).length = p := by
  rw [digitsOf, List.length_map]
  have hle := (Nat.length_toDigits_le_iff (by decide) hp).mpr hhi
  by_cases hone : p = 1
  · have := Nat.length_toDigits_pos (b := 10) (n := m)
    omega
  · have hge : ¬ (Nat.toDigits 10 m).length ≤ p - 1 := by
      rw [Nat.length_toDigits_le_iff (by decide) (by omega)]
      omega
    omega

end Significant

def lastPlace (p : Nat) (q : ℚ) : ℤ := Int.log 10 |q| - (p - 1)

/-- A carry into one more digit does not matter. -/
theorem rounded_eq_roundHalfEven {p : Nat} (hp : 0 < p) {q : ℚ} (hq : q ≠ 0) :
    rounded p q = (if q < 0 then -1 else 1) * roundHalfEven (|q| / 10 ^ lastPlace p q) *
      10 ^ lastPlace p q := by
  have hbounds := significant_bounds hp hq
  have hsignificant : significant p q =
      if (roundHalfEven (|q| / 10 ^ lastPlace p q)).toNat = 10 ^ p then
        (10 ^ (p - 1), Int.log 10 |q| + 1)
      else ((roundHalfEven (|q| / 10 ^ lastPlace p q)).toNat, Int.log 10 |q|) := rfl
  have hlog : Int.log 10 |q| = lastPlace p q + (p - 1) := by
    unfold lastPlace
    ring
  unfold rounded
  by_cases hcarry : (roundHalfEven (|q| / 10 ^ lastPlace p q)).toNat = 10 ^ p
  · rw [if_pos hcarry] at hsignificant
    have hpos : 0 < 10 ^ p := Nat.pow_pos (by decide)
    have hround : roundHalfEven (|q| / 10 ^ lastPlace p q) = ((10 ^ p : Nat) : ℤ) := by omega
    have hexp : lastPlace p q + (p - 1) + 1 - (p - 1) = lastPlace p q + 1 := by ring
    rw [hsignificant, hround, hlog]
    simp only [hexp]
    rw [zpow_add₀ (by norm_num)]
    obtain ⟨k, rfl⟩ : ∃ k, p = k + 1 := ⟨p - 1, by omega⟩
    push_cast
    rw [pow_succ]
    ring
  · rw [if_neg hcarry] at hsignificant
    rw [hsignificant] at hbounds
    have hpos : 0 < 10 ^ (p - 1) := Nat.pow_pos (by decide)
    have hcast : ((roundHalfEven (|q| / 10 ^ lastPlace p q)).toNat : ℤ) =
        roundHalfEven (|q| / 10 ^ lastPlace p q) := by
      have := hbounds.1
      omega
    rw [hsignificant]
    simp only
    rw [← Int.cast_natCast, hcast]
    rfl

theorem rounded_eq_self_iff {p : Nat} (hp : 0 < p) {q : ℚ} (hq : q ≠ 0) :
    rounded p q = q ↔ ∃ k : ℤ, q = k * 10 ^ lastPlace p q := by
  have hten : (10 : ℚ) ^ lastPlace p q ≠ 0 := zpow_ne_zero _ (by norm_num)
  have hsign : q = (if q < 0 then -1 else 1) * |q| := by
    split
    · rename_i hneg
      rw [abs_of_neg hneg]
      ring
    · rename_i hneg
      rw [abs_of_nonneg (not_lt.mp hneg)]
      ring
  rw [rounded_eq_roundHalfEven hp hq]
  constructor
  · intro h
    refine ⟨(if q < 0 then -1 else 1) * roundHalfEven (|q| / 10 ^ lastPlace p q), ?_⟩
    push_cast
    exact h.symm
  · rintro ⟨k, hk⟩
    have habs : |q| / 10 ^ lastPlace p q = ((if q < 0 then -1 else 1) * k : ℤ) := by
      rw [div_eq_iff hten]
      push_cast
      split
      · rename_i hneg
        rw [abs_of_neg hneg]
        linarith
      · rename_i hneg
        rw [abs_of_nonneg (not_lt.mp hneg)]
        linarith
    rw [habs, roundHalfEven_intCast, ← habs]
    field_simp
    exact hsign.symm

/-! ### Integers -/

theorem lastPlace_intCast (p : Nat) (n : ℤ) :
    lastPlace p n = Nat.log 10 n.natAbs - (p - 1) := by
  have habs : |(n : ℚ)| = (n.natAbs : ℚ) := by
    rw [Nat.cast_natAbs, Int.cast_abs]
  rw [lastPlace, habs, Int.log_natCast]

theorem rounded_intCast_of_lt {p : Nat} (hp : 0 < p) {n : ℤ} (hn : n ≠ 0)
    (h : n.natAbs < 10 ^ p) : rounded p n = n := by
  have hlog := Nat.log_lt_of_lt_pow (Int.natAbs_ne_zero.mpr hn) h
  obtain ⟨j, hj⟩ : ∃ j : Nat, lastPlace p n = -(j : ℤ) := by
    refine ⟨(-lastPlace p n).toNat, ?_⟩
    have := lastPlace_intCast p n
    omega
  rw [rounded_eq_self_iff hp (Int.cast_ne_zero.mpr hn), hj]
  refine ⟨n * 10 ^ j, ?_⟩
  have hten : (10 : ℚ) ^ j ≠ 0 := pow_ne_zero _ (by norm_num)
  rw [zpow_neg, zpow_natCast]
  push_cast
  field_simp

/-- An integer with `u` more digits keeps them exactly if they are zeros. -/
theorem rounded_intCast_iff {p u : Nat} (hp : 0 < p) {n : ℤ} (hlo : 10 ^ (p - 1 + u) ≤ n.natAbs)
    (hhi : n.natAbs < 10 ^ (p + u)) :
    lastPlace p n = u ∧ (rounded p n = n ↔ (10 : ℤ) ^ u ∣ n) := by
  have hn : n ≠ 0 := by
    rintro rfl
    exact absurd hlo (Nat.not_le.mpr (Nat.pow_pos (by decide)))
  have hlog : Nat.log 10 n.natAbs = p - 1 + u :=
    Nat.log_eq_of_pow_le_of_lt_pow hlo (by rwa [show p - 1 + u + 1 = p + u by omega])
  have hplace : lastPlace p n = u := by
    rw [lastPlace_intCast, hlog]
    omega
  refine ⟨hplace, ?_⟩
  rw [rounded_eq_self_iff hp (Int.cast_ne_zero.mpr hn), hplace, zpow_natCast]
  constructor
  · rintro ⟨k, hk⟩
    refine ⟨k, ?_⟩
    rw [mul_comm]
    exact_mod_cast hk
  · rintro ⟨k, hk⟩
    refine ⟨k, ?_⟩
    rw [mul_comm]
    exact_mod_cast hk

theorem abs_roundHalfEven_sub_le (q : ℚ) : |roundHalfEven q - q| ≤ 1 / 2 := by
  have hfloor := Int.floor_le q
  have hceil := Int.lt_floor_add_one q
  unfold roundHalfEven
  split
  · rename_i hlt
    rw [abs_le]
    constructor <;> linarith
  · rename_i hge
    split
    · rename_i hgt
      rw [abs_le]
      push_cast
      constructor <;> linarith
    · rename_i hle
      split
      · rw [abs_le]
        constructor <;> linarith
      · rw [abs_le]
        push_cast
        constructor <;> linarith

/-- The rounded integer is a multiple of the last place, and half of it away at most. -/
theorem rounded_intCast_near {p u : Nat} (hp : 0 < p) {n : ℤ} (hn : n ≠ 0)
    (hplace : lastPlace p n = u) :
    ∃ k : ℤ, rounded p n = ((k * 10 ^ u : ℤ) : ℚ) ∧ 2 * |k * 10 ^ u - n| ≤ 10 ^ u := by
  have hq : (n : ℚ) ≠ 0 := Int.cast_ne_zero.mpr hn
  have hten : (0 : ℚ) < 10 ^ u := pow_pos (by norm_num) u
  let t : ℚ := |(n : ℚ)| / 10 ^ u
  have hrounded := rounded_eq_roundHalfEven hp hq
  rw [hplace, zpow_natCast] at hrounded
  have hhalf : |(roundHalfEven t : ℚ) * 10 ^ u - abs (n : ℚ)| ≤ 1 / 2 * 10 ^ u := by
    have habs : (roundHalfEven t : ℚ) * 10 ^ u - abs (n : ℚ) = (roundHalfEven t - t) * 10 ^ u := by
      rw [sub_mul, div_mul_cancel₀ _ hten.ne']
    rw [habs, abs_mul, abs_of_pos hten]
    exact mul_le_mul_of_nonneg_right (abs_roundHalfEven_sub_le t) hten.le
  have hint : 2 * |roundHalfEven t * 10 ^ u - abs n| ≤ 10 ^ u := by
    have hcast : ((2 * |roundHalfEven t * 10 ^ u - abs n| : ℤ) : ℚ) ≤ ((10 ^ u : ℤ) : ℚ) := by
      push_cast
      linarith
    exact_mod_cast hcast
  by_cases hneg : n < 0
  · refine ⟨-roundHalfEven t, ?_, ?_⟩
    · rw [hrounded, if_pos (Int.cast_lt_zero.mpr hneg)]
      push_cast
      ring
    · rw [abs_of_neg hneg] at hint
      have hflip : -roundHalfEven t * 10 ^ u - n = -(roundHalfEven t * 10 ^ u - -n) := by ring
      rw [hflip, abs_neg]
      exact hint
  · refine ⟨roundHalfEven t, ?_, ?_⟩
    · rw [hrounded, if_neg (by simpa using not_lt.mp hneg)]
      push_cast
      ring
    · rw [abs_of_nonneg (not_lt.mp hneg)] at hint
      exact hint

/-! ### The numerals denote what they should -/

theorem value_stripZeros (negative : Bool) (a b : List UInt8) (e : ℤ) :
    value ⟨negative, a, stripZeros b, e⟩ = value ⟨negative, a, b, e⟩ := by
  have hzeros : ∀ c ∈ b.rtakeWhile (· == 48), c = 48 := fun c hc => by
    simpa using List.mem_rtakeWhile_imp hc
  obtain ⟨k, hk⟩ : ∃ k, b = stripZeros b ++ List.replicate k 48 := by
    refine ⟨(b.rtakeWhile (· == 48)).length, ?_⟩
    rw [← List.eq_replicate_of_mem hzeros]
    exact (List.rdropWhile_append_rtakeWhile ..).symm
  have hdigits : ofDigits (a ++ b) = ofDigits (a ++ stripZeros b) * 10 ^ k := by
    have hsplit : a ++ b = (a ++ stripZeros b) ++ List.replicate k 48 := by
      rw [List.append_assoc, ← hk]
    rw [hsplit, ofDigits_append, ofDigits_zeros, List.length_replicate, Nat.add_zero]
  have hlength : (b.length : ℤ) = (stripZeros b).length + k := by
    have hlength := congrArg List.length hk
    rw [List.length_append, List.length_replicate] at hlength
    exact_mod_cast hlength
  unfold value
  simp only
  rw [hdigits, hlength, sub_add_eq_sub_sub, zpow_sub₀ (by norm_num) _ (k : ℤ)]
  push_cast
  field_simp
  rw [zpow_natCast]

theorem value_split (negative : Bool) (ds : List UInt8) {j : Nat} (hj : j ≤ ds.length) (e : ℤ) :
    value ⟨negative, ds.take j, ds.drop j, e⟩ =
      (if negative then -1 else 1) * ofDigits ds * 10 ^ (e + j - ds.length) := by
  unfold value
  simp only [List.take_append_drop, List.length_drop]
  congr 2
  omega

theorem value_leading (negative : Bool) (k : Nat) (ds : List UInt8) :
    value ⟨negative, [48], List.replicate k 48 ++ ds, 0⟩ =
      (if negative then -1 else 1) * ofDigits ds * 10 ^ (-(k : ℤ) - ds.length) := by
  have hdigits : ofDigits ([48] ++ (List.replicate k 48 ++ ds)) = ofDigits ds := by
    have hzeros : ([48] : List UInt8) = List.replicate 1 48 := rfl
    rw [hzeros, ofDigits_zeros_append, ofDigits_zeros_append]
  unfold value
  simp only [hdigits, List.length_append, List.length_replicate]
  congr 2
  push_cast
  omega

theorem value_trailing (negative : Bool) (ds : List UInt8) (k : Nat) :
    value ⟨negative, ds ++ List.replicate k 48, [], 0⟩ =
      (if negative then -1 else 1) * ofDigits ds * 10 ^ (k : ℤ) := by
  unfold value
  simp only [List.append_nil, ofDigits_append, ofDigits_zeros, List.length_replicate, Nat.add_zero,
    List.length_nil]
  push_cast
  rw [zpow_natCast]
  ring

theorem value_zero : value ⟨false, [48], [], 0⟩ = 0 := by
  have hzero : ofDigits [48] = 0 := ofDigits_zeros 1
  simp [value, hzero]

theorem rounded_eq (p : Nat) (q : ℚ) : rounded p q = (if decide (q < 0) = true then -1 else 1) *
    ofDigits (digitsOf (significant p q).1) * 10 ^ ((significant p q).2 - (p - 1)) := by
  rw [rounded, ofDigits_digitsOf]
  simp only [decide_eq_true_eq]

/-- `%.*g` writes the number to `p` significant digits. -/
theorem value_general {p : Nat} (hp : 0 < p) {q : ℚ} (hq : q ≠ 0) :
    value (general p q) = rounded p q := by
  obtain ⟨hlo, hhi⟩ := significant_bounds hp hq
  have hlength := length_digitsOf hp hlo hhi
  unfold general
  rw [if_neg hq, rounded_eq]
  simp only
  split
  · rw [value_stripZeros, value_split _ _ (by omega), hlength]
    congr 2
    push_cast
    omega
  · split
    · rw [value_stripZeros, value_leading, hlength]
      congr 2
      omega
    · rw [value_stripZeros, value_split _ _ (by omega), hlength]
      congr 2
      omega

theorem take_digitsOf_ne_nil (n : Nat) {j : Nat} (hj : 0 < j) : (digitsOf n).take j ≠ [] := by
  intro hnil
  rcases List.take_eq_nil_iff.mp hnil with h | h
  · omega
  · exact Decimal.digits_ne_nil n h

theorem isDigit_take (n j : Nat) : ∀ c ∈ (digitsOf n).take j, Decimal.isDigit c := fun c hc =>
  isDigit_digitsOf n c (List.mem_of_mem_take hc)

theorem isDigit_drop (n j : Nat) : ∀ c ∈ (digitsOf n).drop j, Decimal.isDigit c := fun c hc =>
  isDigit_digitsOf n c (List.mem_of_mem_drop hc)

theorem wellFormed_general (p : Nat) (q : ℚ) : (general p q).WellFormed := by
  have hstrip : ∀ {l : List UInt8}, (∀ c ∈ l, Decimal.isDigit c) →
      ∀ c ∈ stripZeros l, Decimal.isDigit c := fun {l} h c hc =>
    h c ((List.rdropWhile_prefix _ l).subset hc)
  have hzero : ∀ c ∈ ([48] : List UInt8), Decimal.isDigit c := isDigit_zeros 1
  unfold general
  split
  · exact ⟨List.cons_ne_nil _ _, hzero, fun c hc => absurd hc List.not_mem_nil⟩
  · simp only
    split
    · exact ⟨take_digitsOf_ne_nil _ (by omega), isDigit_take _ _, hstrip (isDigit_drop _ _)⟩
    · split
      · exact ⟨List.cons_ne_nil _ _, hzero,
          hstrip (isDigit_append (isDigit_zeros _) (isDigit_digitsOf _))⟩
      · exact ⟨take_digitsOf_ne_nil _ (by omega), isDigit_take _ _, hstrip (isDigit_drop _ _)⟩

theorem shortest_pos (q : ℚ) : 0 < shortest q := by
  unfold shortest
  cases hfind : (List.range' 1 17).find? fun p => nearest (rounded p q) = q with
  | none => decide
  | some p =>
    have hmem := List.mem_of_find?_eq_some hfind
    rw [List.mem_range'_1] at hmem
    exact hmem.1

/-- If some number of digits up to 17 reads back, the least one does. -/
theorem nearest_rounded_shortest {q : ℚ} {p : Nat} (hp : 0 < p) (hle : p ≤ 17)
    (h : nearest (rounded p q) = q) : nearest (rounded (shortest q) q) = q := by
  unfold shortest
  cases hfind : (List.range' 1 17).find? fun p => nearest (rounded p q) = q with
  | none =>
    have hnone := List.find?_eq_none.mp hfind p (List.mem_range'_1.mpr ⟨hp, by omega⟩)
    exact absurd (by simpa using h) hnone
  | some k => simpa using List.find?_some hfind

/-- ECMAScript writes the number to the least number of digits that reads back. -/
theorem value_ecma {q : ℚ} (hq : q ≠ 0) : value (ecma q) = rounded (shortest q) q := by
  have hp := shortest_pos q
  obtain ⟨hlo, hhi⟩ := significant_bounds hp hq
  have hlength := length_digitsOf hp hlo hhi
  unfold ecma
  rw [if_neg hq, rounded_eq]
  simp only
  split
  · rw [value_trailing]
    congr 2
    omega
  · split
    · rw [value_split _ _ (by omega), hlength]
      congr 2
      omega
    · split
      · rw [value_leading, hlength]
        congr 2
        omega
      · rw [value_split _ _ (by omega), hlength]
        congr 2
        push_cast
        omega

theorem wellFormed_ecma (q : ℚ) : (ecma q).WellFormed := by
  have hzero : ∀ c ∈ ([48] : List UInt8), Decimal.isDigit c := isDigit_zeros 1
  have hnone : ∀ c ∈ ([] : List UInt8), Decimal.isDigit c := fun c hc =>
    absurd hc List.not_mem_nil
  unfold ecma
  split
  · exact ⟨List.cons_ne_nil _ _, hzero, hnone⟩
  · have hpos := shortest_pos q
    have hdigits := isDigit_digitsOf (significant (shortest q) q).1
    simp only
    split
    · refine ⟨fun hnil => ?_, isDigit_append hdigits (isDigit_zeros _), hnone⟩
      exact Decimal.digits_ne_nil _ (List.append_eq_nil_iff.mp hnil).1
    · split
      · exact ⟨take_digitsOf_ne_nil _ (by omega), isDigit_take _ _, isDigit_drop _ _⟩
      · split
        · exact ⟨List.cons_ne_nil _ _, hzero, isDigit_append (isDigit_zeros _) hdigits⟩
        · exact ⟨take_digitsOf_ne_nil _ (by omega), isDigit_take _ _, isDigit_drop _ _⟩

end Numeral
