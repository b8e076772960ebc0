import Mathlib.Data.Nat.Basic

/-!
# Decimal text

The decimal digits of an integer, as bytes, and back.
-/

namespace Decimal

def ofChar (c : Char) : UInt8 := c.val.toUInt8

def toChar (b : UInt8) : Char := Char.ofNat b.toNat

def text (z : Int) : List UInt8 :=
  (if z < 0 then [45] else []) ++ (Nat.toDigits 10 z.natAbs).map ofChar

def isDigit (b : UInt8) : Bool := 48 ≤ b && b ≤ 57

def natural (l : List UInt8) : Option Nat :=
  if l ≠ [] ∧ l.all isDigit then some (Nat.ofDigitChars 10 (l.map toChar) 0) else none

def parse : List UInt8 → Option Int
  | 45 :: l => (natural l).map fun n => -(n : Int)
  | l => (natural l).map fun n => (n : Int)

theorem digit_range {c : Char} (h : c.isDigit) : 48 ≤ c.toNat ∧ c.toNat ≤ 57 := by
  simp only [Char.isDigit, Bool.and_eq_true, decide_eq_true_eq, ge_iff_le,
    UInt32.le_iff_toNat_le] at h
  exact h

theorem ofChar_toNat {c : Char} (h : c.isDigit) : (ofChar c).toNat = c.toNat := by
  obtain ⟨-, hle⟩ := digit_range h
  show c.val.toUInt8.toNat = c.toNat
  rw [UInt32.toNat_toUInt8]
  exact Nat.mod_eq_of_lt (show c.toNat < 2 ^ 8 by omega)

theorem isDigit_ofChar {c : Char} (h : c.isDigit) : isDigit (ofChar c) := by
  simp only [isDigit, Bool.and_eq_true, decide_eq_true_eq, UInt8.le_iff_toNat_le, ofChar_toNat h]
  exact digit_range h

theorem toChar_ofChar {c : Char} (h : c.isDigit) : toChar (ofChar c) = c := by
  rw [toChar, ofChar_toNat h, Char.ofNat_toNat]

section Digits

variable (n : Nat)

theorem digits_ne_nil : (Nat.toDigits 10 n).map ofChar ≠ [] := by
  intro h
  exact Nat.toDigits_ne_nil (List.map_eq_nil_iff.mp h)

theorem isDigit_digits : ∀ b ∈ (Nat.toDigits 10 n).map ofChar, isDigit b := by
  intro b hb
  obtain ⟨c, hc, rfl⟩ := List.mem_map.mp hb
  exact isDigit_ofChar (Nat.isDigit_of_mem_toDigits (by decide) (by decide) hc)

theorem natural_digits : natural ((Nat.toDigits 10 n).map ofChar) = some n := by
  have hback : ((Nat.toDigits 10 n).map ofChar).map toChar = Nat.toDigits 10 n := by
    rw [List.map_map]
    refine (List.map_congr_left fun c hc => ?_).trans (List.map_id _)
    exact toChar_ofChar (Nat.isDigit_of_mem_toDigits (by decide) (by decide) hc)
  rw [natural, if_pos, hback, Nat.ofDigitChars_ten_toDigits]
  exact ⟨digits_ne_nil n, List.all_eq_true.mpr (isDigit_digits n)⟩

end Digits

/-- **Round trip.** -/
theorem parse_text (z : Int) : parse (text z) = some z := by
  have hnat := natural_digits z.natAbs
  unfold text
  split
  · show (natural ((Nat.toDigits 10 z.natAbs).map ofChar)).map (fun n => -(n : Int)) = some z
    rw [hnat]
    exact congrArg some (show -(z.natAbs : Int) = z by omega)
  · have hfirst := isDigit_digits z.natAbs
    rw [List.nil_append]
    cases hl : (Nat.toDigits 10 z.natAbs).map ofChar with
    | nil => exact absurd hl (digits_ne_nil _)
    | cons b l =>
      rw [hl] at hnat hfirst
      have hb : b ≠ 45 := by
        rintro rfl
        exact absurd (hfirst 45 List.mem_cons_self) (by decide)
      unfold parse
      split
      · rename_i heq
        exact absurd (List.cons.inj heq).1 hb
      · rw [hnat]
        exact congrArg some (show (z.natAbs : Int) = z by omega)

theorem text_ne_zero (z : Int) : 0 ∉ text z := by
  intro h
  rcases List.mem_append.mp h with h | h
  · split at h <;> simp at h
  · exact absurd (isDigit_digits _ 0 h) (by decide)

end Decimal
