import VmodCfg.Lib.CString
import VmodCfg.Lib.Decimal

/-!
# Formats

A format as its literal bytes and its directives, and what it prints with given
arguments. The directives here are `%%`, `%s` and `%d`, without flags; for every
other one, and for one that lacks its argument, no output is defined.
-/

namespace Printf

inductive Arg where
  | str (s : CString)
  | int (n : Int)

/-- `conversion` is the byte after the `%`, if there is one. -/
inductive Piece where
  | literal (c : UInt8)
  | directive (conversion : Option UInt8)
  deriving DecidableEq, Repr

def pieces : List UInt8 → List Piece
  | [] => []
  | [37] => [.directive none]
  | 37 :: c :: fmt => .directive (some c) :: pieces fmt
  | c :: fmt => .literal c :: pieces fmt

/-- The output of the pieces; arguments that are left over are ignored. -/
def output : List Piece → List Arg → Option (List UInt8)
  | [], _ => some []
  | .literal c :: ps, args => (output ps args).map (c :: ·)
  | .directive (some 37) :: ps, args => (output ps args).map (37 :: ·)
  | .directive (some 115) :: ps, .str s :: args => (output ps args).map (s.bytes ++ ·)
  | .directive (some 100) :: ps, .int n :: args => (output ps args).map (Decimal.text n ++ ·)
  | .directive _ :: _, _ => none

def format (fmt : List UInt8) (args : List Arg) : Option (List UInt8) := output (pieces fmt) args

def directives (fmt : List UInt8) : List Piece :=
  (pieces fmt).filter fun
    | .literal _ => false
    | .directive _ => true

theorem pieces_cons {c : UInt8} (h : c ≠ 37) (fmt : List UInt8) :
    pieces (c :: fmt) = .literal c :: pieces fmt := by
  rw [pieces]
  · exact fun hc _ => h hc
  · exact fun _ _ hc _ => h hc

theorem output_directive {c : UInt8} (h : c ≠ 37) (ps : List Piece) :
    output (.directive (some c) :: ps) [] = none := by
  rw [output]
  · exact fun hc => h (Option.some.inj hc)
  · intro s args hargs
    cases hargs
  · intro n args hargs
    cases hargs

theorem format_append {l : List UInt8} (h : 37 ∉ l) (fmt : List UInt8) (args : List Arg) :
    format (l ++ fmt) args = (format fmt args).map (l ++ ·) := by
  induction l with
  | nil => simp
  | cons c l ih =>
    obtain ⟨hc, hl⟩ := not_or.mp (mt List.mem_cons.mpr h)
    rw [List.cons_append, format, pieces_cons (Ne.symm hc), output, ← format, ih hl, Option.map_map]
    rfl

theorem format_str (s : CString) (fmt : List UInt8) (args : List Arg) :
    format (37 :: 115 :: fmt) (.str s :: args) = (format fmt args).map (s.bytes ++ ·) := rfl

theorem format_int (n : Int) (fmt : List UInt8) (args : List Arg) :
    format (37 :: 100 :: fmt) (.int n :: args) = (format fmt args).map (Decimal.text n ++ ·) := rfl

theorem format_nil (args : List Arg) : format [] args = some [] := rfl

theorem directives_eq_nil_iff (fmt : List UInt8) : directives fmt = [] ↔ 37 ∉ fmt := by
  unfold directives
  induction fmt using pieces.induct with
  | case1 => simp [pieces]
  | case2 => simp [pieces]
  | case3 c fmt ih => simp [pieces]
  | case4 c fmt h1 h2 ih =>
    have hc : c ≠ 37 := by
      rintro rfl
      cases fmt with
      | nil => exact h1 rfl rfl
      | cons d fmt => exact h2 d fmt rfl rfl
    simp [pieces_cons hc, ih, hc.symm]

/-- Without arguments the output has at most the length of the format, and it is shorter if there
is a `%`. -/
theorem length_of_format {fmt out : List UInt8} (h : format fmt [] = some out) :
    out.length ≤ fmt.length ∧ (37 ∈ fmt → out.length < fmt.length) := by
  unfold format at h
  induction fmt using pieces.induct generalizing out with
  | case1 =>
    cases h
    exact ⟨le_rfl, fun hmem => absurd hmem List.not_mem_nil⟩
  | case2 => cases h
  | case3 c fmt ih =>
    rw [pieces] at h
    by_cases hc : c = 37
    · subst hc
      obtain ⟨out', hout, rfl⟩ := Option.map_eq_some_iff.mp h
      have hle := (ih hout).1
      simp only [List.length_cons]
      omega
    · rw [output_directive hc] at h
      cases h
  | case4 c fmt h1 h2 ih =>
    have hc : c ≠ 37 := by
      rintro rfl
      cases fmt with
      | nil => exact h1 rfl rfl
      | cons d fmt => exact h2 d fmt rfl rfl
    rw [pieces_cons hc] at h
    obtain ⟨out', hout, rfl⟩ := Option.map_eq_some_iff.mp h
    obtain ⟨hle, hlt⟩ := ih hout
    simp only [List.length_cons, List.mem_cons, hc.symm, false_or]
    exact ⟨by omega, fun hmem => by have := hlt hmem; omega⟩

/-- A text that is used as a format is printed as it is exactly if there is no `%` in it. -/
theorem format_self_iff (l : List UInt8) : format l [] = some l ↔ 37 ∉ l := by
  constructor
  · intro h hmem
    exact absurd ((length_of_format h).2 hmem) (lt_irrefl _)
  · intro h
    have hself := format_append h [] []
    rwa [List.append_nil, format_nil, Option.map_some, List.append_nil] at hself

end Printf
