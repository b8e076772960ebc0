import VmodCfg.Lib.CString

/-!
# `rules_parse`

The parser of the rules object works in place: it isolates the line, the regexp
and the value by writing NULs into the contents buffer, and puts the bytes back
before it goes on. The model keeps the buffer, so that what is published
afterwards is the buffer the parser left.

`vreCompile` is `VRE_compile`: the compiled expression, or `none`.
-/

namespace VmodCfg.Rules

structure Rule (V : Type*) where
  vre : V
  value : CString
  deriving DecidableEq

inductive ErrorCode where
  | noArrow
  | emptyRegexp
  | badRegexp
  deriving DecidableEq, Repr

def ErrorCode.toNat : ErrorCode → Nat
  | .noArrow => 1
  | .emptyRegexp => 2
  | .badRegexp => 3

/-- Where the parser stopped. -/
structure ParseError where
  row : UInt32
  code : ErrorCode
  deriving DecidableEq, Repr

def ParseError.log (name : String) (e : ParseError) : String :=
  s!"Got error while parsing rules (rules={name}, line={e.row}, error={e.code.toNat})"

inductive Row (V : Type*) where
  | blank
  | error (code : ErrorCode)
  | rule (r : Rule V)
  deriving DecidableEq

def arrow : List UInt8 := [45, 62]

section Defs

variable {V : Type*} (vreCompile : CString → Option V)

/-- The body of the loop, from the isolated line to the label `skip`. -/
def parseRow (buf : Buffer) (line lineEnd : Nat) : Row V × Buffer :=
  let regexp := buf.skipSpaces line
  if buf.byte regexp = 0 then (.blank, buf)
  else
    match buf.strstr regexp arrow with
    | none => (.error .noArrow, buf)
    | some sep =>
      if sep = regexp then (.error .emptyRegexp, buf)
      else
        let regexpEnd := buf.trimEnd regexp sep
        let value := buf.skipSpaces (sep + 2)
        let valueEnd := buf.trimEnd value lineEnd
        let regexpEndChar := buf.byte regexpEnd
        let buf₁ := buf.put regexpEnd 0
        let valueEndChar := buf₁.byte valueEnd
        let buf₂ := buf₁.put valueEnd 0
        let row := match vreCompile (buf₂.str regexp) with
          | none => .error .badRegexp
          | some vre => .rule ⟨vre, buf₂.str value⟩
        (row, (buf₂.put regexpEnd regexpEndChar).put valueEnd valueEndChar)

/-- The end of the line at `line`, and the byte found there. -/
def isolateLine (buf : Buffer) (line : Nat) : Nat × UInt8 :=
  match buf.strchr line 10 with
  | some e => (e, 10)
  | none => (line + buf.strlen line, 0)

/-- `while (*line != '\0')`, for at most `fuel` lines. -/
def parseLines : Nat → Buffer → Nat → UInt32 → List (Rule V) →
    Except ParseError (List (Rule V)) × Buffer
  | 0, buf, _, _, acc => (.ok acc, buf)
  | fuel + 1, buf, line, row, acc =>
    if buf.byte line = 0 then (.ok acc, buf)
    else
      let (lineEnd, lineEndChar) := isolateLine buf line
      let (r, buf₁) := parseRow vreCompile (buf.put lineEnd 0) line lineEnd
      let buf₂ := buf₁.put lineEnd lineEndChar
      let line' := if buf₂.byte lineEnd = 10 then lineEnd + 1 else lineEnd
      match r with
      | .error code => (.error ⟨row, code⟩, buf₂)
      | .blank => parseLines fuel buf₂ line' (row + 1) acc
      | .rule rule => parseLines fuel buf₂ line' (row + 1) (acc ++ [rule])

/-- `rules_parse`: the list of rules, or where it failed; and the buffer left behind. -/
def rulesParse (contents : Buffer) : Except ParseError (List (Rule V)) × Buffer :=
  parseLines vreCompile (contents.strlen 0 + 1) contents 0 1 []

end Defs

def firstMatch {V Q : Type*} (reMatch : Q → V → Bool) (rules : List (Rule V)) (value : Q) :
    Option CString :=
  (rules.find? fun r => reMatch value r.vre).map Rule.value

/-! ## The buffer is put back -/

variable {V : Type*} {vreCompile : CString → Option V}

theorem isolateLine_byte (buf : Buffer) (line : Nat) :
    buf.byte (isolateLine buf line).1 = (isolateLine buf line).2 := by
  unfold isolateLine
  cases h : buf.strchr line 10 with
  | none => exact buf.byte_strlen line
  | some e => exact (buf.strchr_some h).2.2

theorem le_isolateLine (buf : Buffer) (line : Nat) : line ≤ (isolateLine buf line).1 := by
  unfold isolateLine
  cases h : buf.strchr line 10 with
  | none => exact Nat.le_add_right ..
  | some e => exact (buf.strchr_some h).1

/-- The two ends that are overwritten are not the same byte. -/
theorem parseRow_ends {buf : Buffer} {line lineEnd sep : Nat} (hle : line ≤ lineEnd)
    (hnul : buf.byte lineEnd = 0) (hsep : buf.strstr (buf.skipSpaces line) arrow = some sep) :
    buf.trimEnd (buf.skipSpaces line) sep ≠
      buf.trimEnd (buf.skipSpaces (sep + 2)) lineEnd := by
  have h1 := buf.skipSpaces_le hle hnul
  have h2 := buf.add_strlen_le h1 hnul
  have h3 := (buf.strstr_some hsep).2
  have h4 : arrow.length = 2 := rfl
  have h5 := buf.trimEnd_le (buf.skipSpaces line) sep
  have h6 := buf.min_le_trimEnd (buf.skipSpaces (sep + 2)) lineEnd
  have h7 := buf.le_skipSpaces (sep + 2)
  omega

theorem parseRow_buffer {buf : Buffer} {line lineEnd : Nat} (hle : line ≤ lineEnd)
    (hnul : buf.byte lineEnd = 0) : (parseRow vreCompile buf line lineEnd).2 = buf := by
  unfold parseRow
  simp only
  split
  · rfl
  · split
    · rfl
    · rename_i sep hsep
      split
      · rfl
      · exact buf.put_restore (parseRow_ends hle hnul hsep)

/-- One round of the loop leaves the buffer as it found it. -/
theorem parseRow_restores (buf : Buffer) (line : Nat) :
    (parseRow vreCompile (buf.put (isolateLine buf line).1 0) line (isolateLine buf line).1).2.put
      (isolateLine buf line).1 (isolateLine buf line).2 = buf := by
  rw [parseRow_buffer (le_isolateLine buf line) (buf.byte_put_zero _), Buffer.put_put,
    ← isolateLine_byte, Buffer.put_byte]

theorem parseLines_buffer (fuel : Nat) (buf : Buffer) (line : Nat) (row : UInt32)
    (acc : List (Rule V)) : (parseLines vreCompile fuel buf line row acc).2 = buf := by
  induction fuel generalizing line row acc with
  | zero => rfl
  | succ fuel ih =>
    unfold parseLines
    split
    · rfl
    · simp only [parseRow_restores]
      split
      · rfl
      · exact ih ..
      · exact ih ..

/-- **The parser puts back every byte it overwrites**, whatever it found. -/
theorem rulesParse_buffer (contents : Buffer) : (rulesParse vreCompile contents).2 = contents :=
  parseLines_buffer ..

end VmodCfg.Rules
