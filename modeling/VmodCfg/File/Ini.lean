import VmodCfg.File.Variables
import VmodCfg.Remote.Threads

/-!
# The INI parser

`file_parse_ini` runs `ini_parse_stream` (ini.c, with the options of
Makefile.am: multi-line values, inline comments, stop at the first error) over a
reader of its own that hands out the contents line by line, with a handler that
collects the variables.

A line is a list of bytes; what the parser writes into its line buffer only cuts
the line off.
-/

namespace VmodCfg.File

open CString

/-- The configuration of a file object that the parsers read. -/
structure FileCfg where
  nameDelimiter : CString
  valueDelimiter : CString

namespace Ini

def maxLine : Nat := 16384

def maxSection : Nat := 50

def maxName : Nat := 50

/-! ## The reader -/

def isNewline (c : UInt8) : Bool := c == 10 || c == 13

/-- `file_ini_stream_reader`: the next line, and what is left of the stream. A line that fills the
buffer is cut, and the byte at the cut is skipped; a newline may be doubled. -/
def streamReader (size : Nat) (rest : List UInt8) : Option (List UInt8 × List UInt8) :=
  if rest = [] then none
  else
    let line := (rest.take (size - 1)).takeWhile fun c => !isNewline c
    let newline := if line.length < size - 1 then rest[line.length]? else none
    let left := rest.drop (line.length + 1)
    some (line, if newline.isSome && left.head? == newline then left.tail else left)

/-- `.left = strlen(contents)`: the length is stored in an `int`. -/
def streamLeft (contents : CString) : Nat := (Int32.ofNat contents.bytes.length).toInt.toNat

/-! ## One line -/

def rstrip (s : List UInt8) : List UInt8 := (s.reverse.dropWhile isspace).reverse

def lskip (s : List UInt8) : List UInt8 := s.dropWhile isspace

/-- `ini_find_chars_or_comment`: an inline comment starts with `;` after a space. -/
def findCharsOrComment (chars : List UInt8) : Bool → List UInt8 → Nat
  | _, [] => 0
  | wasSpace, c :: s =>
    if c ∈ chars ∨ (wasSpace = true ∧ c = 59) then 0
    else findCharsOrComment chars (isspace c) s + 1

/-- `ini_strncpy0`, with the size of the destination. -/
def strncpy0 (src : List UInt8) (size : Nat) : CString := .ofBytes (src.take (size - 1))

inductive Line where
  | skipped
  | continuation (value : List UInt8)
  | header (name : List UInt8)
  | pair (name value : List UInt8)
  | malformed
  deriving DecidableEq, Repr

def bom : List UInt8 := [0xEF, 0xBB, 0xBF]

/-- The body of the loop of `ini_parse_stream`, up to the calls of the handler. `hasPrev` is
`*prev_name`, and a line is indented when `start > line`. -/
def classify (first hasPrev : Bool) (line : List UInt8) : Line :=
  let bomFound := first && bom.isPrefixOf line
  let stripped := rstrip (if bomFound then line.drop 3 else line)
  let start := lskip stripped
  let indented := bomFound || decide (start.length < stripped.length)
  match start with
  | [] => .skipped
  | c :: s =>
    if c = 59 ∨ c = 35 then .skipped
    else if hasPrev && indented then
      .continuation (rstrip (start.take (findCharsOrComment [] false start)))
    else if c = 91 then
      let e := findCharsOrComment [93] false s
      if s[e]? = some 93 then .header (s.take e) else .malformed
    else
      let e := findCharsOrComment [61, 58] false start
      if start[e]? = some 61 ∨ start[e]? = some 58 then
        let value := start.drop (e + 1)
        let value := value.take (findCharsOrComment [] false value)
        .pair (rstrip (start.take e)) (rstrip (lskip value))
      else .malformed

/-! ## The loop -/

section Parse

variable {U : Type*}

/-- The handler gets the section, the name and the value; `none` is a failed assertion. -/
abbrev Handler (U : Type*) := U → CString → CString → CString → Option (Bool × U)

structure State (U : Type*) where
  user : U
  currentSection : CString
  prevName : CString
  lineno : Nat
  error : Nat

def State.init (user : U) : State U := ⟨user, .empty, .empty, 0, 0⟩

/-- `if (!HANDLER(...) && !error) error = lineno;` -/
def State.handle (handler : Handler U) (st : State U) (name value : List UInt8) :
    Option (State U) :=
  (handler st.user st.currentSection (.ofBytes name) (.ofBytes value)).map fun (ok, user) =>
    { st with user := user, error := if !ok && st.error == 0 then st.lineno else st.error }

def parseLine (handler : Handler U) (st : State U) (line : List UInt8) : Option (State U) :=
  let st := { st with lineno := st.lineno + 1 }
  match classify (st.lineno == 1) (st.prevName.bytes != []) line with
  | .skipped => some st
  | .continuation value => st.handle handler st.prevName.bytes value
  | .header name =>
    some { st with currentSection := strncpy0 name maxSection, prevName := .empty }
  | .pair name value => { st with prevName := strncpy0 name maxName }.handle handler name value
  | .malformed => some { st with error := if st.error = 0 then st.lineno else st.error }

/-- The loop of `ini_parse_stream`, for at most `fuel` lines. -/
def parseLines (handler : Handler U) : Nat → State U → List UInt8 → Option (State U)
  | 0, st, _ => some st
  | fuel + 1, st, rest =>
    match streamReader maxLine rest with
    | none => some st
    | some (line, rest) =>
      match parseLine handler st line with
      | none => none
      | some st => if st.error ≠ 0 then some st else parseLines handler fuel st rest

/-- `ini_parse_stream`: the error, and what the handler collected. -/
def parseStream (handler : Handler U) (user : U) (rest : List UInt8) : Option (Nat × U) :=
  (parseLines handler (rest.length + 1) (.init user) rest).map fun st => (st.error, st.user)

theorem streamReader_length {size : Nat} {rest line left : List UInt8}
    (h : streamReader size rest = some (line, left)) : left.length < rest.length := by
  unfold streamReader at h
  split at h
  · cases h
  · rename_i hne
    have hpos : 0 < rest.length := List.length_pos_iff.mpr hne
    simp only [Option.some.injEq, Prod.mk.injEq] at h
    obtain ⟨-, rfl⟩ := h
    have htail : ∀ (b : Bool) (l : List UInt8), (if b then l.tail else l).length ≤ l.length := by
      intro b l
      cases b <;> simp
    refine Nat.lt_of_le_of_lt (htail _ _) ?_
    rw [List.length_drop]
    omega

/-- More fuel than bytes changes nothing: the loop ends at the end of the stream. -/
theorem parseLines_fuel (handler : Handler U) (fuel : Nat) (st : State U) (rest : List UInt8)
    (h : rest.length < fuel) :
    parseLines handler fuel st rest = parseLines handler (rest.length + 1) st rest := by
  induction fuel using Nat.strongRecOn generalizing st rest with
  | ind fuel ih =>
    obtain ⟨fuel, rfl⟩ : ∃ n, fuel = n + 1 := ⟨fuel - 1, by omega⟩
    unfold parseLines
    cases hr : streamReader maxLine rest with
    | none => rfl
    | some x =>
      obtain ⟨line, left⟩ := x
      have hlt := streamReader_length hr
      simp only
      cases parseLine handler st line with
      | none => rfl
      | some st' =>
        simp only
        split
        · rfl
        · rw [ih fuel (Nat.lt_succ_self _) st' left (by omega)]
          by_cases hf : rest.length < fuel
          · rw [ih rest.length (by omega) st' left hlt]
          · have he : rest.length = fuel := by omega
            rw [he, ih fuel (Nat.lt_succ_self _) st' left (by omega)]

end Parse

end Ini

/-! ## `file_parse_ini` -/

def fileParseIniHandler (cfg : FileCfg) : Ini.Handler Variables := fun vars sect name value =>
  let buffer := if sect.bytes ≠ [] then sect ++ cfg.nameDelimiter ++ name else name
  -- the assertion on `asprintf`
  if 0 < buffer.asprintf then
    match vars.findVariable buffer with
    | none => (vars.insertNew buffer value).map (true, ·)
    | some old =>
      let old := if old.bytes ≠ [] then old ++ cfg.valueDelimiter else old
      some (true, vars.setValue buffer (old ++ value))
  else none

def fileParseIni (cfg : FileCfg) (contents : CString) : Remote.Parsed Variables :=
  let rest := contents.bytes.take (Ini.streamLeft contents)
  match Ini.parseStream (fileParseIniHandler cfg) ∅ rest with
  | none => .panic
  | some (rc, vars) => if rc = 0 then .parsed vars else .failed

end VmodCfg.File
