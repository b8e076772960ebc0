import VmodCfg.File.Json
import VmodCfg.Lib.JsonText
import VmodCfg.Lib.Numeral

/-!
# cJSON

`cJSON_ParseWithOpts`, as `file_parse_json` calls it. The parse buffer is what is left of the
contents, their terminator included. How a numeral becomes a number is a parameter (`number`), so
that the parser can also keep the numerals: what it finds does not depend on it.
-/

namespace VmodCfg.File

universe u v

open CString

namespace CJson

def nestingLimit : Nat := 1000

/-! ## White space and strings -/

/-- `buffer_skip_whitespace`: where everything is skipped, the last byte is left. -/
def skipWhitespace (rest : List UInt8) : List UInt8 :=
  match rest.dropWhile fun c => c ≤ 32 with
  | [] => rest.drop (rest.length - 1)
  | c :: rest => c :: rest

def skipUtf8Bom (rest : List UInt8) : List UInt8 :=
  if 4 < rest.length ∧ Ini.bom <+: rest then rest.drop 3 else rest

/-- `parse_hex4`: 0 if one of the four is not a digit. -/
def parseHex4 : List UInt8 → Nat
  | a :: b :: c :: d :: _ =>
    match JsonText.hexDigit a, JsonText.hexDigit b, JsonText.hexDigit c, JsonText.hexDigit d with
    | some a, some b, some c, some d =>
      ((a.toNat * 16 + b.toNat) * 16 + c.toNat) * 16 + d.toNat
    | _, _, _, _ => 0
  | _ => 0

def utf8Next (codepoint : Nat) : UInt8 := .ofNat ((codepoint ||| 0x80) &&& 0xBF)

/-- The first byte, if there are more. -/
def utf8First (codepoint mark : Nat) : UInt8 := .ofNat ((codepoint ||| mark) &&& 0xFF)

/-- The second half of `utf16_literal_to_utf8`. -/
def encodeUtf8 (codepoint : Nat) : Option (List UInt8) :=
  if codepoint < 0x80 then some [.ofNat (codepoint &&& 0x7F)]
  else if codepoint < 0x800 then some [utf8First (codepoint >>> 6) 0xC0, utf8Next codepoint]
  else if codepoint < 0x10000 then
    some [utf8First (codepoint >>> 12) 0xE0, utf8Next (codepoint >>> 6), utf8Next codepoint]
  else if codepoint ≤ 0x10FFFF then
    some [utf8First (codepoint >>> 18) 0xF0, utf8Next (codepoint >>> 12),
      utf8Next (codepoint >>> 6), utf8Next codepoint]
  else none

/-- `utf16_literal_to_utf8`, from the backslash on: the bytes, and what follows the literal. -/
def utf16LiteralToUtf8 (s : List UInt8) : Option (List UInt8 × List UInt8) :=
  if s.length < 6 then none
  else
    let firstCode := parseHex4 (s.drop 2)
    if 0xDC00 ≤ firstCode ∧ firstCode ≤ 0xDFFF then none
    else if 0xD800 ≤ firstCode ∧ firstCode ≤ 0xDBFF then
      let second := s.drop 6
      if second.length < 6 then none
      else if second[0]? ≠ some 92 ∨ second[1]? ≠ some 117 then none
      else
        let secondCode := parseHex4 (second.drop 2)
        if secondCode < 0xDC00 ∨ 0xDFFF < secondCode then none
        else
          (encodeUtf8 (0x10000 + (((firstCode &&& 0x3FF) <<< 10) ||| (secondCode &&& 0x3FF)))).map
            (·, s.drop 12)
    else (encodeUtf8 firstCode).map (·, s.drop 6)

/-- The end of a string literal: how many bytes there are before the quotation mark. -/
def literalEnd : List UInt8 → Option Nat
  | [] => none
  | c :: s =>
    if c = 34 then some 0
    else if c = 92 then
      match s with
      | [] => none
      | _ :: s => (literalEnd s).map (· + 2)
    else (literalEnd s).map (· + 1)

/-- The loop of `parse_string` through the literal, for at most `fuel` escapes and bytes. -/
def unescape : Nat → List UInt8 → Option (List UInt8)
  | _, [] => some []
  | 0, _ => none
  | fuel + 1, c :: s =>
    if c ≠ 92 then (unescape fuel s).map (c :: ·)
    else
      match s with
      -- The escaped byte is the closing quotation mark. This happens where `\u` is followed by an
      -- escape: the four bytes it takes, which need not be digits, may end inside of that.
      | [] => some [34]
      | e :: t =>
        if e = 117 then
          match utf16LiteralToUtf8 (c :: s) with
          | none => none
          | some (bytes, left) => (unescape fuel left).map (bytes ++ ·)
        else
          match JsonText.unescape e with
          | none => none
          | some b => (unescape fuel t).map (b :: ·)

/-- `parse_string`: the string, up to its first NUL, and what follows. -/
def parseString : List UInt8 → Option (CString × List UInt8)
  | [] => none
  | c :: s =>
    if c = 34 then
      match literalEnd s with
      | none => none
      | some e => (unescape e (s.take e)).map fun out => (.ofBytes out, s.drop (e + 1))
    else none

/-! ## Values -/

section Values

variable {D : Type u} (number : Numeral → JsonNumber D)

/-- A character that `parse_number` copies to its buffer. -/
def isNumberChar (c : UInt8) : Bool :=
  Decimal.isDigit c || c == 43 || c == 45 || c == 101 || c == 69 || c == 46

/-- `parse_number`, with its buffer of 64 bytes -/
def parseNumber (rest : List UInt8) : Option (Json D × List UInt8) :=
  let numberCString := (rest.take 63).takeWhile isNumberChar
  (Numeral.scan numberCString).map fun x =>
    (.number (number x.1), rest.drop (numberCString.length - x.2.length))

section Nested

variable (value : List UInt8 → Option (Json D × List UInt8))

/-- The loop of `parse_array`, for at most `fuel` elements. -/
def parseElements : Nat → List UInt8 → Option (JsonItems D × List UInt8)
  | 0, _ => none
  | fuel + 1, rest =>
    match value (skipWhitespace rest) with
    | none => none
    | some (item, rest) =>
      match skipWhitespace rest with
      | [] => none
      | c :: rest =>
        if c = 44 then (parseElements fuel rest).map fun x => (.cons none item x.1, x.2)
        else if c = 93 then some (.cons none item .nil, rest)
        else none

def parseArray (rest : List UInt8) : Option (Json D × List UInt8) :=
  match skipWhitespace rest with
  | [] => none
  | c :: rest =>
    if c = 93 then some (.array .nil, rest)
    else (parseElements value (rest.length + 1) (c :: rest)).map fun x => (.array x.1, x.2)

/-- The loop of `parse_object`, for at most `fuel` members. -/
def parseMembers : Nat → List UInt8 → Option (JsonItems D × List UInt8)
  | 0, _ => none
  | fuel + 1, rest =>
    if rest = [] then none
    else
      match parseString (skipWhitespace rest) with
      | none => none
      | some (string, rest) =>
        match skipWhitespace rest with
        | [] => none
        | c :: rest =>
          if c = 58 then
            match value (skipWhitespace rest) with
            | none => none
            | some (item, rest) =>
              match skipWhitespace rest with
              | [] => none
              | c :: rest =>
                if c = 44 then
                  (parseMembers fuel rest).map fun x => (.cons (some string) item x.1, x.2)
                else if c = 125 then some (.cons (some string) item .nil, rest)
                else none
          else none

def parseObject (rest : List UInt8) : Option (Json D × List UInt8) :=
  match skipWhitespace rest with
  | [] => none
  | c :: rest =>
    if c = 125 then some (.object .nil, rest)
    else (parseMembers value (rest.length + 1) (c :: rest)).map fun x => (.object x.1, x.2)

end Nested

/-- The cases of `parse_value`; `value` parses what is nested, and is missing where that is too
deep. -/
def parseCases (value : Option (List UInt8 → Option (Json D × List UInt8))) (rest : List UInt8) :
    Option (Json D × List UInt8) :=
  if [110, 117, 108, 108] <+: rest then some (.null, rest.drop 4)
  else if textFalse.bytes <+: rest then some (.false, rest.drop 5)
  else if textTrue.bytes <+: rest then some (.true, rest.drop 4)
  else
    match rest with
    | [] => none
    | c :: left =>
      if c = 34 then (parseString rest).map fun x => (.string x.1, x.2)
      else if c = 45 ∨ Decimal.isDigit c = true then parseNumber number rest
      else if c = 91 then value.bind fun value => parseArray value left
      else if c = 123 then value.bind fun value => parseObject value left
      else none

/-- `parse_value`; `levels` is how much deeper arrays and objects may be nested. -/
def parseValue : Nat → List UInt8 → Option (Json D × List UInt8)
  | 0 => parseCases number none
  | levels + 1 => parseCases number (some (parseValue levels))

/-- `cJSON_ParseWithOpts`, without `require_null_terminated` -/
def parseWithOpts (contents : CString) : Option (Json D) :=
  (parseValue number nestingLimit
    (skipWhitespace (skipUtf8Bom (contents.bytes ++ [0])))).map Prod.fst

end Values

/-! ## Numbers -/

open Binary64

def valueint : Double → Int32
  | .infinite negative => if negative then Int32.minValue else Int32.maxValue
  | .finite q _ =>
    if 2147483647 ≤ q then Int32.maxValue
    else if q ≤ -2147483648 then Int32.minValue
    else Int32.ofInt (truncate q)

/-- What `parse_number` makes of the result of `strtod`. -/
def ofNumeral (x : Numeral) : JsonNumber Double :=
  ⟨Double.ofRat x.value, valueint (Double.ofRat x.value)⟩

/-- `modf` leaves no fraction. -/
def integral : Double → Bool
  | .infinite _ => Bool.true
  | .finite q _ => q.den == 1

def threeDigits (n : Nat) : List UInt8 :=
  [.ofNat (48 + n / 100), .ofNat (48 + n / 10 % 10), .ofNat (48 + n % 10)]

/-- `%.3f` -/
def fixed3 : Double → List UInt8
  | .infinite negative => (if negative then [45] else []) ++ [105, 110, 102]
  | .finite q _ =>
    let n := (roundHalfEven (|q| * 1000)).toNat
    (if q < 0 then [45] else []) ++ (Nat.toDigits 10 (n / 1000)).map Decimal.ofChar ++
      46 :: threeDigits (n % 1000)

/-- cJSON, and the functions of libc that `file_parse_json` uses. -/
def lib : JsonLib Double := ⟨parseWithOpts ofNumeral, integral, fun x => .ofBytes (fixed3 x)⟩

end CJson

end VmodCfg.File
