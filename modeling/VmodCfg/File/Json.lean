import VmodCfg.File.Ini

/-!
# The JSON parser

`file_parse_json` has cJSON build a tree, and walks over it. The tree follows
`cJSON`: the children of an object and of an array are a linked list of items,
and `string` is the name of an item, NULL in an array. cJSON itself is a
parameter, and so are the numbers (`D`, a C `double`) and their texts.
-/

namespace VmodCfg.File

universe u

/-- The value of a number: `valuedouble` and `valueint`. -/
structure JsonNumber (D : Type*) where
  valuedouble : D
  valueint : Int32

mutual

inductive Json (D : Type u) where
  | null
  | false
  | true
  | number (value : JsonNumber D)
  | string (valuestring : CString)
  | raw (valuestring : CString)
  | array (items : JsonItems D)
  | object (items : JsonItems D)

/-- `child`, and from there on `next` -/
inductive JsonItems (D : Type u) where
  | nil
  | cons (string : Option CString) (item : Json D) (next : JsonItems D)

end

def Json.isNumber {D : Type u} : Json D → Bool
  | .number _ => Bool.true
  | _ => Bool.false

/-- What cJSON and libc give: `cJSON_ParseWithOpts`, whether `modf` leaves no fraction, and the text
that `%.3f` gives. -/
structure JsonLib (D : Type*) where
  parse : CString → Option (Json D)
  integral : D → Bool
  fmt3 : D → CString

def decimal (n : Int32) : CString :=
  .ofBytes ((if n < 0 then [45] else []) ++
    (Nat.toDigits 10 n.toInt.natAbs).map fun c => UInt8.ofNat c.toNat)

def textFalse : CString := .ofBytes [102, 97, 108, 115, 101]

def textTrue : CString := .ofBytes [116, 114, 117, 101]

section Walk

variable {D : Type*} (lib : JsonLib D) (cfg : FileCfg)

/-- `value`, in `file_parse_json_emit` -/
def jsonText : Json D → Option CString
  | .false => some textFalse
  | .true => some textTrue
  | .number x =>
    some (if lib.integral x.valuedouble then decimal x.valueint else lib.fmt3 x.valuedouble)
  | .string s | .raw s => some s
  | _ => none

/-- `file_parse_json_emit`; `none` is a failed assertion, also in the next definition. -/
def fileParseJsonEmit (path : CString) (string : Option CString) (item : Json D)
    (vars : Variables) : Option Variables :=
  match jsonText lib item with
  | none => some vars
  | some value =>
    -- the assertions on `asprintf`, for a number and for the name
    if item.isNumber && decide (value.asprintf ≤ 0) then none
    else
      match string with
      | none => none
      | some string =>
        let name := path ++ string
        if 0 < name.asprintf then vars.insertNew name value else none

/-- The loop of `file_parse_json_walk`; `path` is the prefix. -/
def fileParseJsonWalk (path : CString) (vars : Variables) : JsonItems D → Option Variables
  | .nil => some vars
  | .cons none _ _ => none
  | .cons (some string) (.object items) next =>
    let newPrefix := path ++ string ++ cfg.nameDelimiter
    if newPrefix.asprintf < 0 then none
    else
      match fileParseJsonWalk newPrefix vars items with
      | none => none
      | some vars => fileParseJsonWalk path vars next
  | .cons (some string) item next =>
    match fileParseJsonEmit lib path (some string) item vars with
    | none => none
    | some vars => fileParseJsonWalk path vars next

def fileParseJson (contents : CString) : Remote.Parsed Variables :=
  match lib.parse contents with
  | some (.object items) =>
    match fileParseJsonWalk lib cfg .empty ∅ items with
    | none => .panic
    | some vars => .parsed vars
  | _ => .failed

end Walk

end VmodCfg.File
