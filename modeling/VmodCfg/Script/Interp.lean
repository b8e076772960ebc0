import VmodCfg.Script.Pool
import VmodCfg.Script.Task

/-!
# Interpreters, and the marshalling of what a script returns

The two interpreters are parameters: an `Interp` says what loading a chunk and
calling a function do to the globals of an engine and to the rest of the world
(the workspace, the headers, the shared variables), and where they fail. Scripts
leave globals behind, so that what an execution does outside of a protected call
(reading `varnish` and the function, storing the fields and `ARGV`) may raise an
error in a later one: the process is aborted. Metamethods and accessors that run
there and return are taken to change nothing else. What an execution adds is
modelled: the interpreter stack, the fields of the `varnish` object, and how
`post_execute` stores the value on top of the stack.
-/

namespace VmodCfg.Script

/-- An element of a table or an array, as the interpreter hands it out. Reading it may run code of
the script (a metamethod, an accessor) that raises an error, outside of any protected call. For
Duktape a Symbol has the type of a string; `text` is that of the `TypeError` which
`duk_safe_to_string` makes of it. -/
inductive Elem (D : Type*) where
  | nil
  | boolean (b : Bool)
  | number (x : D)
  | string (s : List UInt8)
  | symbol (text : List UInt8)
  | table
  | other
  | raises

/-- What a Lua script returns; `elems i` is the element `i + 1` of the table. -/
inductive LuaValue (D : Type*) where
  | nil
  | boolean (b : Bool)
  | number (x : D)
  | string (s : List UInt8)
  | table (elems : Nat → Elem D)
  | other

/-- What a JavaScript script returns. A Proxy of an array counts as an array: its length is any
`duk_size_t`, and reading it may raise an error (`none`). -/
inductive JsValue (D : Type*) where
  | undefined
  | null
  | boolean (b : Bool)
  | number (x : D)
  | string (s : List UInt8)
  | symbol (text : List UInt8)
  | array (length : Option UInt64) (elems : Nat → Elem D)
  | object
  | other

inductive Slot (V : Type*) where
  | varnish
  | handler
  | function
  | value (v : V)
  | elem
  | pushed

def Slot.isVarnish {V : Type*} : Slot V → Bool
  | .varnish => true
  | _ => false

inductive Field where
  | ctx
  | script
  | state
  deriving DecidableEq

/-- A Lua or a Duktape library. `G` are the globals of an engine, `E` the rest of the world. -/
structure Interp (G E V : Type*) where
  /-- The globals after `new_context`. -/
  new : G
  /-- `varnish` is pushed, in Lua with its `_error_handler`, and is what the assertions ask for. -/
  varnish : G → Bool
  /-- Push a global: is it a function? `none` is an error that was raised. -/
  lookup : G → CString → Option Bool
  /-- Load and run `function name() code end`; `none` if the process is aborted. -/
  load : G → CString → CString → Option (Bool × G)
  /-- What is in the slot takes a value for a field, a pointer before a call and a null after it. -/
  stores : G → Slot V → Field → Bool → Bool
  /-- The global `ARGV` is set. -/
  argv : G → List CString → Bool
  /-- Call a global function with `ARGV` set: a value, or an error that was raised; `none` if the
  process is aborted. -/
  call : G → CString → List CString → E → Option (Option V × G × E)
  /-- Collect garbage; `none` if a finalizer raises an error. -/
  gc : G → Option G
  memory : G → Int
  /-- `WS_Copy`: does the string, with its terminator, fit the workspace? -/
  wsCopy : E → CString → Bool × E

/-- The interpreter of an engine: the stack has its top first, `set` are the fields of the `varnish`
object of an execution that hold a pointer, `stray` counts the stores that hit something else. -/
structure Vm (G V : Type*) where
  globals : G
  stack : List (Slot V)
  set : Field → Bool
  stray : Nat

section Defs

variable {D G E V : Type*}

def Vm.push (L : Vm G V) (x : Slot V) : Vm G V := { L with stack := x :: L.stack }

def Vm.pop (L : Vm G V) (n : Nat) : Vm G V := { L with stack := L.stack.drop n }

/-! ## `post_execute` -/

/-- How the marshalling ends: with the value that `post_execute` returns, and the slots it leaves
above the value; or in an error outside of any protected call. -/
inductive Marshal (D E : Type*) where
  | done (ok : Bool) (r : Result D) (env : E) (left : Nat)
  | abort

variable (I : Interp G E V)

def storeString (env : E) (s : List UInt8) : Bool × ResultValue D × E :=
  match I.wsCopy env (.ofBytes s) with
  | (true, env) => (true, .string (some (.ofBytes s)), env)
  | (false, env) => (false, .string none, env)

/-- What is stored for an element: `none` if reading it raised an error. -/
def storeElem (env : E) : Elem D → Option (Bool × ResultValue D × E)
  | .nil => some (true, .nil, env)
  | .boolean b => some (true, .boolean b, env)
  | .number x => some (true, .number x, env)
  | .string s | .symbol s => some (storeString I env s)
  | .table => some (true, .table, env)
  | .other => some (true, .error, env)
  | .raises => none

/-- The loops over a table or an array: `next i` is the element `i`, `none` at the end. At most
`n` more elements are stored. -/
def storeElems (next : Nat → Option (Elem D)) : Nat → Nat → Result D → E → Marshal D E
  | 0, _, r, env => .done true r env 0
  | n + 1, i, r, env =>
    match next i with
    | none => .done true r env 0
    | some e =>
      match storeElem I env e with
      | none => .abort
      | some (false, v, env) => .done false (r.set i v) env 1
      | some (true, v, env) =>
        storeElems next n (i + 1) { r.set i v with nvalues := (i : Int) + 1 } env

/-- A Lua table ends before its first nil. -/
def luaNext (elems : Nat → Elem D) (i : Nat) : Option (Elem D) :=
  match elems i with
  | .nil => none
  | e => some e

/-- A JavaScript array ends at its length, an `int` in the source. -/
def jsNext (length : UInt64) (elems : Nat → Elem D) (i : Nat) : Option (Elem D) :=
  if (i : Int) < length.toUInt32.toInt32.toInt then some (elems i) else none

def luaPostExecute (r : Result D) (env : E) : LuaValue D → Marshal D E
  | .nil => .done true (r.set 0 .nil) env 0
  | .boolean b => .done true (r.set 0 (.boolean b)) env 0
  | .number x => .done true (r.set 0 (.number x)) env 0
  | .string s =>
    let (ok, v, env) := storeString I env s
    .done ok (r.set 0 v) env 0
  | .table elems => storeElems I (luaNext elems) maxResultValues 0 { r with nvalues := 0 } env
  | .other => .done false (r.set 0 .error) env 0

/-- `post_execute`, in script_javascript.c: an object that is not an array is stored at
`values[nvalues]`, and counts as a success. -/
def jsPostExecute (r : Result D) (env : E) : JsValue D → Marshal D E
  | .undefined | .null => .done true (r.set 0 .nil) env 0
  | .boolean b => .done true (r.set 0 (.boolean b)) env 0
  | .number x => .done true (r.set 0 (.number x)) env 0
  | .string s | .symbol s =>
    let (ok, v, env) := storeString I env s
    .done ok (r.set 0 v) env 0
  | .array none _ => .abort
  | .array (some length) elems =>
    storeElems I (jsNext length elems) maxResultValues 0 { r with nvalues := 0 } env
  | .object => .done true (r.set r.nvalues .error) env 0
  | .other => .done false (r.set 0 .error) env 0

end Defs

end VmodCfg.Script
