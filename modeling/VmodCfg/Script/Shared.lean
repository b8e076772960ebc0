import VmodCfg.File.Variables

/-!
# The variables that scripts share

`varnish.shared` stores strings in two scopes: the variables of the task, which
live in its workspace, and the global variables of the script object, which live
in the heap. The helpers that every engine loads (script_lua_helpers.lua,
script_javascript_helpers.js) turn the values of the interpreter into strings and
back. Numbers are those of the interpreter, with the conversions it uses.
-/

namespace VmodCfg.Script

/-! ## Scopes and stores -/

def scopeTask : CString := .ofBytes [116, 97, 115, 107]

def scopeGlobal : CString := .ofBytes [103, 108, 111, 98, 97, 108]

def scopeAll : CString := .ofBytes [97, 108, 108]

theorem scopes_ne : scopeTask ≠ scopeGlobal ∧ scopeTask ≠ scopeAll ∧ scopeGlobal ≠ scopeAll := by
  decide

/-- A tree of `vmod_cfg_script->state` and the `n` next to it. -/
structure Store (M : Type*) where
  n : UInt32
  list : M

abbrev GlobalVariables := Store File.Variables

/-- The variables of a task; the value is NULL after a copy that did not fit the workspace. -/
abbrev TaskVariables := Std.ExtTreeMap CString (Option CString) CString.strcmp

/-- Which of the allocations of `varnish_shared_set_command` fit the workspace. -/
structure Room where
  node : Bool
  name : Bool
  value : Bool

def taskSet (vars : TaskVariables) (key value : CString) (room : Room) : TaskVariables :=
  let copy := if room.value then some value else none
  match vars[key]? with
  | none => if room.node ∧ room.name then vars.insert key copy else vars
  | some _ => vars.insert key copy

def globalSet (vars : GlobalVariables) (key value : CString) : GlobalVariables :=
  match vars.list.findVariable key with
  | none => ⟨vars.n + 1, vars.list.insert key value⟩
  | some _ => { vars with list := vars.list.setValue key value }

def globalUnset (vars : GlobalVariables) (key : CString) : GlobalVariables :=
  match vars.list.findVariable key with
  | none => vars
  | some _ => ⟨vars.n - 1, vars.list.erase key⟩

theorem compare_eq {k l : CString} : CString.strcmp k l = .eq ↔ k = l :=
  Std.LawfulEqCmp.compare_eq_iff_eq

theorem globalSet_list (vars : GlobalVariables) (key value k : CString) :
    (globalSet vars key value).list[k]? =
      Function.update (fun k : CString => vars.list[k]?) key (some value) k := by
  have hins : (vars.list.insert key value)[k]? =
      Function.update (fun k : CString => vars.list[k]?) key (some value) k := by
    rw [Std.ExtTreeMap.getElem?_insert, Function.update_apply]
    simp only [compare_eq, @eq_comm _ key k]
  unfold globalSet
  split <;> exact hins

theorem globalUnset_list (vars : GlobalVariables) (key k : CString) :
    (globalUnset vars key).list[k]? =
      Function.update (fun k : CString => vars.list[k]?) key none k := by
  unfold globalUnset
  split
  · rename_i hnone
    by_cases hk : k = key
    · subst hk
      rw [Function.update_self]
      exact hnone
    · rw [Function.update_of_ne hk]
  · show (vars.list.erase key)[k]? = _
    rw [Std.ExtTreeMap.getElem?_erase, Function.update_apply]
    simp only [compare_eq, @eq_comm _ key k]

/-! ## Regular expressions -/

structure Vre (R : Type*) where
  compile : CString → Option R
  isMatch : R → CString → Bool
  sub : R → Bool → CString → CString → Option CString

abbrev Regexps (R : Type*) := Store (Std.ExtTreeMap CString R CString.strcmp)

/-- The second section of `init_regexp`: the regexp compiled by another thread in the meantime
wins. -/
def cacheRegexp {R : Type*} (regexps : Regexps R) (text : CString) (re : R) : R × Regexps R :=
  match regexps.list[text]? with
  | some cached => (cached, regexps)
  | none => (re, ⟨regexps.n + 1, regexps.list.insert text re⟩)

def regexpError (regexp : CString) : CString :=
  CString.ofString "Failed to instantiate '" ++ regexp ++ CString.ofString "' regexp."

/-! ## The values of the helpers -/

/-- A value of the interpreter, as `serialize` sees it. `nil` is Lua's nil and JavaScript's null. -/
inductive Value (D : Type*) where
  | nil
  | boolean (b : Bool)
  | number (x : D)
  | string (s : List UInt8)
  | other

/-- The numbers of an interpreter. `ofText` is what `unserialize` calls (`tonumber` in Lua,
`Number` in JavaScript); `toNumber` is what `incr` calls (`tonumber`, and `parseInt` without
`NaN`). -/
structure Numbers (D : Type*) where
  toText : D → List UInt8
  ofText : List UInt8 → Option D
  toNumber : Value D → Option D
  zero : D
  add : D → D → D

section Helpers

variable {D : Type*} (N : Numbers D)

/-- `serialize`; `none` is the error it raises. -/
def serialize : Value D → Option (List UInt8)
  | .number x => some (110 :: 58 :: N.toText x)
  | .string s => some (115 :: 58 :: s)
  | .boolean b => some [98, 58, if b then 49 else 48]
  | _ => none

/-- `unserialize`; `none` is the error it raises. -/
def unserialize : List UInt8 → Option (Value D)
  | 110 :: 58 :: body => (N.ofText body).map .number
  | 115 :: 58 :: body => some (.string body)
  | 98 :: 58 :: body => some (.boolean (body = [49]))
  | _ => none

/-- The value that `incr` stores: `value` is what it read. -/
def incrValue (increment value : Value D) : D :=
  let increment := (N.toNumber increment).getD N.zero
  match N.toNumber value with
  | none => increment
  | some value => N.add value increment

end Helpers

end VmodCfg.Script
