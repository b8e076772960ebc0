import Mathlib.Tactic.Linarith
import VmodCfg.Lib.CString

/-!
# Sets of variables

`variables_t` is a red-black tree of variables, ordered by `strcmp` on the name.
-/

namespace VmodCfg.File

/-- `variables_t`: the value of each name. -/
abbrev Variables : Type := Std.ExtTreeMap CString CString CString.strcmp

namespace Variables

variable (vars : Variables)

def findVariable (name : CString) : Option CString := vars[name]?

def insertNew (name value : CString) : Option Variables :=
  if name ∈ vars then none else some (vars.insert name value)

/-- `variable->value = value`, for a variable of the set. -/
def setValue (name value : CString) : Variables := vars.insert name value

def isSetVariable (name : Option CString) : Bool :=
  match name with
  | some name => (vars.findVariable name).isSome
  | none => false

/-- `get_variable`, up to the copy of the result to the workspace. -/
def getVariable (name fallback : Option CString) : Option CString :=
  match name with
  | some name => (vars.findVariable name).or fallback
  | none => fallback

theorem insertNew_eq_some {vars vars' : Variables} {name value : CString}
    (h : vars.insertNew name value = some vars') :
    name ∉ vars ∧ vars' = vars.insert name value := by
  unfold insertNew at h
  split at h
  · cases h
  · rename_i hnew
    exact ⟨hnew, (Option.some.inj h).symm⟩

theorem nodup_names : (vars.toList.map Prod.fst).Nodup := by
  have hkeys : vars.toList.Pairwise fun a b => CString.strcmp a.1 b.1 ≠ .eq :=
    Std.ExtTreeMap.distinct_keys_toList
  refine List.pairwise_map.mpr (hkeys.imp ?_)
  intro a b hne heq
  exact hne (Std.LawfulEqCmp.compare_eq_iff_eq.mpr heq)

theorem nodup_toList : vars.toList.Nodup := by
  refine List.Pairwise.of_map Prod.fst ?_ (nodup_names vars)
  intro a b hne heq
  exact hne (congrArg Prod.fst heq)

end Variables

end VmodCfg.File
