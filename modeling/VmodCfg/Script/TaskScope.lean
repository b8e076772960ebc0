import VmodCfg.Script.Shared

/-!
# Task-scope sets that fail

`varnish_shared_set_command` with scope `task` takes up to three pieces of the
workspace: the node, the copy of the name and the copy of the value. The node is
in the tree before the value is copied, so a failure can leave a variable with no
value, and what was taken before the failure is not given back.
`varnish_shared_get_command` sees both: the variable hides the global one, and the
copy of a global value may no longer fit.
-/

namespace VmodCfg.Script

/-- The workspace library: `round` is the rounding of `WS_Alloc`, `node` is `sizeof(variable_t)`.
The state of a workspace is the bytes that are free. -/
structure WsLib where
  round : Nat → Nat
  node : Nat

section Defs

variable (ws : WsLib)

/-- `WS_Alloc`: what is left, if the bytes fit. -/
def WsLib.alloc (free bytes : Nat) : Option Nat :=
  if ws.round bytes ≤ free then some (free - ws.round bytes) else none

/-- `WS_Copy(ws, s, -1)` -/
def WsLib.copy (free : Nat) (s : CString) : Option Nat := ws.alloc free (s.bytes.length + 1)

def WsLib.Fits (free : Nat) (s : CString) : Prop := (ws.copy free s).isSome

instance (free : Nat) (s : CString) : Decidable (ws.Fits free s) :=
  inferInstanceAs (Decidable (_ = true))

/-- The two scopes as a task sees them, and its workspace. -/
structure TaskView where
  task : TaskVariables
  global : GlobalVariables
  free : Nat

variable (s : TaskView)

/-- The end of the task scope of `varnish_shared_set_command`: the variable is in the tree. -/
def copyValue (key value : CString) : Bool × TaskView :=
  match ws.copy s.free value with
  | none => (false, { s with task := s.task.insert key none })
  | some free => (true, { s with task := s.task.insert key (some value), free := free })

/-- `varnish_shared_set_command` with scope `task`; the result is false after `FAIL_WS`. -/
def setTaskScope (key value : CString) : Bool × TaskView :=
  match s.task[key]? with
  | none =>
    match ws.alloc s.free ws.node with
    | none => (false, s)
    | some free =>
      match ws.copy free key with
      | none => (false, { s with free := free })
      | some free => copyValue ws { s with free := free } key value
  | some _ => copyValue ws s key value

/-- `varnish_shared_get_command` -/
def TaskView.get (key scope : CString) : Option CString :=
  if scope = scopeTask ∨ scope = scopeGlobal ∨ scope = scopeAll then
    match (if scope = scopeTask ∨ scope = scopeAll then s.task[key]? else none) with
    | some value => value
    | none =>
      if scope = scopeGlobal ∨ scope = scopeAll then
        (s.global.list.findVariable key).filter fun value => ws.Fits s.free value
      else none
  else none

/-- Every get returns in `s'` what it returns in `s`. -/
def SameGets (s s' : TaskView) : Prop :=
  ∀ key scope, s'.get ws key scope = s.get ws key scope

/-- What fits `free` still fits `free'`. -/
def StillFits (free free' : Nat) : Prop :=
  ∀ key value, s.global.list.findVariable key = some value → ws.Fits free value →
    ws.Fits free' value

/-- The condition under which nobody notices that the set failed. An existing variable already had
no value; a new one lacked room for the node, or took the node from the workspace and lacked room
for the name, or took both and lacked room for the value. -/
def FailsUnseen (key : CString) : Prop :=
  match s.task[key]? with
  | some value => value = none
  | none =>
    match ws.alloc s.free ws.node with
    | none => True
    | some free =>
      match ws.copy free key with
      | none => StillFits ws s s.free free
      | some free => StillFits ws s s.free free ∧
          ∀ value, s.global.list.findVariable key = some value → ¬ ws.Fits s.free value

end Defs

variable {ws : WsLib} {s s' : TaskView} {key value : CString}

/-! ## The gets -/

theorem get_task (key : CString) : s.get ws key scopeTask = (s.task[key]?).getD none := by
  unfold TaskView.get
  rw [if_pos (.inl rfl), if_pos (.inl rfl)]
  cases s.task[key]? <;> rfl

theorem get_global (key : CString) : s.get ws key scopeGlobal =
    (s.global.list.findVariable key).filter fun value => ws.Fits s.free value := by
  have hne : ¬ (scopeGlobal = scopeTask ∨ scopeGlobal = scopeAll) := by decide
  unfold TaskView.get
  rw [if_pos (.inr (.inl rfl)), if_neg hne, if_pos (.inl rfl)]

theorem get_all (key : CString) :
    s.get ws key scopeAll = (s.task[key]?).getD (s.get ws key scopeGlobal) := by
  rw [get_global]
  unfold TaskView.get
  rw [if_pos (.inr (.inr rfl)), if_pos (.inr rfl), if_pos (.inr rfl)]
  cases s.task[key]? <;> rfl

theorem get_other {scope : CString} (h : ¬ (scope = scopeTask ∨ scope = scopeGlobal ∨
    scope = scopeAll)) (key : CString) : s.get ws key scope = none := if_neg h

theorem sameGets_iff : SameGets ws s s' ↔ ∀ key,
    s'.get ws key scopeTask = s.get ws key scopeTask ∧
    s'.get ws key scopeGlobal = s.get ws key scopeGlobal ∧
    s'.get ws key scopeAll = s.get ws key scopeAll := by
  constructor
  · intro h key
    exact ⟨h key _, h key _, h key _⟩
  · intro h key scope
    obtain ⟨htask, hglobal, hall⟩ := h key
    by_cases hscope : scope = scopeTask ∨ scope = scopeGlobal ∨ scope = scopeAll
    · obtain rfl | rfl | rfl := hscope
      · exact htask
      · exact hglobal
      · exact hall
    · rw [get_other hscope, get_other hscope]

theorem get_global_eq_some_iff : s.get ws key scopeGlobal = some value ↔
    s.global.list.findVariable key = some value ∧ ws.Fits s.free value := by
  rw [get_global, Option.filter_eq_some_iff]
  simp

theorem WsLib.Fits.mono {free free' : Nat} (h : ws.Fits free' value) (hle : free' ≤ free) :
    ws.Fits free value := by
  unfold WsLib.Fits WsLib.copy WsLib.alloc at h ⊢
  by_cases hfit : ws.round (value.bytes.length + 1) ≤ free'
  · rw [if_pos (by omega)]
    rfl
  · rw [if_neg hfit] at h
    cases h

theorem WsLib.alloc_le {free bytes free' : Nat} (h : ws.alloc free bytes = some free') :
    free' ≤ free := by
  unfold WsLib.alloc at h
  split at h
  · cases h
    omega
  · cases h

theorem WsLib.copy_le {free free' : Nat} (h : ws.copy free value = some free') : free' ≤ free :=
  WsLib.alloc_le h

theorem get_global_congr {free' : Nat} (hle : free' ≤ s.free) (task : TaskVariables) :
    (∀ key, ({ s with task := task, free := free' } : TaskView).get ws key scopeGlobal =
      s.get ws key scopeGlobal) ↔ StillFits ws s s.free free' := by
  constructor
  · intro h key value hfind hfits
    have hget := h key
    rw [get_global_eq_some_iff.mpr ⟨hfind, hfits⟩, get_global_eq_some_iff] at hget
    exact hget.2
  · intro h key
    rw [get_global, get_global]
    show (s.global.list.findVariable key).filter (fun value => decide (ws.Fits free' value)) = _
    cases hfind : s.global.list.findVariable key with
    | none => rfl
    | some value =>
      have hsame : ws.Fits free' value ↔ ws.Fits s.free value :=
        ⟨fun hfits => hfits.mono hle, h key value hfind⟩
      simp only [Option.filter, hsame]

theorem sameGets_free {free' : Nat} (hle : free' ≤ s.free) :
    SameGets ws s { s with free := free' } ↔ StillFits ws s s.free free' := by
  rw [sameGets_iff, ← get_global_congr hle s.task]
  constructor
  · intro h key
    exact (h key).2.1
  · intro h key
    refine ⟨by rw [get_task, get_task], h key, ?_⟩
    rw [get_all, get_all]
    cases s.task[key]? with
    | none => exact h key
    | some value => rfl

/-- A variable with no value is noticed if there was one with a value, or if there was none and the
global one is hidden. -/
theorem sameGets_insert {free' : Nat} (hle : free' ≤ s.free) :
    SameGets ws s { s with task := s.task.insert key none, free := free' } ↔
      StillFits ws s s.free free' ∧ (∀ value, s.task[key]? = some value → value = none) ∧
        (s.task[key]? = none →
          ∀ value, s.global.list.findVariable key = some value → ¬ ws.Fits s.free value) := by
  have hself : (s.task.insert key none)[key]? = some none :=
    Std.ExtTreeMap.getElem?_insert_self
  have hother : ∀ k, k ≠ key → (s.task.insert key none)[k]? = s.task[k]? := by
    intro k hk
    rw [Std.ExtTreeMap.getElem?_insert, if_neg]
    exact fun heq => hk (compare_eq.mp heq).symm
  rw [sameGets_iff, ← get_global_congr hle (s.task.insert key none)]
  constructor
  · intro h
    refine ⟨fun k => (h k).2.1, fun value hkey => ?_, fun hkey value hfind hfits => ?_⟩
    · have htask := (h key).1
      rw [get_task, get_task, hkey] at htask
      simpa [hself] using htask.symm
    · have hall := (h key).2.2
      rw [get_all, get_all, hkey, get_global_eq_some_iff.mpr ⟨hfind, hfits⟩] at hall
      simp at hall
  · rintro ⟨hglobal, hvalue, hhidden⟩ k
    by_cases hk : k = key
    · subst hk
      refine ⟨?_, hglobal k, ?_⟩
      · rw [get_task, get_task]
        cases hkey : s.task[k]? with
        | none => simp
        | some value => simp [hvalue value hkey]
      · rw [get_all, get_all]
        cases hkey : s.task[k]? with
        | none =>
          have hnone : s.get ws k scopeGlobal = none := by
            rw [Option.eq_none_iff_forall_ne_some]
            intro value hget
            obtain ⟨hfind, hfits⟩ := get_global_eq_some_iff.mp hget
            exact hhidden hkey value hfind hfits
          simp [hnone]
        | some value => simp [hvalue value hkey]
    · refine ⟨?_, hglobal k, ?_⟩
      · rw [get_task, get_task]
        simp only [hother k hk]
      · rw [get_all, get_all]
        simp only [hother k hk, hglobal k]

/-! ## The set -/

/-- The room that the allocations of a set have, one after the other. -/
def setRoom (ws : WsLib) (s : TaskView) (key value : CString) : Room :=
  match s.task[key]? with
  | some _ => ⟨true, true, (ws.copy s.free value).isSome⟩
  | none =>
    match ws.alloc s.free ws.node with
    | none => ⟨false, false, false⟩
    | some free =>
      match ws.copy free key with
      | none => ⟨true, false, false⟩
      | some free => ⟨true, true, (ws.copy free value).isSome⟩

/-- The variables are those of `taskSet`, with the room that the workspace gives. -/
theorem setTaskScope_task (ws : WsLib) (s : TaskView) (key value : CString) :
    (setTaskScope ws s key value).2.task = taskSet s.task key value (setRoom ws s key value) := by
  unfold setTaskScope setRoom taskSet copyValue
  cases hkey : s.task[key]? with
  | some old => cases ws.copy s.free value <;> simp
  | none =>
    cases hnode : ws.alloc s.free ws.node with
    | none => simp
    | some free =>
      cases hname : ws.copy free key with
      | none => simp [hname]
      | some free' => cases hvalue : ws.copy free' value <;> simp [hname, hvalue]

theorem copyValue_fails (h : (copyValue ws s key value).1 = false) :
    (copyValue ws s key value).2 = { s with task := s.task.insert key none } := by
  unfold copyValue at h ⊢
  cases hvalue : ws.copy s.free value with
  | none => rfl
  | some free =>
    rw [hvalue] at h
    cases h

/-- **A failed task-scope set changes nothing** that a get can see exactly under `FailsUnseen`. -/
theorem failed_set_unseen_iff (h : (setTaskScope ws s key value).1 = false) :
    SameGets ws s (setTaskScope ws s key value).2 ↔ FailsUnseen ws s key := by
  unfold setTaskScope at h ⊢
  unfold FailsUnseen
  cases hkey : s.task[key]? with
  | some old =>
    simp only [hkey] at h ⊢
    rw [copyValue_fails h, sameGets_insert le_rfl]
    simp [hkey, StillFits]
  | none =>
    simp only [hkey] at h ⊢
    cases hnode : ws.alloc s.free ws.node with
    | none => simp [SameGets]
    | some free =>
      have hle := WsLib.alloc_le hnode
      simp only [hnode] at h ⊢
      cases hname : ws.copy free key with
      | none =>
        exact sameGets_free hle
      | some free' =>
        have hle' : free' ≤ s.free := (WsLib.copy_le hname).trans hle
        simp only [hname] at h ⊢
        rw [copyValue_fails h]
        simp [sameGets_insert hle', hkey]

/-- Pointers of eight bytes, and a node of fifty-six. -/
abbrev ws64 : WsLib := ⟨fun n => (n + 7) / 8 * 8, 56⟩

/-- The global variable `k` has the value `v`; the task has no variables. -/
abbrev shadowView (free : Nat) : TaskView :=
  ⟨∅, ⟨1, Std.ExtTreeMap.empty.insert (.ofBytes [107]) (.ofBytes [118])⟩, free⟩

/-- There is no room for the node. -/
theorem failed_set_unseen_iff_full :
    SameGets ws64 (shadowView 16) (setTaskScope ws64 (shadowView 16) (.ofBytes [107]) .empty).2 :=
  (@failed_set_unseen_iff ws64 (shadowView 16) (.ofBytes [107]) .empty (by decide +kernel)).mpr
    (by simp [FailsUnseen, WsLib.alloc])

/-- There is room for the node and the name, but not for the value: the global variable is
hidden. -/
theorem failed_set_shadows :
    (setTaskScope ws64 (shadowView 64) (.ofBytes [107]) (.ofBytes [118])).1 = false ∧
      (shadowView 64).get ws64 (.ofBytes [107]) scopeAll = some (.ofBytes [118]) ∧
      (setTaskScope ws64 (shadowView 64) (.ofBytes [107]) (.ofBytes [118])).2.get ws64
        (.ofBytes [107]) scopeAll = none ∧
      ¬ SameGets ws64 (shadowView 64)
        (setTaskScope ws64 (shadowView 64) (.ofBytes [107]) (.ofBytes [118])).2 := by
  refine ⟨by decide +kernel, by decide +kernel, by decide +kernel, fun h => ?_⟩
  have hget := h (.ofBytes [107]) scopeAll
  revert hget
  decide +kernel

end VmodCfg.Script
