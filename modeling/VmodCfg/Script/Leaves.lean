import VmodCfg.Script.Incr
import VmodCfg.Script.LockOrder

/-!
# Code that leaves a global variable alone

`Leaves` says of the C code that none of its operations changes the variable. `Plain` says of the
code of a script that it is outside of the calls of `shared.incr` that increment the variable, and
writes it by such calls only; a thread at such code leaves the variable alone.
-/

namespace VmodCfg.Shared

open Locking Machine Script

/-! ## The C code -/

section Keeps

variable {R A B : Type} {key : CString}

def KeepsVar (key : CString) (upd : Object R × Local → Object R × Local) : Prop :=
  ∀ o l, (upd (o, l)).1.vars.list[key]? = o.vars.list[key]?

/-- The code leaves the global variable alone, and its result meets `Q`. -/
abbrev Leaves (key : CString) (Q : A → Prop) (p : Proc R A) : Prop := p.Always (KeepsVar key) Q

theorem keepsVar_id : KeepsVar (R := R) key id := fun _ _ => rfl

theorem leaves_peek (f : Object R → Local → A) : Leaves key (fun _ => True) (peek f) :=
  always_peek keepsVar_id fun _ _ => trivial

theorem leaves_modify {f : Object R × Local → Object R × Local} (hf : KeepsVar key f) :
    Leaves key (fun _ => True) (modify f) :=
  always_modify hf trivial

theorem leaves_pure (a : A) : Leaves (R := R) key (fun _ => True) (pure a) := trivial

theorem leaves_runIf {c : Prop} [Decidable c] {p : Proc R Unit}
    (hp : c → Leaves key (fun _ => True) p) : Leaves key (fun _ => True) (runIf c p) := by
  unfold runIf
  split
  · rename_i hc
    exact hp hc
  · exact leaves_pure ()

theorem leaves_getIsLocked : Leaves (R := R) key (fun _ => True) getIsLocked := leaves_peek _

theorem leaves_withVars {b : Bool} {mode : Mode} {p : Proc R A}
    (hp : Leaves key (fun _ => True) p) : Leaves key (fun _ => True) (withVars b mode p) :=
  .ite hp (.guarded keepsVar_id hp)

theorem leaves_withKey {k : Option CString} {a : A} {p : CString → Proc R A}
    (hp : ∀ k', k = some k' → Leaves key (fun _ => True) (p k')) :
    Leaves key (fun _ => True) (withKey k a p) := by
  unfold withKey
  cases k with
  | none => exact leaves_pure a
  | some k' => exact .ite (hp k' rfl) (leaves_pure a)

theorem leaves_sharedGet (k scope : Option CString) (room : Bool) :
    Leaves (R := R) key (fun _ => True) (sharedGet k scope room) := by
  refine leaves_withKey fun k' _ => leaves_getIsLocked.bind fun b _ => ?_
  unfold varnishSharedGetCommand
  refine .ite (.bind (.ite (leaves_peek _) (leaves_pure _)) fun found _ => ?_) (leaves_pure _)
  cases found with
  | some value => exact leaves_pure _
  | none => exact .ite (leaves_withVars (leaves_peek _)) (leaves_pure _)

theorem keepsVar_globalSet {k : CString} (hk : k ≠ key) (value : CString) :
    KeepsVar (R := R) key
      fun x => ({ x.1 with vars := globalSet x.1.vars k value }, x.2) := by
  intro o l
  show (globalSet o.vars k value).list[key]? = _
  rw [globalSet_list, Function.update_of_ne hk.symm]

theorem keepsVar_globalUnset {k : CString} (hk : k ≠ key) :
    KeepsVar (R := R) key fun x => ({ x.1 with vars := globalUnset x.1.vars k }, x.2) := by
  intro o l
  show (globalUnset o.vars k).list[key]? = _
  rw [globalUnset_list, Function.update_of_ne hk.symm]

theorem leaves_sharedSet {k scope : Option CString}
    (hk : k = some key → scope.getD scopeTask ≠ scopeGlobal) (value : Option CString)
    (room : Room) : Leaves (R := R) key (fun _ => True) (sharedSet k value scope room) := by
  refine leaves_withKey fun k' hk' => ?_
  cases value with
  | none => exact leaves_pure ()
  | some value =>
    refine leaves_getIsLocked.bind fun b _ => ?_
    unfold varnishSharedSetCommand
    refine .ite (leaves_modify fun _ _ => rfl) (leaves_runIf fun hglobal => ?_)
    refine leaves_withVars (leaves_modify (keepsVar_globalSet ?_ value))
    rintro rfl
    exact hk hk' hglobal

theorem leaves_sharedUnset {k scope : Option CString}
    (hk : k = some key → scope.getD scopeAll ≠ scopeGlobal ∧ scope.getD scopeAll ≠ scopeAll) :
    Leaves (R := R) key (fun _ => True) (sharedUnset k scope) := by
  refine leaves_withKey fun k' hk' => leaves_getIsLocked.bind fun b _ => ?_
  unfold varnishSharedUnsetCommand
  refine .bind (leaves_runIf fun _ => leaves_modify fun _ _ => rfl) fun _ _ => ?_
  refine leaves_runIf fun hglobal => leaves_withVars (leaves_modify (keepsVar_globalUnset ?_))
  rintro rfl
  exact hglobal.elim (hk hk').1 (hk hk').2

theorem leaves_initRegexp (X : Vre R) (regexp : CString) (cache : Bool) :
    Leaves key (fun _ => True) (initRegexp X regexp cache) := by
  unfold initRegexp
  refine .bind (.ite (.guarded keepsVar_id (leaves_peek _)) (leaves_pure _)) fun found _ => ?_
  cases found with
  | some re => exact leaves_pure _
  | none =>
    cases X.compile regexp with
    | none => exact leaves_pure _
    | some re =>
      refine .ite (.guarded keepsVar_id (.bind (leaves_peek _) fun cached _ => ?_)) (leaves_pure _)
      exact .bind (leaves_modify fun _ _ => rfl) fun _ _ => leaves_pure _

theorem leaves_regmatch (X : Vre R) (string regexp : Option CString) (cache room : Bool) :
    Leaves key (fun _ => True) (regmatch X string regexp cache room) := by
  unfold regmatch varnishRegmatchCommand
  split
  · exact .bind (leaves_initRegexp X _ cache) fun re _ => leaves_pure _
  · exact leaves_pure _

theorem leaves_regsub (X : Vre R) (string regexp sub : Option CString) (cache all room : Bool) :
    Leaves key (fun _ => True) (regsub X string regexp sub cache all room) := by
  unfold regsub varnishRegsubCommand
  split
  · exact .bind (leaves_initRegexp X _ cache) fun re _ => leaves_pure _
  · exact leaves_pure _

theorem keepsVar_putIsLocked (b : Bool) : KeepsVar (R := R) key (putIsLocked b) := by
  intro o l
  unfold putIsLocked
  split <;> rfl

theorem leaves_enterEval : Leaves (R := R) key (fun _ => True) enterEval :=
  leaves_getIsLocked.bind fun _ _ =>
    .bind (leaves_runIf fun _ => ⟨keepsVar_putIsLocked true, fun _ => trivial⟩) fun _ _ => trivial

theorem leaves_leaveEval (b : Bool) : Leaves (R := R) key (fun _ => True) (leaveEval b) :=
  leaves_runIf fun _ => ⟨keepsVar_putIsLocked false, fun _ => trivial⟩

theorem leaves_underMutex {p : Proc R A} (hp : Leaves key (fun _ => True) p) :
    Leaves key (fun _ => True) (underMutex p) :=
  .guarded keepsVar_id hp

theorem leaves_updateStats (f : Stats → Stats) :
    Leaves (R := R) key (fun _ => True) (updateStats f) :=
  leaves_underMutex (leaves_modify fun _ _ => rfl)

theorem leaves_lockEngineSection (cfg : ScriptCfg) (waited : Bool) (memory : Int) :
    Leaves (R := R) key (fun _ => True) (lockEngineSection cfg waited memory) :=
  .bind (leaves_underMutex (leaves_modify fun _ _ => rfl)) fun _ _ => leaves_peek _

theorem leaves_unlockEngineSection (memory : Int) :
    Leaves (R := R) key (fun _ => True) (unlockEngineSection memory) := by
  refine leaves_underMutex (leaves_modify fun o l => ?_)
  simp only
  split <;> rfl

theorem leaves_cycleSection (cfg : ScriptCfg) (gcCollect : Bool) :
    Leaves (R := R) key (fun _ => True) (cycleSection cfg gcCollect) := by
  refine .bind (leaves_modify fun o l => ?_) fun _ _ => leaves_peek _
  simp only
  split <;> rfl

theorem leaves_endExecution (cfg : ScriptCfg) (success gcCollect : Bool) (memory : Int) :
    Leaves (R := R) key (fun _ => True) (endExecution cfg success gcCollect memory) :=
  .bind (leaves_updateStats _) fun _ _ => .bind (leaves_cycleSection cfg gcCollect) fun _ _ =>
    .bind (leaves_runIf fun _ => leaves_updateStats _) fun _ _ => leaves_unlockEngineSection memory

theorem leaves_vmodScriptStats : Leaves (R := R) key (fun _ => True) vmodScriptStats :=
  .guarded keepsVar_id (.guarded keepsVar_id (leaves_underMutex (leaves_peek _)))

theorem leaves_vmodScriptCounter (name : CString) :
    Leaves (R := R) key (fun _ => True) (vmodScriptCounter name) := by
  unfold vmodScriptCounter
  iterate 2 refine .ite (leaves_peek _) ?_
  refine .ite (leaves_underMutex (leaves_peek _)) ?_
  iterate 8 refine .ite (leaves_peek _) ?_
  exact leaves_pure _

end Keeps

/-! ## Code outside of the calls of `shared.incr` -/

section Plain

variable {K D V R : Type} {N : Numbers D} (I : Integers N) (key : CString)

/-- The program point is outside of the calls that increment the global variable. -/
def Label.Plain : Label K D V → Prop
  | .point _ => True
  | .incr c next => (Source.incr c next).OnlyIncr I key
  | .back c _ next => ¬ c.On key ∧ ∀ v, (next v).OnlyIncr I key

def Code.Plain : Code (Label K D V) V → Prop
  | .jump k => k.Plain I key
  | .ret _ | .raise _ => True
  | .get _ _ next => ∀ value, (next value).Plain
  | .set k _ scope next => (k = some key → scope.getD scopeTask ≠ scopeGlobal) ∧ next.Plain
  | .unset k scope next =>
    (k = some key → scope.getD scopeAll ≠ scopeGlobal ∧ scope.getD scopeAll ≠ scopeAll) ∧ next.Plain
  | .regmatch _ _ _ next => ∀ b, (next b).Plain
  | .regsub _ _ _ _ _ next => ∀ value, (next value).Plain
  | .eval body next => body.Plain ∧ ∀ v, (next v).Plain
  | .protect body next => body.Plain ∧ ∀ r, (next r).Plain

def Frame.Plain : Frame (Label K D V) V → Prop
  | .eval _ next => ∀ v, (next v).Plain I key
  | .protect next => ∀ r, (next r).Plain I key
  | .accessor rest => ∀ c ∈ rest, c.Plain I key

def Ctl.Plain : Ctl (Label K D V) V → Prop
  | .running _ c stack => c.Plain I key ∧ ∀ f ∈ stack, f.Plain I key
  | .storing _ rest => ∀ c ∈ rest, c.Plain I key
  | _ => True

variable {I key}

theorem plain_code {c : Source K D V} (h : c.OnlyIncr I key) : c.code.Plain I key := by
  induction c with
  | jump k => trivial
  | ret v => trivial
  | raise e => trivial
  | get k scope next ih => exact fun value => ih value (h value)
  | set k value scope next ih => exact ⟨h.1, ih h.2⟩
  | unset k scope next ih => exact ⟨h.1, ih h.2⟩
  | regmatch string regexp cache next ih => exact fun b => ih b (h b)
  | regsub string regexp sub cache all next ih => exact fun value => ih value (h value)
  | eval body next ihb ihn => exact ⟨ihb h.1, fun v => ihn v (h.2 v)⟩
  | protect body next ihb ihn => exact ⟨ihb h.1, fun r => ihn r (h.2 r)⟩
  | incr c next ih => exact h

end Plain

section Leaves

variable {K D V R : Type} {P : Sources K D V} {I : Integers P.numbers} {key : CString}

/-- The helper leaves the other variables alone, and the other scopes of this one. -/
theorem plain_incrBody {c : Incr D} (hc : ¬ c.On key) : (P.lang.incrBody c).Plain I key := by
  have hset : ∀ x : D, (P.lang.set c.key (.number x) c.scope
      (.ret (P.value (.number x)))).Plain I key := by
    intro x
    refine ⟨fun hk hscope => hc ⟨hk, ?_⟩, trivial⟩
    cases hs : c.scope with
    | none =>
      rw [hs] at hscope
      exact absurd hscope scopes_ne.1
    | some scope =>
      rw [hs] at hscope
      exact congrArg some hscope
  intro value
  cases value with
  | none => exact hset _
  | some svalue =>
    simp only
    split
    · exact hset _
    · trivial

theorem plain_defs (hP : P.OnlyIncr I key) {k : Label K D V} (hk : k.Plain I key)
    (hc : ∀ c next, k = .incr c next → ¬ c.On key) : (P.lang.defs k).Plain I key := by
  cases k with
  | point k => exact plain_code (hP.defs k)
  | incr c next =>
    have hon := hc c next rfl
    exact ⟨plain_incrBody hon, fun v => ⟨hon, hk.2⟩⟩
  | back c v next => exact plain_code (hk.2 v)

theorem not_on_of_amount {c : Incr D}
    (h : c.On key → ∃ x, c.increment = .number x ∧ I.ofInt (I.toInt x) = x)
    (hc : c.amount I key = none) : ¬ c.On key := by
  intro hon
  obtain ⟨x, hx, -⟩ := h hon
  simp [Incr.amount, hon, hx] at hc

variable {cfg : ScriptCfg} {X : Vre R} {j : Job} {stack : List (Frame (Label K D V) V)}

theorem leaves_command {A : Type} {p : Proc R A} {f : A → Ctl (Label K D V) V}
    (hp : Leaves key (fun _ => True) p) (hf : ∀ a, (f a).Plain I key) :
    Leaves key (Ctl.Plain I key) (p >>= fun a => pure (f a)) :=
  hp.bind fun a _ => hf a

theorem leaves_return (hP : P.OnlyIncr I key) (hstack : ∀ f ∈ stack, f.Plain I key) (v : V) :
    Leaves (R := R) key (Ctl.Plain I key) (return_ P.lang j v stack) := by
  cases stack with
  | nil =>
    intro c hc
    obtain ⟨c', hc', rfl⟩ := List.mem_map.mp hc
    exact plain_code (hP.accessors v c' hc')
  | cons frame stack =>
    have hframe := hstack frame List.mem_cons_self
    have hrest : ∀ f ∈ stack, f.Plain I key := fun f hf => hstack f (List.mem_cons_of_mem _ hf)
    cases frame with
    | eval b next => exact leaves_command (leaves_leaveEval b) fun _ => ⟨hframe v, hrest⟩
    | protect next => exact ⟨hframe (.ok v), hrest⟩
    | accessor rest => exact hframe

theorem leaves_raise (hstack : ∀ f ∈ stack, f.Plain I key) {e : V}
    {p : Proc R (Ctl (Label K D V) V)} (hp : raise j e stack = some p) :
    Leaves key (Ctl.Plain I key) p := by
  cases stack with
  | nil =>
    cases hp
    trivial
  | cons frame stack =>
    have hframe := hstack frame List.mem_cons_self
    have hrest : ∀ f ∈ stack, f.Plain I key := fun f hf => hstack f (List.mem_cons_of_mem _ hf)
    cases frame with
    | eval b next =>
      cases hp
      exact leaves_command (leaves_leaveEval b) fun _ => ⟨trivial, hrest⟩
    | protect next =>
      cases hp
      exact ⟨hframe (.error e), hrest⟩
    | accessor rest => cases hp

theorem leaves_interpret (hP : P.OnlyIncr I key) {c : Code (Label K D V) V} {room : Room}
    (hc : c.Plain I key) (hstack : ∀ f ∈ stack, f.Plain I key)
    (hev : incrEvent I key (.running j c stack) (.run room) = none)
    {p : Proc R (Ctl (Label K D V) V)} (hp : interpret X P.lang j stack room c = some p) :
    Leaves key (Ctl.Plain I key) p := by
  cases c with
  | jump k =>
    cases hp
    refine ⟨plain_defs hP hc ?_, hstack⟩
    rintro c next rfl
    exact not_on_of_amount hc.1 (Option.map_eq_none_iff.mp hev)
  | ret v =>
    cases hp
    exact leaves_return hP hstack v
  | raise e => exact leaves_raise hstack hp
  | get k scope next =>
    cases hp
    exact leaves_command (leaves_sharedGet k scope room.value) fun value => ⟨hc value, hstack⟩
  | set k value scope next =>
    cases hp
    exact leaves_command (leaves_sharedSet hc.1 value room) fun _ => ⟨hc.2, hstack⟩
  | unset k scope next =>
    cases hp
    exact leaves_command (leaves_sharedUnset hc.1) fun _ => ⟨hc.2, hstack⟩
  | regmatch string regexp cache next =>
    cases hp
    refine leaves_command (leaves_regmatch X string regexp cache room.value) fun r => ⟨?_, hstack⟩
    cases r with
    | ok b => exact hc b
    | error message => trivial
  | regsub string regexp sub cache all next =>
    cases hp
    refine leaves_command (leaves_regsub X string regexp sub cache all room.value) fun r =>
      ⟨?_, hstack⟩
    cases r with
    | ok value => exact hc value
    | error message => trivial
  | eval body next =>
    cases hp
    refine leaves_command leaves_enterEval fun b => ⟨hc.1, fun f hf => ?_⟩
    rcases List.mem_cons.mp hf with rfl | hf
    · exact hc.2
    · exact hstack f hf
  | protect body next =>
    cases hp
    refine ⟨hc.1, fun f hf => ?_⟩
    rcases List.mem_cons.mp hf with rfl | hf
    · exact hc.2
    · exact hstack f hf

theorem leaves_lockEngine (waited : Bool) (memory : Int) :
    Leaves (R := R) (A := Ctl (Label K D V) V) key (Ctl.Plain I key)
      (lockEngine cfg j waited memory) := by
  refine (leaves_lockEngineSection cfg waited memory).bind fun engine _ => ?_
  cases engine <;> trivial

theorem leaves_vmodScriptExecute (code : Option CString) (gcCollect room : Bool) (memory : Int) :
    Leaves (R := R) (A := Ctl (Label K D V) V) key (Ctl.Plain I key)
      (vmodScriptExecute cfg code gcCollect room memory) := by
  unfold vmodScriptExecute
  cases code with
  | some code => exact leaves_lockEngine false memory
  | none =>
    refine (leaves_underMutex (leaves_peek _)).bind fun function _ => ?_
    cases function with
    | none => trivial
    | some f => exact .ite (leaves_lockEngine false memory) trivial

theorem leaves_lookup (hP : P.OnlyIncr I key) (known : Bool) :
    Leaves (R := R) key (Ctl.Plain I key) (lookup P.lang j known) := by
  refine leaves_command (leaves_runIf fun _ => leaves_updateStats _) fun _ => ?_
  unfold call
  split
  · rename_i c hparse
    obtain ⟨c', hc', rfl⟩ := Option.map_eq_some_iff.mp hparse
    split
    · exact ⟨plain_code (hP.parse _ c' hc'), fun f hf => by cases hf⟩
    · trivial
  · trivial

theorem leaves_finish (success : Bool) (memory : Int) :
    Leaves (R := R) (A := Ctl (Label K D V) V) key (Ctl.Plain I key)
      (finish cfg j success memory) := by
  refine (leaves_endExecution cfg success j.gcCollect memory).bind fun _ _ => ?_
  exact leaves_command (leaves_runIf fun _ => leaves_underMutex (leaves_modify fun _ _ => rfl))
    fun _ => trivial

/-- **Code between two control points** leaves the variable alone, outside of the calls. -/
theorem leaves_resume (hP : P.OnlyIncr I key) {a : Ctl (Label K D V) V} {ev : Event}
    (ha : a.Plain I key) (hev : incrEvent I key a ev = none) {p : Proc R (Ctl (Label K D V) V)}
    (hp : resume cfg X P.lang a ev = some p) : Leaves key (Ctl.Plain I key) p := by
  unfold resume at hp
  split at hp
  · -- `newTask`
    cases hp
    exact leaves_command (leaves_modify fun _ _ => rfl) fun _ => trivial
  · -- `stats`
    cases hp
    exact leaves_command leaves_vmodScriptStats fun _ => trivial
  · -- `counter`
    cases hp
    exact leaves_command (leaves_vmodScriptCounter _) fun _ => trivial
  · -- `execute`
    cases hp
    exact leaves_vmodScriptExecute _ _ _ _
  · -- `check`
    cases hp
    exact leaves_lockEngine false _
  · -- `wake`
    cases hp
    exact leaves_lockEngine true _
  · -- `lookup`
    cases hp
    exact leaves_lookup hP _
  · -- `run`
    exact leaves_interpret hP ha.1 ha.2 hev hp
  · -- `read`
    cases hp
    refine ⟨ha _ List.mem_cons_self, fun f hf => ?_⟩
    rw [List.mem_singleton] at hf
    subst hf
    exact fun c hc => ha c (List.mem_cons_of_mem _ hc)
  · -- `store`
    cases hp
    trivial
  · -- `finish`
    cases hp
    exact leaves_finish _ _
  · cases hp

end Leaves

end VmodCfg.Shared
