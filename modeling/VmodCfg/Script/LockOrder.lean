import VmodCfg.Script.LockEffects

/-!
# The lock discipline of scripts

A piece of C code is `Neutral` when it gives back the locks it takes and keeps
the engine; the code of `eval`, of `lock_engine` and of `unlock_engine`, which
does not, has its own rules. The stack of the interpreter tells which locks the
thread holds between two commands: none, or the one of the outermost `eval`.
-/

namespace VmodCfg.Shared

open Locking Machine Script

section Rules

variable {R : Type} {A B : Type} {cfg : ScriptCfg} {l : Local} {held : Holds}

/-! ## Neutral code -/

/-- What is known of the engine and of the locks of a thread. -/
abbrev Pre := Option EngineId → Holds → Prop

/-- Code that keeps the engine, and holds at its end the locks it held before. -/
def Neutral (cfg : ScriptCfg) (P : Pre) (p : Proc R A) : Prop :=
  ∀ l held, P l.engine held →
    wp (contract cfg.pool) p (fun _ l' held' => l'.engine = l.engine ∧ held' = held) l held

theorem Neutral.wp {P : Pre} {p : Proc R A} (h : Neutral cfg P p) {Q : A → Local → Holds → Prop}
    (hP : P l.engine held) (hQ : ∀ a l', l'.engine = l.engine → Q a l' held) :
    Locking.wp (contract cfg.pool) p Q l held :=
  wp_mono (h l held hP) fun a l' held' hpost => by
    obtain ⟨hl, rfl⟩ := hpost
    exact hQ a l' hl

theorem Neutral.pure {P : Pre} (a : A) : Neutral cfg P (Pure.pure a : Proc R A) :=
  fun _ _ _ => ⟨rfl, rfl⟩

theorem Neutral.bind {P : Pre} {p : Proc R A} {f : A → Proc R B} (hp : Neutral cfg P p)
    (hf : ∀ a, Neutral cfg P (f a)) : Neutral cfg P (p >>= f) := fun l held hP => by
  rw [wp_bind]
  apply hp.wp hP
  intro a l' hl
  rw [← hl] at hP ⊢
  exact hf a l' held hP

theorem Neutral.mono {P P' : Pre} {p : Proc R A} (h : Neutral cfg P p)
    (himp : ∀ e held, P' e held → P e held) : Neutral cfg P' p :=
  fun l held hP => h l held (himp _ _ hP)

theorem Neutral.ite {P : Pre} {p q : Proc R A} (c : Prop) [Decidable c] (hp : Neutral cfg P p)
    (hq : Neutral cfg P q) : Neutral cfg P (if c then p else q) := by
  split
  · exact hp
  · exact hq

theorem Neutral.runIf {P : Pre} {p : Proc R Unit} (c : Prop) [Decidable c]
    (hp : Neutral cfg P p) : Neutral cfg P (runIf c p) :=
  .ite c hp (.pure ())

/-- Operations that leave the states alone, and the lock of `eval` where it is. -/
theorem quiet_of {o : Op Lock Site} (ho : o.Disciplined held)
    (hmem : evalHold ∈ o.after held ↔ evalHold ∈ held) :
    (contract (R := R) cfg.pool).Quiet o l held :=
  ⟨ho, fun s _ => .quiet rfl (.refl s.pool) hmem⟩

theorem neutral_peek {P : Pre} (f : Object R → Local → A) : Neutral cfg P (peek f) :=
  fun _ _ _ => wp_peek (quiet_of trivial Iff.rfl) fun _ _ => ⟨rfl, rfl⟩

theorem neutral_modify {P : Pre} {f : Object R × Local → Object R × Local}
    (hf : ∀ o l, (f (o, l)).2.engine = l.engine ∧ SamePool cfg.pool o.pool (f (o, l)).1.pool) :
    Neutral cfg P (modify f) := fun l _ _ =>
  wp_modify fun o _ => ⟨.quiet (hf o l).1 (hf o l).2 Iff.rfl, (hf o l).1, rfl⟩

def Below (k : Lock) : Pre := fun _ held => ∀ x ∈ held, x.lock < k

/-- **Locks in order**: code under a lock is neutral for a thread that holds only locks below. -/
theorem neutral_guarded {P : Pre} {h : Hold Lock Site} (hsite : h.site = .command) {p : Proc R A}
    (hp : Neutral cfg P p)
    (hP : ∀ e held, Below h.lock e held → P e (h :: held)) :
    Neutral cfg (Below h.lock) (guarded h p) := fun l held hbelow => by
  have hne : h ≠ evalHold := by
    rintro rfl
    cases hsite
  have hmem : evalHold ∈ h :: held ↔ evalHold ∈ held := by simp [hne.symm]
  refine wp_guarded (quiet_of hbelow hmem) (hp.wp (hP _ _ hbelow) fun a l' hl => ?_)
  refine ⟨rfl, quiet_of ⟨h, List.mem_cons_self, rfl⟩ ?_, hl, rfl⟩
  simp [Op.after, hne.symm]

theorem neutral_guarded_any {h : Hold Lock Site} (hsite : h.site = .command) {p : Proc R A}
    (hp : Neutral cfg (fun _ _ => True) p) : Neutral cfg (Below h.lock) (guarded h p) :=
  neutral_guarded hsite hp fun _ _ _ => trivial

theorem Below.nil {k : Lock} {e : Option EngineId} : Below k e [] := fun _ h => by cases h

/-! ## The commands of scripts -/

/-- The locks of a thread that is in `eval` (`b`), or not. -/
def evalHolds (b : Bool) : Holds := if b then [evalHold] else []

/-- A thread with an engine, between two commands; `b` is the flag of the engine. -/
def Flagged (b : Bool) : Pre := fun e held => e.isSome ∧ held = evalHolds b

@[simp] theorem evalHold_mem_evalHolds (b : Bool) : evalHold ∈ evalHolds b ↔ b = true := by
  cases b <;> simp [evalHolds]

theorem Flagged.below {b : Bool} {k : Lock} {e : Option EngineId} (hk : Lock.vars < k)
    (h : Flagged b e held) : Below k e held := fun x hx => by
  rw [h.2] at hx
  cases b with
  | false => cases hx
  | true =>
    obtain rfl := List.mem_singleton.mp hx
    exact hk

theorem wp_getIsLocked {b : Bool} {Q : Bool → Local → Holds → Prop}
    (h : Flagged b l.engine held) (hQ : Q b l held) :
    wp (contract (R := R) cfg.pool) getIsLocked Q l held := by
  obtain ⟨e, he⟩ := Option.isSome_iff_exists.mp h.1
  apply wp_peek (quiet_of trivial Iff.rfl)
  intro o hview
  have hflag : isLocked o.pool e = b := by
    rw [Bool.eq_iff_iff, hview.flag e he, h.2, evalHold_mem_evalHolds]
  rw [he]
  show Q (isLocked o.pool e) l held
  rw [hflag]
  exact hQ

theorem neutral_getIsLocked {b : Bool} {f : Bool → Proc R A} (hf : Neutral cfg (Flagged b) (f b)) :
    Neutral cfg (Flagged b) (getIsLocked >>= f) := fun l held h => by
  rw [wp_bind]
  exact wp_getIsLocked h (hf l held h)

/-- A command takes the lock of the variables unless the thread has it. -/
theorem neutral_withVars {b : Bool} {mode : Mode} {p : Proc R A}
    (hp : Neutral cfg (fun _ _ => True) p) : Neutral cfg (Flagged b) (withVars b mode p) := by
  unfold withVars
  cases b with
  | true => exact hp.mono fun _ _ _ => trivial
  | false =>
    refine (neutral_guarded_any (h := ⟨.vars, mode, .command⟩) rfl hp).mono fun e held h => ?_
    rw [h.2]
    exact Below.nil

theorem neutral_varnishSharedGetCommand {b : Bool} (key scope : CString) (room : Bool) :
    Neutral cfg (Flagged b) (varnishSharedGetCommand (R := R) key scope b room) := by
  unfold varnishSharedGetCommand
  refine .ite _ (.bind (.ite _ (neutral_peek _) (.pure _)) fun found => ?_) (.pure _)
  cases found with
  | some value => exact .pure _
  | none => exact .ite _ (neutral_withVars (neutral_peek _)) (.pure _)

theorem neutral_varnishSharedSetCommand {b : Bool} (key value scope : CString) (room : Room) :
    Neutral cfg (Flagged b) (varnishSharedSetCommand (R := R) key value scope b room) := by
  unfold varnishSharedSetCommand
  refine .ite _ (neutral_modify fun o l => ⟨rfl, .refl o.pool⟩) (.runIf _ ?_)
  exact neutral_withVars (neutral_modify fun o l => ⟨rfl, .refl o.pool⟩)

theorem neutral_varnishSharedUnsetCommand {b : Bool} (key scope : CString) :
    Neutral cfg (Flagged b) (varnishSharedUnsetCommand (R := R) key scope b) := by
  unfold varnishSharedUnsetCommand
  refine .bind (.runIf _ (neutral_modify fun o l => ⟨rfl, .refl o.pool⟩)) fun _ => ?_
  exact .runIf _ (neutral_withVars (neutral_modify fun o l => ⟨rfl, .refl o.pool⟩))

theorem Neutral.withKey {P : Pre} {key : Option CString} {a : A} {p : CString → Proc R A}
    (hp : ∀ key, Neutral cfg P (p key)) : Neutral cfg P (withKey key a p) := by
  unfold Shared.withKey
  cases key with
  | none => exact .pure _
  | some key => exact .ite _ (hp key) (.pure _)

theorem neutral_initRegexp {b : Bool} (X : Vre R) (regexp : CString) (cache : Bool) :
    Neutral cfg (Flagged b) (initRegexp X regexp cache) := by
  have hguarded : ∀ {A : Type} {mode : Mode} {p : Proc R A}, Neutral cfg (fun _ _ => True) p →
      Neutral cfg (Flagged b) (guarded ⟨.regexps, mode, .command⟩ p) := fun hp =>
    (neutral_guarded_any rfl hp).mono fun _ _ h => h.below (show Lock.vars < .regexps by decide)
  unfold initRegexp
  refine .bind (.ite _ (hguarded (neutral_peek _)) (.pure _)) fun found => ?_
  cases found with
  | some re => exact .pure _
  | none =>
    cases X.compile regexp with
    | none => exact .pure _
    | some re =>
      refine .ite _ (hguarded (.bind (neutral_peek _) fun cached => ?_)) (.pure _)
      exact .bind (neutral_modify fun o l => ⟨rfl, .refl o.pool⟩) fun _ => .pure _

theorem neutral_regmatch {b : Bool} (X : Vre R) (string regexp : Option CString)
    (cache room : Bool) : Neutral cfg (Flagged b) (regmatch X string regexp cache room) := by
  unfold regmatch varnishRegmatchCommand
  split
  · exact .bind (neutral_initRegexp X _ cache) fun re => .pure _
  · exact .pure _

theorem neutral_regsub {b : Bool} (X : Vre R) (string regexp sub : Option CString)
    (cache all room : Bool) :
    Neutral cfg (Flagged b) (regsub X string regexp sub cache all room) := by
  unfold regsub varnishRegsubCommand
  split
  · exact .bind (neutral_initRegexp X _ cache) fun re => .pure _
  · exact .pure _

/-! ## `eval` -/

theorem wp_enterEval {b : Bool} {Q : Bool → Local → Holds → Prop} (h : Flagged b l.engine held)
    (hQ : Q b l (evalHolds true)) : wp (contract (R := R) cfg.pool) enterEval Q l held := by
  obtain ⟨e, he⟩ := Option.isSome_iff_exists.mp h.1
  unfold enterEval
  rw [wp_bind]
  refine wp_getIsLocked h ?_
  rw [wp_bind, h.2]
  cases b with
  | true => exact hQ
  | false =>
    rw [runIf, if_pos rfl]
    refine ⟨fun x hx => (by cases hx), fun o _ => ⟨?_, ?_⟩⟩
    · simp only [putIsLocked, he]
      exact .enter he
    · simp only [putIsLocked, he]
      exact hQ

theorem wp_leaveEval {b : Bool} {Q : Unit → Local → Holds → Prop} (h : Flagged true l.engine held)
    (hQ : Q () l (evalHolds b)) : wp (contract (R := R) cfg.pool) (leaveEval b) Q l held := by
  obtain ⟨e, he⟩ := Option.isSome_iff_exists.mp h.1
  unfold leaveEval
  rw [h.2]
  cases b with
  | true => exact hQ
  | false =>
    rw [runIf, if_pos rfl]
    refine ⟨⟨evalHold, List.mem_cons_self, rfl⟩, fun o _ => ⟨?_, ?_⟩⟩
    · simp only [putIsLocked, he]
      exact .leave he (by decide)
    · simp only [putIsLocked, he]
      exact hQ

/-! ## Sections under the mutex -/

theorem neutral_underMutex {p : Proc R A} (hp : Neutral cfg (fun _ _ => True) p) :
    Neutral cfg (Below .mutex) (underMutex p) :=
  neutral_guarded_any (h := ⟨.mutex, .write, .command⟩) rfl hp

theorem neutral_updateStats {f : Stats → Stats}
    (hf : ∀ s, (f s).enginesTotal = s.enginesTotal ∧
      (f s).enginesDroppedCycles = s.enginesDroppedCycles) :
    Neutral cfg (Below .mutex) (updateStats (R := R) f) :=
  neutral_underMutex (neutral_modify fun o _ => ⟨rfl, .updateStats o.pool hf⟩)

theorem neutral_fetchFunction : Neutral cfg (Below .mutex) (fetchFunction (R := R)) :=
  neutral_underMutex (neutral_peek _)

theorem neutral_publishFunction (code name : CString) :
    Neutral cfg (Below .mutex) (publishFunction (R := R) code name) :=
  neutral_underMutex (neutral_modify fun o _ => ⟨rfl, .refl o.pool⟩)

theorem neutral_cycleSection {P : Pre} (gcCollect : Bool) :
    Neutral cfg P (cycleSection (R := R) cfg gcCollect) := by
  refine .bind (neutral_modify fun o l => ?_) fun _ => neutral_peek _
  cases h : l.engine with
  | none => exact ⟨h, .refl o.pool⟩
  | some e => exact ⟨h, .cycleEngine o.pool e⟩

theorem neutral_vmodScriptStats : Neutral cfg (Below .vars) (vmodScriptStats (R := R)) := by
  refine neutral_guarded (h := ⟨.vars, .read, .command⟩) rfl
    (neutral_guarded (h := ⟨.regexps, .read, .command⟩) rfl
      (neutral_underMutex (neutral_peek _)) ?_) ?_
  · intro e held h x hx
    rcases List.mem_cons.mp hx with rfl | hx
    · exact (show Lock.regexps < .mutex by decide)
    · exact (h x hx).trans (show Lock.regexps < .mutex by decide)
  · intro e held h x hx
    rcases List.mem_cons.mp hx with rfl | hx
    · exact (show Lock.vars < .regexps by decide)
    · exact (h x hx).trans (show Lock.vars < .regexps by decide)

theorem neutral_vmodScriptCounter (name : CString) :
    Neutral cfg (Below .mutex) (vmodScriptCounter (R := R) name) := by
  unfold vmodScriptCounter
  iterate 2 refine .ite _ (neutral_peek _) ?_
  refine .ite _ (neutral_underMutex (neutral_peek _)) ?_
  iterate 8 refine .ite _ (neutral_peek _) ?_
  exact .pure _

theorem wp_lockEngineSection {Q : Option EngineId → Local → Holds → Prop} {waited : Bool}
    {memory : Int} (hl : l.engine = none)
    (hQ : ∀ l', Q l'.engine l' []) :
    wp (contract (R := R) cfg.pool) (lockEngineSection cfg waited memory) Q l [] := by
  unfold lockEngineSection
  rw [wp_bind]
  refine wp_guarded (quiet_of (fun x hx => by cases hx) (by decide)) (wp_modify fun o _ => ?_)
  have hp : SamePool cfg.pool o.pool (if waited then countBlocked o.pool else o.pool) := by
    cases waited with
    | true => exact ⟨countBlocked_ok, rfl, fun _ => rfl⟩
    | false => exact .refl o.pool
  refine ⟨.take hl (by decide) hp, rfl, quiet_of ⟨_, List.mem_cons_self, rfl⟩ (by decide), ?_⟩
  exact wp_peek (quiet_of trivial Iff.rfl) fun _ _ => hQ _

theorem wp_unlockEngineSection {Q : Unit → Local → Holds → Prop} {memory : Int}
    (hl : l.engine.isSome) (hQ : ∀ l', l'.engine = none → Q () l' []) :
    wp (contract (R := R) cfg.pool) (unlockEngineSection memory) Q l [] := by
  obtain ⟨e, he⟩ := Option.isSome_iff_exists.mp hl
  refine wp_guarded (quiet_of (fun x hx => by cases hx) (by decide)) (wp_modify fun o _ => ?_)
  refine ⟨?_, rfl, quiet_of ⟨_, List.mem_cons_self, rfl⟩ (by decide), hQ _ ?_⟩
  · simp only [he]
    exact .give he (by decide)
  · simp only [he]

theorem wp_endExecution {Q : Unit → Local → Holds → Prop} {success gcCollect : Bool}
    {memory : Int} (hl : l.engine.isSome) (hQ : ∀ l', l'.engine = none → Q () l' []) :
    wp (contract (R := R) cfg.pool) (endExecution cfg success gcCollect memory) Q l [] := by
  unfold endExecution
  rw [wp_bind]
  refine Neutral.wp (P := Below .mutex) ?_ Below.nil fun _ l₁ h₁ => ?_
  · exact neutral_updateStats fun s => ⟨rfl, rfl⟩
  rw [wp_bind]
  apply (neutral_cycleSection gcCollect).wp (P := Below .mutex) Below.nil
  intro gc l₂ h₂
  rw [wp_bind]
  refine Neutral.wp (P := Below .mutex) ?_ Below.nil fun _ l₃ h₃ => ?_
  · exact .runIf _ (neutral_updateStats fun s => ⟨rfl, rfl⟩)
  refine wp_unlockEngineSection ?_ hQ
  rw [h₃, h₂, h₁]
  exact hl

end Rules

/-! ## Control points -/

section Points

variable {K D V R : Type}

def inEval : List (Frame K V) → Bool
  | [] => false
  | .eval isLocked _ :: stack => !isLocked || inEval stack
  | _ :: stack => inEval stack

/-- Every `eval` on the stack found the flag as the calls around it had left it; calls from
`post_execute` are at the bottom. -/
def WellNested : List (Frame K V) → Prop
  | [] => True
  | .eval isLocked _ :: stack => isLocked = inEval stack ∧ WellNested stack
  | .protect _ :: stack => WellNested stack
  | .accessor _ :: stack => stack = []

/-- The thread is between two commands, with `stack` on the stack. -/
def Between (stack : List (Frame K V)) : Pre := fun e held =>
  Flagged (inEval stack) e held ∧ WellNested stack

/-- The engine and the locks of a thread at a control point. -/
def Point : Ctl K V → Local → Holds → Prop
  | .idle, l, held | .sleeping _, l, held => l.engine = none ∧ held = []
  | .running _ _ stack, l, held => Between stack l.engine held
  | .ready _, l, held | .storing _ _, l, held | .finished _ _, l, held =>
    l.engine.isSome ∧ held = []

variable {cfg : ScriptCfg} {X : Vre R} {L : Lang K D V} {l : Local} {held : Holds} {j : Job}

theorem wp_command {A : Type} {p : Proc R A} {f : A → Code K V} {stack : List (Frame K V)}
    (hp : Neutral cfg (Flagged (inEval stack)) p) (h : Between stack l.engine held) :
    wp (contract cfg.pool) (p >>= fun a => pure (.running j (f a) stack)) Point l held := by
  rw [wp_bind]
  apply hp.wp h.1
  intro a l' hl
  rw [← hl] at h
  exact h

theorem wp_leaveFrame {b : Bool} {next : V → Code K V} {stack : List (Frame K V)} {c : Code K V}
    (h : Between (.eval b next :: stack) l.engine held) :
    wp (contract (R := R) cfg.pool) (do leaveEval b; pure (.running j c stack)) Point l held := by
  obtain ⟨⟨he, hheld⟩, rfl, hnest⟩ := h
  have hin : inEval (.eval (inEval stack) next :: stack) = true := by simp [inEval]
  rw [hin] at hheld
  rw [wp_bind]
  exact wp_leaveEval ⟨he, hheld⟩ ⟨⟨he, rfl⟩, hnest⟩

theorem wp_return {v : V} {stack : List (Frame K V)} (h : Between stack l.engine held) :
    wp (contract (R := R) cfg.pool) (return_ L j v stack) Point l held := by
  cases stack with
  | nil => exact h.1
  | cons frame stack =>
    cases frame with
    | eval b next => exact wp_leaveFrame h
    | protect next => exact h
    | accessor rest =>
      obtain ⟨hflag, rfl⟩ := h
      exact hflag

/-- Errors unwind the stack one call at a time, and each `eval` gives back what it took. -/
theorem wp_raise {e : V} {stack : List (Frame K V)} {p : Proc R (Ctl K V)}
    (h : Between stack l.engine held) (hp : raise j e stack = some p) :
    wp (contract cfg.pool) p Point l held := by
  cases stack with
  | nil =>
    cases hp
    exact h.1
  | cons frame stack =>
    cases frame with
    | eval b next =>
      cases hp
      exact wp_leaveFrame h
    | protect next =>
      cases hp
      exact h
    | accessor rest => cases hp

/-- **One step of the interpreter**, whatever the script is. -/
theorem wp_interpret {c : Code K V} {stack : List (Frame K V)} {room : Room}
    {p : Proc R (Ctl K V)} (h : Between stack l.engine held)
    (hp : interpret X L j stack room c = some p) : wp (contract cfg.pool) p Point l held := by
  cases c with
  | jump k =>
    cases hp
    exact h
  | ret v =>
    cases hp
    exact wp_return h
  | raise e => exact wp_raise h hp
  | get key scope next =>
    cases hp
    refine wp_command (.withKey fun key => neutral_getIsLocked ?_) h
    exact neutral_varnishSharedGetCommand key _ room.value
  | set key value scope next =>
    cases hp
    refine wp_command (f := fun _ => next) (.withKey fun key => ?_) h
    cases value with
    | none => exact .pure ()
    | some value =>
      exact neutral_getIsLocked (neutral_varnishSharedSetCommand key value _ room)
  | unset key scope next =>
    cases hp
    refine wp_command (f := fun _ => next) (.withKey fun key => neutral_getIsLocked ?_) h
    exact neutral_varnishSharedUnsetCommand key _
  | regmatch string regexp cache next =>
    cases hp
    exact wp_command (neutral_regmatch X string regexp cache room.value) h
  | regsub string regexp sub cache all next =>
    cases hp
    exact wp_command (neutral_regsub X string regexp sub cache all room.value) h
  | eval body next =>
    cases hp
    rw [wp_bind]
    refine wp_enterEval h.1 ⟨⟨h.1.1, ?_⟩, rfl, h.2⟩
    have hin : inEval (.eval (inEval stack) next :: stack) = true := by simp [inEval]
    rw [hin]
  | protect body next =>
    cases hp
    exact h

theorem wp_lockEngine {waited : Bool} {memory : Int} (hl : l.engine = none) :
    wp (contract (R := R) cfg.pool) (lockEngine (K := K) (V := V) cfg j waited memory) Point l [] := by
  unfold lockEngine
  rw [wp_bind]
  apply wp_lockEngineSection hl
  intro l'
  cases h : l'.engine with
  | none => exact ⟨h, rfl⟩
  | some e => exact ⟨by rw [h]; rfl, rfl⟩

theorem wp_vmodScriptExecute {code : Option CString} {gcCollect room : Bool} {memory : Int}
    (hl : l.engine = none) :
    wp (contract (R := R) cfg.pool)
      (vmodScriptExecute (K := K) (V := V) cfg code gcCollect room memory) Point l [] := by
  unfold vmodScriptExecute
  cases code with
  | some code => exact wp_lockEngine hl
  | none =>
    rw [wp_bind]
    apply neutral_fetchFunction.wp Below.nil
    intro function l' hl'
    rw [← hl'] at hl
    cases function with
    | none => exact ⟨hl, rfl⟩
    | some f =>
      cases room with
      | true => exact wp_lockEngine hl
      | false => exact ⟨hl, rfl⟩

theorem wp_lookup {known : Bool} (hl : l.engine.isSome) :
    wp (contract (R := R) cfg.pool) (lookup L j known) Point l [] := by
  unfold lookup
  rw [wp_bind]
  refine Neutral.wp (P := Below .mutex) ?_ Below.nil fun _ l' hl' => ?_
  · exact .runIf _ (neutral_updateStats fun s => ⟨rfl, rfl⟩)
  · rw [← hl'] at hl
    unfold call
    rw [wp_pure]
    split
    · split
      · exact ⟨⟨hl, rfl⟩, trivial⟩
      · exact ⟨hl, rfl⟩
    · exact ⟨hl, rfl⟩

theorem wp_finish {success : Bool} {memory : Int} (hl : l.engine.isSome) :
    wp (contract (R := R) cfg.pool) (finish (K := K) (V := V) cfg j success memory) Point l [] := by
  unfold finish
  rw [wp_bind]
  apply wp_endExecution hl
  intro l₁ h₁
  rw [wp_bind]
  refine Neutral.wp (P := Below .mutex) ?_ Below.nil fun _ l₂ h₂ => ?_
  · exact .runIf _ (neutral_publishFunction j.code j.name)
  · exact ⟨h₂.trans h₁, rfl⟩

/-- **Every piece of code between two control points** keeps to the contract. -/
theorem wp_resume {a : Ctl K V} {ev : Event} {p : Proc R (Ctl K V)} (h : Point a l held)
    (hp : resume cfg X L a ev = some p) : wp (contract cfg.pool) p Point l held := by
  unfold resume at hp
  split at hp
  · -- `newTask`
    obtain ⟨hl, rfl⟩ := h
    cases hp
    rw [wp_bind]
    refine Neutral.wp (P := Below .mutex) ?_ Below.nil fun _ l' hl' => ⟨hl'.trans hl, rfl⟩
    exact neutral_modify fun o _ => ⟨rfl, .refl o.pool⟩
  · -- `stats`
    obtain ⟨hl, rfl⟩ := h
    cases hp
    rw [wp_bind]
    exact neutral_vmodScriptStats.wp Below.nil fun _ l' hl' => ⟨hl'.trans hl, rfl⟩
  · -- `counter`
    obtain ⟨hl, rfl⟩ := h
    cases hp
    rw [wp_bind]
    exact (neutral_vmodScriptCounter _).wp Below.nil fun _ l' hl' => ⟨hl'.trans hl, rfl⟩
  · -- `execute`
    obtain ⟨hl, rfl⟩ := h
    cases hp
    exact wp_vmodScriptExecute hl
  · -- `check`
    obtain ⟨hl, rfl⟩ := h
    cases hp
    exact wp_lockEngine hl
  · -- `wake`
    obtain ⟨hl, rfl⟩ := h
    cases hp
    exact wp_lockEngine hl
  · -- `lookup`
    obtain ⟨hl, rfl⟩ := h
    cases hp
    exact wp_lookup hl
  · -- `run`
    exact wp_interpret h hp
  · -- `read`
    obtain ⟨hl, rfl⟩ := h
    cases hp
    exact ⟨⟨hl, rfl⟩, rfl⟩
  · -- `store`
    cases hp
    exact h
  · -- `finish`
    obtain ⟨hl, rfl⟩ := h
    cases hp
    exact wp_finish hl
  · cases hp

end Points

/-! ## Runs -/

section Runs

variable {T K D V R : Type}

/-- The script of thread `t` has ended, with or without an error, and its result is being stored;
or the thread executes nothing. -/
def Ended (s : System T K V R) (t : T) : Prop :=
  (∃ j rest, s.prog t = .done (.storing j rest)) ∨
    (∃ j success, s.prog t = .done (.finished j success)) ∨ s.prog t = .done .idle

/-- The lock discipline, in one state of the system. -/
structure LockDiscipline (s : System T K V R) : Prop where
  /-- No thread requests the lock of the variables while it holds it. -/
  no_reentry : ∀ t k, s.Requests t k → k.lock = .vars → ∀ x ∈ s.held t, x.lock ≠ .vars
  /-- What a thread requests comes after all it holds, in the required order. -/
  ordered : ∀ t k, s.Requests t k → ∀ x ∈ s.held t, x.lock < k.lock
  /-- An engine runs for one thread. -/
  one_holder : ∀ t u e, (s.loc t).engine = some e → (s.loc u).engine = some e → t = u
  /-- The flag of an engine is set exactly while its thread holds the lock through `eval`. -/
  flag : ∀ e, isLocked s.shared.pool e = true ↔
    ∃ t, (s.loc t).engine = some e ∧ evalHold ∈ s.held t
  /-- At its end an execution has left no lock and no flag behind. -/
  ended : ∀ t, Ended s t → s.held t = [] ∧
    ∀ e, (s.loc t).engine = some e → isLocked s.shared.pool e = false

theorem sound_init (cfg : ScriptCfg) :
    Sound (System.init : System T K V R) (contract cfg.pool) Point (Inv cfg.pool) where
  inv := by
    refine ⟨⟨.init, fun e => ?_, fun t u e h => by cases h⟩, fun e => ?_⟩
    · simp [System.init, Object.init, Pool.init]
    · simp [System.init, Object.init, Pool.init, isLocked]
  wp _ := ⟨rfl, rfl⟩

variable [DecidableEq T] (cfg : ScriptCfg) (X : Vre R) (L : Lang K D V)

theorem verified : Verified (T := T) (contract cfg.pool) Point (Inv cfg.pool) (resume cfg X L) where
  view h t := h.view t
  step h _ _ _ _ he := h.step he
  resume := wp_resume

/-- **The lock discipline of scripts** holds in every state that any number of executions,
`stats()` and `counter()` calls reach, whatever the scripts are and however they end. -/
theorem lock_discipline [Fintype T] {tr : List (Locking.Act T Event)} {s : System T K V R}
    (h : exec (Locking.step (resume cfg X L)) System.init tr = some s) : LockDiscipline s := by
  have hs := (sound_init cfg).reach (verified cfg X L) h
  refine ⟨fun t k hr hk x hx => ?_, fun t k hr => hs.requests hr, hs.inv.holders.unique,
    hs.inv.flag, fun t hend => ?_⟩
  · rw [← hk]
    exact (hs.requests hr x hx).ne
  · have hheld : s.held t = [] := by
      rcases hend with ⟨j, rest, ht⟩ | ⟨j, success, ht⟩ | ht
      · exact (hs.point ht).2
      · exact (hs.point ht).2
      · exact (hs.point ht).2
    refine ⟨hheld, fun e he => ?_⟩
    rw [← Bool.not_eq_true, (hs.inv.view t).flag e he, hheld]
    exact List.not_mem_nil

end Runs

/-! ## A run -/

/-- A script that raises an error from two calls of `eval`, one inside the other; it sets a global
variable in between, and catches the error outside. -/
def nested : Code Empty Bool :=
  .protect
    (.eval (.eval (.set (some scopeAll) (some scopeAll) (some scopeGlobal) (.raise true)) .ret) .ret)
    fun _ => .ret false

def nestedLang : Lang Empty Unit Bool where
  numbers := ⟨fun _ => [], fun _ => none, fun _ => none, (), fun _ _ => ()⟩
  parse _ := some nested
  defs := nofun
  value _ := true
  error _ := true
  typeName _ := .empty
  accessors _ := []

def nestedCfg : ScriptCfg := ⟨⟨1, 0⟩, 1, fun code => code⟩

def nestedVre : Vre Unit := ⟨fun _ => none, fun _ _ => false, fun _ _ _ _ => none⟩

/-- Thread 0 executes the script up to the error, while thread 1 wants to print the stats. -/
def nestedTrace : List (Locking.Act (Fin 2) Event) :=
  let run : Locking.Act (Fin 2) Event := .input 0 (.run ⟨true, true, true⟩)
  [.input 0 (.execute (some .empty) false true 0), .op 0, .op 0, .op 0, .op 0,
    .input 0 (.lookup true), run, run, .op 0, .op 0, run, .op 0, run, .op 0, .op 0, run, run,
    .input 1 .stats]

theorem nestedTrace_runs :
    (exec (Locking.step (resume nestedCfg nestedVre nestedLang)) System.init nestedTrace).isSome := by
  decide

def nestedState : System (Fin 2) Empty Bool Unit :=
  (exec (Locking.step (resume nestedCfg nestedVre nestedLang)) System.init nestedTrace).get nestedTrace_runs

/-- In the middle of the unwinding the flag is still set. -/
theorem lock_discipline_nested :
    isLocked nestedState.shared.pool 0 = true ∧ LockDiscipline nestedState :=
  ⟨by decide, lock_discipline nestedCfg nestedVre nestedLang (Option.some_get nestedTrace_runs).symm⟩

end VmodCfg.Shared
