import Mathlib.Algebra.GroupWithZero.Nat
import Mathlib.Logic.Function.Basic

/-!
# Machines: atomic steps, runs, guarded invariants

A machine is a partial step function: `step s a` is the state after the atomic
action `a`, `none` when `a` is not enabled in `s`. `exec` runs a list of
actions. `Along ok s tr` says that every action of `tr` meets `ok` in the state
it is taken from; it is how a condition on a schedule is stated. The two
induction rules are `exec_inv` (what every guarded step keeps holds of every
state reached) and `along_of_inv` (what the invariant gives at one step holds
at every step of the run).
-/

namespace Machine

variable {σ α : Type*} {step : σ → α → Option σ}

/-- The state after the actions, taken in order. -/
def exec (step : σ → α → Option σ) : σ → List α → Option σ
  | s, [] => some s
  | s, a :: tr => (step s a).bind fun s' => exec step s' tr

/-- Every action of the run meets `ok` in the state it is taken from. -/
def Along (step : σ → α → Option σ) (ok : σ → α → Prop) : σ → List α → Prop
  | _, [] => True
  | s, a :: tr => ok s a ∧
    match step s a with
    | none => True
    | some s' => Along step ok s' tr

instance decidableAlong {ok : σ → α → Prop} [∀ s a, Decidable (ok s a)] :
    ∀ (s : σ) (tr : List α), Decidable (Along step ok s tr)
  | _, [] => isTrue trivial
  | s, a :: tr =>
    have : Decidable (match step s a with
        | none => True
        | some s' => Along step ok s' tr) :=
      match step s a with
      | none => isTrue trivial
      | some s' => decidableAlong s' tr
    inferInstanceAs (Decidable (_ ∧ _))

@[simp] theorem exec_nil (s : σ) : exec step s [] = some s := rfl

theorem exec_cons_some {s s' : σ} {a : α} {tr : List α} (h : exec step s (a :: tr) = some s') :
    ∃ s₁, step s a = some s₁ ∧ exec step s₁ tr = some s' := by
  simpa [exec, Option.bind_eq_some_iff] using h

theorem exec_append (s : σ) (tr tr' : List α) :
    exec step s (tr ++ tr') = (exec step s tr).bind fun s' => exec step s' tr' := by
  induction tr generalizing s with
  | nil => rfl
  | cons a tr ih =>
    simp only [List.cons_append, exec, Option.bind_assoc]
    cases step s a with
    | none => rfl
    | some s' => exact ih s'

theorem along_cons {ok : σ → α → Prop} {s s' : σ} {a : α} {tr : List α}
    (h : Along step ok s (a :: tr)) (hs : step s a = some s') : Along step ok s' tr := by
  have h2 := h.2
  rwa [hs] at h2

theorem along_mono {ok ok' : σ → α → Prop} (himp : ∀ s a, ok s a → ok' s a) {s : σ}
    {tr : List α} (h : Along step ok s tr) : Along step ok' s tr := by
  induction tr generalizing s with
  | nil => trivial
  | cons a tr ih =>
    refine ⟨himp s a h.1, ?_⟩
    cases hs : step s a with
    | none => trivial
    | some s' => exact ih (along_cons h hs)

theorem along_congr {ok ok' : σ → α → Prop} (h : ∀ s a, ok s a ↔ ok' s a) {s : σ}
    {tr : List α} : Along step ok s tr ↔ Along step ok' s tr :=
  ⟨along_mono fun s a => (h s a).1, along_mono fun s a => (h s a).2⟩

/-- In a run that ends, the conditions only have to agree on the steps that are taken. -/
theorem along_congr_of_exec {ok ok' : σ → α → Prop}
    (h : ∀ s a s', step s a = some s' → (ok s a ↔ ok' s a)) {s s' : σ} {tr : List α}
    (hex : exec step s tr = some s') : Along step ok s tr ↔ Along step ok' s tr := by
  induction tr generalizing s with
  | nil => exact Iff.rfl
  | cons a tr ih =>
    obtain ⟨s₁, h₁, h₂⟩ := exec_cons_some hex
    simp only [Along, h₁]
    exact and_congr (h s a s₁ h₁) (ih h₂)

theorem along_and {ok ok' : σ → α → Prop} {s : σ} {tr : List α} (h : Along step ok s tr)
    (h' : Along step ok' s tr) : Along step (fun s a => ok s a ∧ ok' s a) s tr := by
  induction tr generalizing s with
  | nil => trivial
  | cons a tr ih =>
    refine ⟨⟨h.1, h'.1⟩, ?_⟩
    cases hs : step s a with
    | none => trivial
    | some s' => exact ih (along_cons h hs) (along_cons h' hs)

theorem along_true (s : σ) (tr : List α) : Along step (fun _ _ => True) s tr := by
  induction tr generalizing s with
  | nil => trivial
  | cons a tr ih =>
    refine ⟨trivial, ?_⟩
    cases step s a with
    | none => trivial
    | some s' => exact ih s'

theorem along_of_forall {ok : α → Prop} {s : σ} {tr : List α} (h : ∀ a ∈ tr, ok a) :
    Along step (fun _ a => ok a) s tr := by
  induction tr generalizing s with
  | nil => trivial
  | cons a tr ih =>
    refine ⟨h a List.mem_cons_self, ?_⟩
    cases step s a with
    | none => trivial
    | some s' => exact ih fun b hb => h b (List.mem_cons_of_mem a hb)

/-- **Run rule**: what every guarded step keeps holds of every state a guarded run reaches. -/
theorem exec_inv {ok : σ → α → Prop} {I : σ → Prop}
    (hstep : ∀ s a s', ok s a → I s → step s a = some s' → I s') {s s' : σ} {tr : List α}
    (hok : Along step ok s tr) (hI : I s) (hex : exec step s tr = some s') : I s' := by
  induction tr generalizing s with
  | nil =>
    cases hex
    exact hI
  | cons a tr ih =>
    obtain ⟨s₁, h1, h2⟩ := exec_cons_some hex
    exact ih (along_cons hok h1) (hstep s a s₁ hok.1 hI h1) h2

theorem exec_inv' {I : σ → Prop} (hstep : ∀ s a s', I s → step s a = some s' → I s') {s s' : σ}
    {tr : List α} (hI : I s) (hex : exec step s tr = some s') : I s' :=
  exec_inv (fun s a s' _ => hstep s a s') (along_true s tr) hI hex

/-- **Step rule**: what the invariant gives at one guarded step holds at every step of the run. -/
theorem along_of_inv {ok : σ → α → Prop} {I : σ → Prop} {P : σ → α → Prop}
    (hstep : ∀ s a s', ok s a → I s → step s a = some s' → I s')
    (hP : ∀ s a, ok s a → I s → P s a) {s : σ} {tr : List α}
    (hok : Along step ok s tr) (hI : I s) : Along step P s tr := by
  induction tr generalizing s with
  | nil => trivial
  | cons a tr ih =>
    refine ⟨hP s a hok.1 hI, ?_⟩
    cases hs : step s a with
    | none => trivial
    | some s' => exact ih (along_cons hok hs) (hstep s a s' hok.1 hI hs)

/-! ## What is still to come -/

/-- Every action of the run meets `ok` in the state it is taken from, before what is still to
come. -/
def Ahead (step : σ → α → Option σ) (ok : σ → α → List α → Prop) : σ → List α → Prop
  | _, [] => True
  | s, a :: tr => ok s a tr ∧
    match step s a with
    | none => True
    | some s' => Ahead step ok s' tr

instance decidableAhead {ok : σ → α → List α → Prop} [∀ s a tr, Decidable (ok s a tr)] :
    ∀ (s : σ) (tr : List α), Decidable (Ahead step ok s tr)
  | _, [] => isTrue trivial
  | s, a :: tr =>
    have : Decidable (match step s a with
        | none => True
        | some s' => Ahead step ok s' tr) :=
      match step s a with
      | none => isTrue trivial
      | some s' => decidableAhead s' tr
    inferInstanceAs (Decidable (_ ∧ _))

/-- The step rule, for an invariant of the state and of what is still to come. -/
theorem along_of_ahead {ok : σ → α → List α → Prop} {I : σ → List α → Prop} {P : σ → α → Prop}
    (hstep : ∀ s a tr s', ok s a tr → I s (a :: tr) → step s a = some s' → I s' tr)
    (hP : ∀ s a tr, I s (a :: tr) → P s a) {s : σ} {tr : List α}
    (hok : Ahead step ok s tr) (hI : I s tr) : Along step P s tr := by
  induction tr generalizing s with
  | nil => trivial
  | cons a tr ih =>
    refine ⟨hP s a tr hI, ?_⟩
    have hrest := hok.2
    cases hs : step s a with
    | none => trivial
    | some s' =>
      rw [hs] at hrest
      exact ih hrest (hstep s a tr s' hok.1 hI hs)

/-- What the rest of a run needs of one step is met along the run. -/
theorem ahead_of_along {ok : σ → α → List α → Prop} {I : σ → Prop} {P : σ → α → Prop}
    (hstep : ∀ s a s', I s → step s a = some s' → I s')
    (hok : ∀ s a tr s₁ s', I s → step s a = some s₁ → exec step s₁ tr = some s' →
      Along step P s₁ tr → ok s a tr) {s s' : σ} {tr : List α}
    (hex : exec step s tr = some s') (hI : I s) (hP : Along step P s tr) : Ahead step ok s tr := by
  induction tr generalizing s with
  | nil => trivial
  | cons a tr ih =>
    obtain ⟨s₁, h₁, h₂⟩ := exec_cons_some hex
    have hrest := along_cons hP h₁
    refine ⟨hok s a tr s₁ s' hI h₁ h₂ hrest, ?_⟩
    rw [h₁]
    exact ih h₂ (hstep s a s₁ hI h₁) hrest

/-! ## Simulation -/

section Simulation

variable {τ β ε : Type*} {step' : τ → β → Option τ}

def events (event : α → Option ε) (tr : List α) : List ε := tr.filterMap event

/-- The events of a run, where the event of an action depends on the state it is taken from. -/
def trace (step : σ → α → Option σ) (event : σ → α → Option ε) : σ → List α → List ε
  | _, [] => []
  | s, a :: tr => (event s a).toList ++
    match step s a with
    | none => []
    | some s' => trace step event s' tr

theorem trace_eq_events {event : α → Option ε} {s s' : σ} {tr : List α}
    (hex : exec step s tr = some s') : trace step (fun _ => event) s tr = events event tr := by
  induction tr generalizing s with
  | nil => rfl
  | cons a tr ih =>
    obtain ⟨s₁, h₁, h₂⟩ := exec_cons_some hex
    simp only [trace, h₁, ih h₂, events]
    cases ha : event a <;> simp [ha]

/-- **Simulation rule**: if every guarded step can be followed by steps of the abstract machine that
have the same events, then every guarded run can. -/
theorem exec_simulates {ok : σ → α → Prop} (event : σ → α → Option ε) (event' : β → Option ε)
    (R : σ → τ → Prop)
    (hsim : ∀ s x a s', ok s a → R s x → step s a = some s' →
      ∃ tr' x', exec step' x tr' = some x' ∧ R s' x' ∧ events event' tr' = (event s a).toList)
    {s s' : σ} {x : τ} {tr : List α} (hok : Along step ok s tr) (hR : R s x)
    (hex : exec step s tr = some s') :
    ∃ tr' x', exec step' x tr' = some x' ∧ R s' x' ∧ events event' tr' = trace step event s tr := by
  induction tr generalizing s x with
  | nil =>
    cases hex
    exact ⟨[], x, rfl, hR, rfl⟩
  | cons a tr ih =>
    obtain ⟨s₁, h₁, h₂⟩ := exec_cons_some hex
    obtain ⟨tr₁, x₁, hex₁, hR₁, hev₁⟩ := hsim s x a s₁ hok.1 hR h₁
    obtain ⟨tr₂, x₂, hex₂, hR₂, hev₂⟩ := ih (along_cons hok h₁) hR₁ h₂
    refine ⟨tr₁ ++ tr₂, x₂, ?_, hR₂, ?_⟩
    · rw [exec_append, hex₁]
      exact hex₂
    · simp only [trace, h₁, ← hev₁, ← hev₂, events, List.filterMap_append]

/-- **Lockstep rule**: machines that take every step together, with the same event, do so along the
whole run. -/
theorem lockstep {ok : σ → α → Prop} (f : α → β) {event : σ → α → Option ε}
    {event' : τ → β → Option ε} (R : σ → τ → Prop)
    (hstep : ∀ s x a, ok s a → R s x → event s a = event' x (f a) ∧
      (step s a = none ∧ step' x (f a) = none ∨
        ∃ s' x', step s a = some s' ∧ step' x (f a) = some x' ∧ R s' x'))
    {s : σ} {x : τ} {tr : List α} (hok : Along step ok s tr) (hR : R s x) :
    trace step event s tr = trace step' event' x (tr.map f) ∧
      ∀ s', exec step s tr = some s' → ∃ x', exec step' x (tr.map f) = some x' ∧ R s' x' := by
  induction tr generalizing s x with
  | nil => exact ⟨rfl, fun s' hex => ⟨x, rfl, Option.some.inj hex ▸ hR⟩⟩
  | cons a tr ih =>
    obtain ⟨hevent, ⟨h, h'⟩ | ⟨s₁, x₁, h, h', hR₁⟩⟩ := hstep s x a hok.1 hR
    · constructor
      · simp only [List.map_cons, trace, h, h', hevent]
      · intro s' hex
        obtain ⟨s₁, h₁, -⟩ := exec_cons_some hex
        rw [h] at h₁
        cases h₁
    · obtain ⟨htrace, hexec⟩ := ih (along_cons hok h) hR₁
      constructor
      · simp only [List.map_cons, trace, h, h', hevent, htrace]
      · intro s' hex
        simp only [exec, h, Option.bind_some] at hex
        obtain ⟨x', hx', hR'⟩ := hexec s' hex
        refine ⟨x', ?_, hR'⟩
        simp only [List.map_cons, exec, h', Option.bind_some, hx']

/-- The simulation rule for a function of the state, and steps that are one abstract step or none. -/
theorem exec_refines (abs : σ → τ) {I : σ → Prop}
    (hstep : ∀ s a s', I s → step s a = some s' → I s')
    (hsim : ∀ s a s', I s → step s a = some s' →
      abs s' = abs s ∨ ∃ b, step' (abs s) b = some (abs s'))
    {s s' : σ} {tr : List α} (hI : I s) (hex : exec step s tr = some s') :
    ∃ tr', exec step' (abs s) tr' = some (abs s') := by
  have hall : ∀ s x a s', True → I s ∧ x = abs s → step s a = some s' →
      ∃ tr' x', exec step' x tr' = some x' ∧ (I s' ∧ x' = abs s') ∧
        events (fun _ => (none : Option Unit)) tr' = [] := by
    rintro s _ a s' - ⟨hI, rfl⟩ hs
    rcases hsim s a s' hI hs with heq | ⟨b, hb⟩
    · exact ⟨[], _, rfl, ⟨hstep s a s' hI hs, heq.symm⟩, rfl⟩
    · exact ⟨[b], _, by simp [exec, hb], ⟨hstep s a s' hI hs, rfl⟩, rfl⟩
  obtain ⟨tr', x', hex', ⟨-, rfl⟩, -⟩ := exec_simulates (fun _ _ => none) (fun _ => none)
    (fun s x => I s ∧ x = abs s) hall (along_true s tr) ⟨hI, rfl⟩ hex
  exact ⟨tr', hex'⟩

end Simulation

/-! ## Bookkeeping -/

variable {ω : Type*} {note : σ → α → ω → ω}

/-- The machine with notes that are taken of its run, and that no step reads. -/
def watched (step : σ → α → Option σ) (note : σ → α → ω → ω) (x : σ × ω) (a : α) :
    Option (σ × ω) :=
  (step x.1 a).map fun s' => (s', note x.1 a x.2)

theorem watched_some {s s' : σ} {w w' : ω} {a : α} :
    watched step note (s, w) a = some (s', w') ↔ step s a = some s' ∧ w' = note s a w := by
  simp only [watched, Option.map_eq_some_iff, Prod.mk.injEq]
  constructor
  · rintro ⟨s₁, h, rfl, rfl⟩
    exact ⟨h, rfl⟩
  · rintro ⟨h, rfl⟩
    exact ⟨s', h, rfl, rfl⟩

/-- The numerals of `Fin 2`, for runs of two threads. -/
instance two_ne_zero : NeZero 2 := ⟨Nat.succ_ne_zero 1⟩

end Machine
