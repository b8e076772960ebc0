import Mathlib.Data.Fintype.EquivFin
import Mathlib.Data.Fintype.Lattice
import Mathlib.Order.Defs.LinearOrder
import VmodCfg.Lib.Machine

/-!
# Threads over ordered locks

A thread runs programs: trees of operations (take a lock, give it back, work)
over a shared state `σ` and its own state `τ`. What an operation does to the two
states happens together with it. Between two programs a thread is at a control
point, where an input tells how it goes on.

`wp` is the weakest precondition of a program under a contract: locks are
requested in increasing order, only locks that are held are given back, and each
operation has one of the effects that the contract allows. It is computed from
the program alone; `Sound.reach` carries it to every run of any number of
threads.
-/

namespace Locking

open Machine

universe u

/-- How a lock is held; a mutex is a lock that is only written. -/
inductive Mode where
  | read
  | write
  deriving DecidableEq, Repr

/-- A lock that is held, and the place of the code that took it. -/
structure Hold (L S : Type*) where
  lock : L
  mode : Mode
  site : S
  deriving DecidableEq, Repr

inductive Op (L S : Type*) where
  | acquire (h : Hold L S)
  | release (l : L)
  | work

inductive Prog (L S σ τ A : Type*) where
  | done (a : A)
  | op (o : Op L S) (upd : σ × τ → σ × τ) (next : σ × τ → Prog L S σ τ A)

section Programs

variable {L S σ τ : Type*} {A B : Type u}

def Prog.bind (p : Prog L S σ τ A) (f : A → Prog L S σ τ B) : Prog L S σ τ B :=
  match p with
  | .done a => f a
  | .op o upd next => .op o upd fun x => (next x).bind f

instance : Monad (Prog L S σ τ) where
  pure := .done
  bind := .bind

def guarded (h : Hold L S) (p : Prog L S σ τ A) : Prog L S σ τ A :=
  .op (.acquire h) id fun _ => p.bind fun a => .op (.release h.lock) id fun _ => .done a

def peek (f : σ → τ → A) : Prog L S σ τ A := .op .work id fun x => .done (f x.1 x.2)

def modify (f : σ × τ → σ × τ) : Prog L S σ τ Unit := .op .work f fun _ => .done ()

/-- What a program ends with when it runs alone. -/
def Prog.eval : Prog L S σ τ A → σ × τ → A × σ × τ
  | .done a, x => (a, x)
  | .op _ upd next, x => (next x).eval (upd x)

/-- The locks a thread holds after an operation. -/
def Op.after [DecidableEq L] (held : List (Hold L S)) : Op L S → List (Hold L S)
  | .acquire h => h :: held
  | .release l => held.eraseP fun x => x.lock = l
  | .work => held

/-- The discipline: requests go up in the order, and only held locks are given back. -/
def Op.Disciplined [LT L] (held : List (Hold L S)) : Op L S → Prop
  | .acquire h => ∀ x ∈ held, x.lock < h.lock
  | .release l => ∃ x ∈ held, x.lock = l
  | .work => True

end Programs

/-! ## Weakest preconditions -/

/-- What a thread knows at an operation, and what its operations may do: `Step` relates the states
and the locks of the thread before and after. -/
structure Contract (L S σ τ : Type*) where
  View : σ → τ → List (Hold L S) → Prop
  Step : σ → τ → List (Hold L S) → σ → τ → List (Hold L S) → Prop

section Wp

variable {L S σ τ : Type*} {A B : Type u} [LinearOrder L] (C : Contract L S σ τ)

def wp (p : Prog L S σ τ A) (Q : A → τ → List (Hold L S) → Prop) (l : τ)
    (held : List (Hold L S)) : Prop :=
  match p with
  | .done a => Q a l held
  | .op o upd next => o.Disciplined held ∧ ∀ s, C.View s l held →
      C.Step s l held (upd (s, l)).1 (upd (s, l)).2 (o.after held) ∧
      wp (next (s, l)) Q (upd (s, l)).2 (o.after held)

variable {C} {Q : A → τ → List (Hold L S) → Prop} {l : τ} {held : List (Hold L S)}

@[simp] theorem wp_pure (a : A) : wp C (pure a) Q l held ↔ Q a l held := Iff.rfl

@[simp] theorem wp_done (a : A) : wp C (.done a) Q l held ↔ Q a l held := Iff.rfl

/-- **Sequencing rule.** -/
@[simp] theorem wp_bind {Q : B → τ → List (Hold L S) → Prop} (p : Prog L S σ τ A)
    (f : A → Prog L S σ τ B) :
    wp C (p >>= f) Q l held ↔ wp C p (fun a => wp C (f a) Q) l held := by
  induction p generalizing l held with
  | done a => exact Iff.rfl
  | op o upd next ih =>
    refine and_congr Iff.rfl (forall_congr' fun s => imp_congr Iff.rfl (and_congr Iff.rfl ?_))
    exact ih (s, l)

theorem wp_mono {Q' : A → τ → List (Hold L S) → Prop} {p : Prog L S σ τ A}
    (h : wp C p Q l held) (hQ : ∀ a l held, Q a l held → Q' a l held) : wp C p Q' l held := by
  induction p generalizing l held with
  | done a => exact hQ a l held h
  | op o upd next ih => exact ⟨h.1, fun s hs => ⟨(h.2 s hs).1, ih (s, l) (h.2 s hs).2⟩⟩

/-- Operations that leave the two states alone; most locks are taken and given back so. -/
structure Contract.Quiet (C : Contract L S σ τ) (o : Op L S) (l : τ) (held : List (Hold L S)) :
    Prop where
  disciplined : o.Disciplined held
  step : ∀ s, C.View s l held → C.Step s l held s l (o.after held)

theorem wp_guarded {h : Hold L S} {p : Prog L S σ τ A} (hq : C.Quiet (.acquire h) l held)
    (hp : wp C p (fun a l' held' => held' = h :: held ∧ C.Quiet (.release h.lock) l' held' ∧
      Q a l' held) l (h :: held)) : wp C (guarded h p) Q l held := by
  refine ⟨hq.disciplined, fun s hs => ⟨hq.step s hs, ?_⟩⟩
  refine (wp_bind p _).mpr (wp_mono hp fun a l' held' hpost => ?_)
  obtain ⟨rfl, hr, hQ⟩ := hpost
  have hrest : Op.after (h :: held) (.release h.lock) = held := by simp [Op.after]
  refine ⟨hr.disciplined, fun s hs => ⟨hr.step s hs, ?_⟩⟩
  rw [hrest]
  exact hQ

theorem wp_peek {f : σ → τ → A} (hq : C.Quiet .work l held)
    (hQ : ∀ s, C.View s l held → Q (f s l) l held) : wp C (peek f) Q l held :=
  ⟨trivial, fun s hs => ⟨hq.step s hs, hQ s hs⟩⟩

theorem wp_modify {Q : Unit → τ → List (Hold L S) → Prop} {f : σ × τ → σ × τ}
    (hs : ∀ s, C.View s l held → C.Step s l held (f (s, l)).1 (f (s, l)).2 held ∧
      Q () (f (s, l)).2 held) : wp C (modify f) Q l held :=
  ⟨trivial, hs⟩

end Wp

/-! ## The system -/

/-- Any number of threads `T`; a thread at `done a` is at the control point `a`. -/
structure Sys (T L S σ τ A : Type*) where
  shared : σ
  prog : T → Prog L S σ τ A
  loc : T → τ
  held : T → List (Hold L S)

/-- Thread `t` performs its next operation, or gets an input at its control point. -/
inductive Act (T I : Type*) where
  | op (t : T)
  | input (t : T) (i : I)

section System

variable {T L S σ τ A I : Type*} [LinearOrder L] (resume : A → I → Option (Prog L S σ τ A))
  (s : Sys T L S σ τ A)

/-- Nobody holds the lock in a way that excludes the request, the thread itself included. -/
def Sys.Free (h : Hold L S) : Prop :=
  ∀ u, ∀ x ∈ s.held u, x.lock = h.lock → x.mode = .read ∧ h.mode = .read

instance [Fintype T] (h : Hold L S) : Decidable (s.Free h) :=
  inferInstanceAs (Decidable (∀ _, ∀ _ ∈ _, _ → _ ∧ _))

/-- A request waits for its lock. Giving back a lock that is not held is undefined. -/
def Sys.Enabled (t : T) : Op L S → Prop
  | .acquire h => s.Free h
  | .release l => ∃ x ∈ s.held t, x.lock = l
  | .work => True

instance [Fintype T] (t : T) : (o : Op L S) → Decidable (s.Enabled t o)
  | .acquire h => inferInstanceAs (Decidable (s.Free h))
  | .release _ => inferInstanceAs (Decidable (∃ _ ∈ _, _))
  | .work => inferInstanceAs (Decidable True)

def Sys.perform [DecidableEq T] (t : T) (o : Op L S) (upd : σ × τ → σ × τ)
    (next : σ × τ → Prog L S σ τ A) : Sys T L S σ τ A where
  shared := (upd (s.shared, s.loc t)).1
  prog := Function.update s.prog t (next (s.shared, s.loc t))
  loc := Function.update s.loc t (upd (s.shared, s.loc t)).2
  held := Function.update s.held t (o.after (s.held t))

def step [DecidableEq T] [Fintype T] (s : Sys T L S σ τ A) :
    Act T I → Option (Sys T L S σ τ A)
  | .op t =>
    match s.prog t with
    | .done _ => none
    | .op o upd next => if s.Enabled t o then some (s.perform t o upd next) else none
  | .input t i =>
    match s.prog t with
    | .done a => (resume a i).map fun p => { s with prog := Function.update s.prog t p }
    | .op .. => none

/-- Thread `t` is about to take the lock, or waits for it. -/
def Sys.Requests (t : T) (h : Hold L S) : Prop :=
  ∃ upd next, s.prog t = .op (.acquire h) upd next

variable (C : Contract L S σ τ) (Point : A → τ → List (Hold L S) → Prop)
  (Inv : σ → (T → τ) → (T → List (Hold L S)) → Prop)

/-- What a system is verified against: a contract, an assertion for every control point, and an
invariant over all threads. -/
structure Verified [DecidableEq T] (resume : A → I → Option (Prog L S σ τ A)) : Prop where
  view : ∀ {s loc held}, Inv s loc held → ∀ t, C.View s (loc t) (held t)
  step : ∀ {s loc held}, Inv s loc held → ∀ {t s' l' held'},
    C.Step s (loc t) (held t) s' l' held' →
    Inv s' (Function.update loc t l') (Function.update held t held')
  resume : ∀ {a i p l held}, Point a l held → resume a i = some p → wp C p Point l held

/-- The invariant holds, and every thread is about to do what its contract allows. -/
structure Sound : Prop where
  inv : Inv s.shared s.loc s.held
  wp : ∀ t, wp C (s.prog t) Point (s.loc t) (s.held t)

variable {C Point Inv} {resume} {s} {s' : Sys T L S σ τ A}

theorem Sound.requests (h : Sound s C Point Inv) {t : T} {k : Hold L S} (hr : s.Requests t k) :
    ∀ x ∈ s.held t, x.lock < k.lock := by
  obtain ⟨upd, next, ht⟩ := hr
  have hw := h.wp t
  rw [ht] at hw
  exact hw.1

theorem Sound.point (h : Sound s C Point Inv) {t : T} {a : A} (ht : s.prog t = .done a) :
    Point a (s.loc t) (s.held t) := by
  have hw := h.wp t
  rwa [ht] at hw

theorem Sound.waits (h : Sound s C Point Inv) {t : T} {o : Op L S} {upd : σ × τ → σ × τ}
    {next : σ × τ → Prog L S σ τ A} (ht : s.prog t = .op o upd next) (hno : ¬ s.Enabled t o) :
    ∃ k, o = .acquire k ∧ ∃ u, ∃ x ∈ s.held u, x.lock = k.lock := by
  have hw := h.wp t
  rw [ht] at hw
  cases o with
  | work => exact absurd trivial hno
  | release l => exact absurd hw.1 hno
  | acquire k =>
    refine ⟨k, rfl, ?_⟩
    by_contra hnone
    refine hno fun u x hx hlock => ?_
    exact absurd ⟨u, x, hx, hlock⟩ hnone

/-- The lock that a thread requests. -/
def Sys.wanted (s : Sys T L S σ τ A) (t : T) : WithBot L :=
  match s.prog t with
  | .op (.acquire k) _ _ => k.lock
  | _ => ⊥

/-- **No deadlock among programs**: while some thread runs a program, some thread can perform its
next operation, or holds locks at a control point. The thread to look at is one that waits for the
greatest lock: whoever has that lock waits for none. -/
theorem Sound.exists_enabled [Finite T] (h : Sound s C Point Inv) {t : T} {o : Op L S}
    {upd : σ × τ → σ × τ} {next : σ × τ → Prog L S σ τ A} (ht : s.prog t = .op o upd next) :
    (∃ u o upd next, s.prog u = .op o upd next ∧ s.Enabled u o) ∨
      ∃ u a, s.prog u = .done a ∧ s.held u ≠ [] := by
  by_contra hstuck
  obtain ⟨hops, hpoints⟩ := not_or.mp hstuck
  have hno : ∀ u o upd next, s.prog u = .op o upd next → ¬ s.Enabled u o :=
    fun u o upd next hu he => hops ⟨u, o, upd, next, hu, he⟩
  have hne : Nonempty T := ⟨t⟩
  obtain ⟨v, hv⟩ := Finite.exists_max s.wanted
  -- the greatest request is one
  have hwant : ∀ {u o upd next}, s.prog u = .op o upd next →
      ∃ k, o = .acquire k ∧ s.wanted u = k.lock ∧ ∃ w, ∃ x ∈ s.held w, x.lock = k.lock := by
    intro u o upd next hu
    obtain ⟨k, rfl, hheld⟩ := h.waits hu (hno u o upd next hu)
    exact ⟨k, rfl, by simp only [Sys.wanted, hu], hheld⟩
  obtain ⟨k, -, hk, -⟩ := hwant ht
  cases hp : s.prog v with
  | done a =>
    have hle := hv t
    rw [hk, show s.wanted v = ⊥ by simp only [Sys.wanted, hp], le_bot_iff] at hle
    exact absurd hle WithBot.coe_ne_bot
  | op o upd next =>
    obtain ⟨k, rfl, hk, w, x, hx, hlock⟩ := hwant hp
    cases hw : s.prog w with
    | done a =>
      refine hpoints ⟨w, a, hw, ?_⟩
      rintro hnil
      rw [hnil] at hx
      cases hx
    | op o' upd' next' =>
      obtain ⟨k', rfl, hk', -⟩ := hwant hw
      have hlt : x.lock < k'.lock := h.requests ⟨upd', next', hw⟩ x hx
      have hle := hv w
      rw [hk, hk', ← hlock] at hle
      exact absurd (WithBot.coe_le_coe.mp hle) (not_le_of_gt hlt)

variable [DecidableEq T]

theorem step_op [Fintype T] {t : T} {o : Op L S} {upd : σ × τ → σ × τ}
    {next : σ × τ → Prog L S σ τ A} (ht : s.prog t = .op o upd next) (he : s.Enabled t o) :
    step resume s (.op t) = some (s.perform t o upd next) := by
  simp only [step, ht]
  exact if_pos he

theorem Sound.perform (hv : Verified C Point Inv resume) (h : Sound s C Point Inv) {t : T}
    {o : Op L S} {upd : σ × τ → σ × τ} {next : σ × τ → Prog L S σ τ A}
    (ht : s.prog t = .op o upd next) : Sound (s.perform t o upd next) C Point Inv := by
  have hw := h.wp t
  rw [ht] at hw
  obtain ⟨hstep, hnext⟩ := hw.2 s.shared (hv.view h.inv t)
  refine ⟨hv.step h.inv hstep, fun u => ?_⟩
  by_cases hu : u = t
  · subst hu
    simpa only [Sys.perform, Function.update_self] using hnext
  · simpa only [Sys.perform, Function.update_of_ne hu] using h.wp u

theorem Sound.step [Fintype T] (hv : Verified C Point Inv resume) (h : Sound s C Point Inv)
    {a : Act T I} (hs : Locking.step resume s a = some s') : Sound s' C Point Inv := by
  cases a with
  | op t =>
    simp only [Locking.step] at hs
    split at hs
    · cases hs
    · rename_i o upd next ht
      split at hs
      · cases hs
        exact h.perform hv ht
      · cases hs
  | input t i =>
    simp only [Locking.step] at hs
    split at hs
    · rename_i a ht
      obtain ⟨p, hp, rfl⟩ := Option.map_eq_some_iff.mp hs
      have hpoint := h.wp t
      rw [ht] at hpoint
      refine ⟨h.inv, fun u => ?_⟩
      by_cases hu : u = t
      · subst hu
        simpa only [Function.update_self] using hv.resume hpoint hp
      · simpa only [Function.update_of_ne hu] using h.wp u
    · cases hs

/-- A thread runs its program to the end when nobody else holds a lock. -/
theorem Sound.solo [Fintype T] (hv : Verified C Point Inv resume) (h : Sound s C Point Inv) {t : T}
    {p : Prog L S σ τ A} (hp : s.prog t = p) (hothers : ∀ u, u ≠ t → s.held u = []) :
    ∃ k s', exec (Locking.step resume) s (List.replicate k (.op t)) = some s' ∧
      s'.prog t = .done (p.eval (s.shared, s.loc t)).1 := by
  induction p generalizing s with
  | done a => exact ⟨0, s, rfl, hp⟩
  | op o upd next ih =>
    have he : s.Enabled t o := by
      by_contra hno
      obtain ⟨k, rfl, u, x, hx, hlock⟩ := h.waits hp hno
      by_cases hu : u = t
      · subst hu
        exact absurd hlock (h.requests ⟨upd, next, hp⟩ x hx).ne
      · rw [hothers u hu] at hx
        cases hx
    have hnext : (s.perform t o upd next).prog t = next (s.shared, s.loc t) :=
      Function.update_self ..
    have hrest : ∀ u, u ≠ t → (s.perform t o upd next).held u = [] := by
      intro u hu
      exact (Function.update_of_ne hu ..).trans (hothers u hu)
    obtain ⟨k, s', hex, hend⟩ := ih (s.shared, s.loc t) (h.perform hv hp) hnext hrest
    refine ⟨k + 1, s', ?_, ?_⟩
    · rw [List.replicate_succ, exec, step_op hp he, Option.bind_some, hex]
    · rw [hend, Prog.eval]
      simp only [Sys.perform, Function.update_self]

/-- **Adequacy**: what was verified of the programs holds in every state that is reached. -/
theorem Sound.reach [Fintype T] (hv : Verified C Point Inv resume) (h : Sound s C Point Inv)
    {tr : List (Act T I)} (hex : exec (Locking.step resume) s tr = some s') :
    Sound s' C Point Inv :=
  exec_inv' (I := fun s => Sound s C Point Inv) (fun _ _ _ hi hs => hi.step hv hs) h hex

end System

end Locking
