import VmodCfg.Lib.Atomic
import VmodCfg.Lib.Locking

/-!
# Atomic objects behind a lock

Threads over locks implement an atomic object: a part of the shared state stores the state of the
object, and changes only in the operation at which a call takes effect, under a lock that is held
for writing. `Lin` is what a thread has to meet: it is computed from its program, for every state
that the other threads may leave. `Linearized.reach` carries it to every run of any number of
threads: the run has the calls and the returns of a run of the atomic object.
-/

namespace Locking

open Machine

universe u

/-- The object: the part of the shared state that stores it, and the lock of that part. -/
structure Behind (T L σ X M C B : Type*) where
  lock : L
  part : σ → X
  Stores : X → M → Prop
  run : T → M → C → M × B

/-- What an input at a control point is, seen from outside. -/
inductive Seen (C B : Type*) where
  | call (c : C)
  | ret (ans : B)

def Seen.event {T C B : Type*} (t : T) : Seen C B → Atomic.Event T C B
  | .call c => .call t c
  | .ret ans => .ret t ans

def Writes {L S : Type*} (k : L) (held : List (Hold L S)) : Prop :=
  ∃ h ∈ held, h.lock = k ∧ h.mode = .write

/-! ## Locks exclude each other -/

section Exclusive

variable {T L S σ τ A I : Type*} [LinearOrder L] {resume : A → I → Option (Prog L S σ τ A)}

/-- Two threads hold the same lock only for reading. -/
def Sys.Exclusive (s : Sys T L S σ τ A) : Prop :=
  ∀ t u, t ≠ u → ∀ x ∈ s.held t, ∀ y ∈ s.held u, x.lock = y.lock → x.mode = .read ∧ y.mode = .read

variable {s s' : Sys T L S σ τ A}

omit [LinearOrder L] in
theorem Sys.Exclusive.not_writes (h : s.Exclusive) {k : L} {t u : T} (htu : t ≠ u)
    (ht : Writes k (s.held t)) : ¬ Writes k (s.held u) := by
  rintro ⟨y, hy, hlock, -⟩
  obtain ⟨x, hx, rfl, hmode⟩ := ht
  have hread := (h t u htu x hx y hy hlock.symm).1
  rw [hmode] at hread
  cases hread

variable [DecidableEq T]

theorem Sys.Exclusive.perform (h : s.Exclusive) {t : T} {o : Op L S} {upd : σ × τ → σ × τ}
    {next : σ × τ → Prog L S σ τ A} (he : s.Enabled t o) : (s.perform t o upd next).Exclusive := by
  have hold : ∀ x ∈ o.after (s.held t), x ∈ s.held t ∨ s.Free x := by
    intro x hx
    cases o with
    | acquire k =>
      rcases List.mem_cons.mp hx with rfl | hx
      · exact .inr he
      · exact .inl hx
    | release l => exact .inl (List.mem_of_mem_eraseP hx)
    | work => exact .inl hx
  have hpair : ∀ u, t ≠ u → ∀ x ∈ o.after (s.held t), ∀ y ∈ s.held u, x.lock = y.lock →
      x.mode = .read ∧ y.mode = .read := by
    intro u hu x hx y hy hlock
    rcases hold x hx with hx | hfree
    · exact h t u hu x hx y hy hlock
    · exact (hfree u y hy hlock.symm).symm
  intro u v huv x hx y hy hlock
  by_cases hu : u = t
  · subst hu
    simp only [Sys.perform, Function.update_self, Function.update_of_ne huv.symm] at hx hy
    exact hpair v huv x hx y hy hlock
  · by_cases hv : v = t
    · subst hv
      simp only [Sys.perform, Function.update_self, Function.update_of_ne huv] at hx hy
      exact (hpair u huv.symm y hy x hx hlock.symm).symm
    · simp only [Sys.perform, Function.update_of_ne hu, Function.update_of_ne hv] at hx hy
      exact h u v huv x hx y hy hlock

theorem Sys.Exclusive.step [Fintype T] (h : s.Exclusive) {a : Act T I}
    (hs : Locking.step resume s a = some s') : s'.Exclusive := by
  cases a with
  | op t =>
    simp only [Locking.step] at hs
    split at hs
    · cases hs
    · split at hs
      · rename_i henabled
        cases hs
        exact h.perform henabled
      · cases hs
  | input t i =>
    simp only [Locking.step] at hs
    split at hs
    · obtain ⟨p, -, rfl⟩ := Option.map_eq_some_iff.mp hs
      exact h
    · cases hs

end Exclusive

/-! ## What a thread has to meet -/

section Lin

variable {T L S σ τ X M C B A I : Type*} [LinearOrder L] (O : Behind T L σ X M C B)
  (K : Contract L S σ τ)
  (Stage : T → A → Atomic.Status C B → τ → List (Hold L S) → X → Prop) (t : T)

/-- The program keeps the part that stores the object, or takes effect, once, with the lock held;
`x` is the part, which other threads leave alone while this one holds the lock. At its end it is at
a control point that has reached its stage. -/
def Lin (p : Prog L S σ τ A) (st : Atomic.Status C B) (l : τ) (held : List (Hold L S)) (x : X) :
    Prop :=
  match p with
  | .done a => Stage t a st l held x
  | .op o upd next => ∀ s m, (Writes O.lock held → O.part s = x) → O.Stores (O.part s) m →
      K.View s l held →
      (O.part (upd (s, l)).1 = O.part s ∧
        Lin (next (s, l)) st (upd (s, l)).2 (o.after held) (O.part s)) ∨
      ∃ c, st = .called c ∧ Writes O.lock held ∧ O.Stores (O.part (upd (s, l)).1) (O.run t m c).1 ∧
        Lin (next (s, l)) (.done (O.run t m c).2) (upd (s, l)).2 (o.after held)
          (O.part (upd (s, l)).1)

/-- Every operation changes the states as `φ` allows, and every result meets `Q`. -/
def Prog.Always {A : Type*} (φ : (σ × τ → σ × τ) → Prop) (Q : A → Prop) : Prog L S σ τ A → Prop
  | .done a => Q a
  | .op _ upd next => φ upd ∧ ∀ x, (next x).Always φ Q

/-- The operation leaves the part alone. -/
def Behind.Keeps (upd : σ × τ → σ × τ) : Prop := ∀ s l, O.part (upd (s, l)).1 = O.part s

variable {O K Stage t}

/-- Code that leaves the part alone needs no lock. -/
theorem Lin.of_always {Q : A → Prop} {p : Prog L S σ τ A} {st : Atomic.Status C B} {l : τ}
    {held : List (Hold L S)} {x : X} (h : p.Always O.Keeps Q)
    (hQ : ∀ a l held x, Q a → Stage t a st l held x) : Lin O K Stage t p st l held x := by
  induction p generalizing l held x with
  | done a => exact hQ a l held x h
  | op o upd next ih => exact fun s m _ _ _ => .inl ⟨h.1 s l, ih (s, l) (h.2 (s, l))⟩

/-- A thread that does not hold the lock does not rely on the part. -/
theorem Lin.stable
    (hstage : ∀ {a st l held x x'}, ¬ Writes O.lock held → Stage t a st l held x →
      Stage t a st l held x')
    {p : Prog L S σ τ A} {st : Atomic.Status C B} {l : τ} {held : List (Hold L S)} {x x' : X}
    (hw : ¬ Writes O.lock held) (h : Lin O K Stage t p st l held x) :
    Lin O K Stage t p st l held x' := by
  cases p with
  | done a => exact hstage hw h
  | op o upd next => exact fun s m _ => h s m fun hw' => absurd hw' hw

end Lin

/-! ### Code that leaves the part alone -/

section Always

variable {L S σ τ : Type*} {A B : Type u} {φ : (σ × τ → σ × τ) → Prop} {Q : A → Prop}

/-- **Sequencing rule.** -/
theorem Prog.Always.bind {Q' : B → Prop} {p : Prog L S σ τ A} {f : A → Prog L S σ τ B}
    (hp : p.Always φ Q) (hf : ∀ a, Q a → (f a).Always φ Q') : (p >>= f).Always φ Q' := by
  induction p with
  | done a => exact hf a hp
  | op o upd next ih => exact ⟨hp.1, fun x => ih x (hp.2 x)⟩

theorem Prog.Always.ite {c : Prop} [Decidable c] {p q : Prog L S σ τ A} (hp : p.Always φ Q)
    (hq : q.Always φ Q) : (if c then p else q).Always φ Q := by
  split
  · exact hp
  · exact hq

theorem Prog.Always.guarded {h : Hold L S} {p : Prog L S σ τ A} (hid : φ id) (hp : p.Always φ Q) :
    (guarded h p).Always φ Q :=
  ⟨hid, fun _ => hp.bind fun _ ha => ⟨hid, fun _ => ha⟩⟩

theorem always_peek {f : σ → τ → A} (hid : φ id) (hQ : ∀ s l, Q (f s l)) :
    (peek f : Prog L S σ τ A).Always φ Q := ⟨hid, fun x => hQ x.1 x.2⟩

theorem always_modify {Q : Unit → Prop} {f : σ × τ → σ × τ} (hf : φ f) (hQ : Q ()) :
    (modify f : Prog L S σ τ Unit).Always φ Q := ⟨hf, fun _ => hQ⟩

end Always

/-! ## The system -/

section System

variable {T L S σ τ X M C B A I : Type*} [LinearOrder L]

/-- What an action is, seen from outside. -/
def Sys.seen (event : A → I → Option (Seen C B)) (s : Sys T L S σ τ A) :
    Act T I → Option (Atomic.Event T C B)
  | .op _ => none
  | .input t i =>
    match s.prog t with
    | .done a => (event a i).map (Seen.event t)
    | .op .. => none

/-- A condition on the inputs at control points, as one on the actions. -/
def Sys.AtInput (ok : σ → A → I → Prop) (s : Sys T L S σ τ A) : Act T I → Prop
  | .op _ => True
  | .input t i =>
    match s.prog t with
    | .done a => ok s.shared a i
    | .op .. => True

instance {ok : σ → A → I → Prop} [∀ s a i, Decidable (ok s a i)] (s : Sys T L S σ τ A) :
    (a : Act T I) → Decidable (s.AtInput ok a)
  | .op _ => isTrue trivial
  | .input t i =>
    match h : s.prog t with
    | .done a => decidable_of_iff (ok s.shared a i) (by simp [Sys.AtInput, h])
    | .op .. => isTrue (by simp [Sys.AtInput, h])

omit [LinearOrder L] in
theorem Sys.AtInput.and {ok ok' : σ → A → I → Prop} {s : Sys T L S σ τ A} {a : Act T I}
    (h : s.AtInput ok a) (h' : s.AtInput ok' a) :
    s.AtInput (fun s a i => ok s a i ∧ ok' s a i) a := by
  cases a with
  | op t => trivial
  | input t i =>
    simp only [Sys.AtInput] at h h' ⊢
    cases ht : s.prog t with
    | done a =>
      rw [ht] at h h'
      exact ⟨h, h'⟩
    | op o upd next => trivial

variable (O : Behind T L σ X M C B) (K : Contract L S σ τ) (Point : A → τ → List (Hold L S) → Prop)
  (Inv : σ → (T → τ) → (T → List (Hold L S)) → Prop)
  (Stage : T → A → Atomic.Status C B → τ → List (Hold L S) → X → Prop)
  (event : A → I → Option (Seen C B)) (ok : σ → A → I → Prop)

/-- What a program that starts at an input has to meet: an input that is seen moves the status. -/
def Starts (t : T) (p : Prog L S σ τ A) (st : Atomic.Status C B) (l : τ)
    (held : List (Hold L S)) (x : X) : Option (Seen C B) → Prop
  | none => Lin O K Stage t p st l held x
  | some (.call c) => st = .idle ∧ Lin O K Stage t p (.called c) l held x
  | some (.ret ans) => st = .done ans ∧ Lin O K Stage t p .idle l held x

/-- What the threads are verified against, besides the contract: the stages of calls. -/
structure Linearizes (resume : A → I → Option (Prog L S σ τ A)) : Prop where
  stable : ∀ {t a st l held x x'}, ¬ Writes O.lock held → Stage t a st l held x →
    Stage t a st l held x'
  resume : ∀ {t a i p st l held s m}, Point a l held → K.View s l held → ok s a i →
    O.Stores (O.part s) m → Stage t a st l held (O.part s) → resume a i = some p →
    Starts O K Stage t p st l held (O.part s) (event a i)

/-- A state of the threads, and one of the atomic object that it implements. -/
structure Linearized (s : Sys T L S σ τ A) (x : Atomic.Obj T M C B) : Prop where
  sound : Sound s K Point Inv
  exclusive : s.Exclusive
  stores : O.Stores (O.part s.shared) x.state
  lin : ∀ t, Lin O K Stage t (s.prog t) (x.thr t) (s.loc t) (s.held t) (O.part s.shared)

variable {O K Point Inv Stage event ok} {resume : A → I → Option (Prog L S σ τ A)}
  [DecidableEq T] [DecidableEq B] {s s' : Sys T L S σ τ A} {x : Atomic.Obj T M C B}

omit [DecidableEq B] in
theorem Linearized.lin_perform (hl : Linearizes O K Point Stage event ok resume)
    (h : Linearized O K Point Inv Stage s x) {t : T} {o : Op L S} {upd : σ × τ → σ × τ}
    {next : σ × τ → Prog L S σ τ A} {x' : Atomic.Obj T M C B}
    (hthr : ∀ u, u ≠ t → x'.thr u = x.thr u)
    (hpart : Writes O.lock (s.held t) ∨ O.part (upd (s.shared, s.loc t)).1 = O.part s.shared)
    (hself : Lin O K Stage t (next (s.shared, s.loc t)) (x'.thr t) (upd (s.shared, s.loc t)).2
      (o.after (s.held t)) (O.part (upd (s.shared, s.loc t)).1)) (u : T) :
    Lin O K Stage u ((s.perform t o upd next).prog u) (x'.thr u) ((s.perform t o upd next).loc u)
      ((s.perform t o upd next).held u) (O.part (s.perform t o upd next).shared) := by
  by_cases hu : u = t
  · subst hu
    simpa only [Sys.perform, Function.update_self] using hself
  · simp only [Sys.perform, Function.update_of_ne hu, hthr u hu]
    rcases hpart with hw | heq
    · exact (h.lin u).stable hl.stable (h.exclusive.not_writes (Ne.symm hu) hw)
    · rw [heq]
      exact h.lin u

theorem Linearized.perform (hv : Verified K Point Inv resume)
    (hl : Linearizes O K Point Stage event ok resume) (h : Linearized O K Point Inv Stage s x) {t : T}
    {o : Op L S} {upd : σ × τ → σ × τ} {next : σ × τ → Prog L S σ τ A}
    (ht : s.prog t = .op o upd next) (he : s.Enabled t o) :
    ∃ tr x', exec (Atomic.step O.run) x tr = some x' ∧
      Linearized O K Point Inv Stage (s.perform t o upd next) x' ∧
      events Atomic.Act.event? tr = [] := by
  have hlin := h.lin t
  rw [ht] at hlin
  rcases hlin s.shared x.state (fun _ => rfl) h.stores (hv.view h.sound.inv t) with
    ⟨hpart, hnext⟩ | ⟨c, hst, hw, hstores, hnext⟩
  · refine ⟨[], x, rfl, ⟨h.sound.perform hv ht, h.exclusive.perform he, ?_, ?_⟩, rfl⟩
    · show O.Stores (O.part (upd (s.shared, s.loc t)).1) x.state
      rw [hpart]
      exact h.stores
    · refine h.lin_perform hl (fun _ _ => rfl) (.inr hpart) ?_
      rw [hpart]
      exact hnext
  · refine ⟨[.effect t], _, Atomic.exec_effect hst, ⟨h.sound.perform hv ht, h.exclusive.perform he,
      hstores, ?_⟩, rfl⟩
    refine h.lin_perform hl (fun u hu => ?_) (.inl hw) ?_
    · simp [Atomic.Obj.set, hu]
    · simpa [Atomic.Obj.set] using hnext

omit [DecidableEq B] in
theorem Linearized.lin_input (h : Linearized O K Point Inv Stage s x) {t : T} {p : Prog L S σ τ A}
    {x' : Atomic.Obj T M C B} (hthr : ∀ u, u ≠ t → x'.thr u = x.thr u)
    (hself : Lin O K Stage t p (x'.thr t) (s.loc t) (s.held t) (O.part s.shared)) (u : T) :
    Lin O K Stage u (Function.update s.prog t p u) (x'.thr u) (s.loc u) (s.held u)
      (O.part s.shared) := by
  by_cases hu : u = t
  · subst hu
    simpa only [Function.update_self] using hself
  · simp only [Function.update_of_ne hu, hthr u hu]
    exact h.lin u

theorem Linearized.input [Fintype T] (hv : Verified K Point Inv resume)
    (hl : Linearizes O K Point Stage event ok resume) (h : Linearized O K Point Inv Stage s x) {t : T}
    {i : I} {a : A} {p : Prog L S σ τ A} (ht : s.prog t = .done a) (hok : ok s.shared a i)
    (hp : resume a i = some p) :
    ∃ tr x', exec (Atomic.step O.run) x tr = some x' ∧
      Linearized O K Point Inv Stage { s with prog := Function.update s.prog t p } x' ∧
      events Atomic.Act.event? tr = ((event a i).map (Seen.event t)).toList := by
  have hs : Locking.step resume s (.input t i) =
      some { s with prog := Function.update s.prog t p } := by simp [Locking.step, ht, hp]
  have hsound := h.sound.step hv hs
  have hexclusive := h.exclusive.step hs
  have hstage := h.lin t
  rw [ht] at hstage
  have hstart := hl.resume (h.sound.point ht) (hv.view h.sound.inv t) hok h.stores hstage hp
  have hothers : ∀ st u, u ≠ t → (x.set t st).thr u = x.thr u := fun st u hu => by
    simp [Atomic.Obj.set, hu]
  cases hev : event a i with
  | none =>
    rw [hev] at hstart
    exact ⟨[], x, rfl, ⟨hsound, hexclusive, h.stores, h.lin_input (fun _ _ => rfl) hstart⟩, rfl⟩
  | some e =>
    rw [hev] at hstart
    cases e with
    | call c =>
      refine ⟨[.event (.call t c)], _, Atomic.exec_call hstart.1,
        ⟨hsound, hexclusive, h.stores, h.lin_input (hothers _) ?_⟩, rfl⟩
      simpa [Atomic.Obj.set] using hstart.2
    | ret ans =>
      refine ⟨[.event (.ret t ans)], _, Atomic.exec_ret hstart.1,
        ⟨hsound, hexclusive, h.stores, h.lin_input (hothers _) ?_⟩, rfl⟩
      simpa [Atomic.Obj.set] using hstart.2

/-- **Step lemma**: the object follows every action, with the event that is seen. -/
theorem Linearized.step [Fintype T] (hv : Verified K Point Inv resume)
    (hl : Linearizes O K Point Stage event ok resume) (h : Linearized O K Point Inv Stage s x)
    {a : Act T I} (hok : s.AtInput ok a) (hs : Locking.step resume s a = some s') :
    ∃ tr x', exec (Atomic.step O.run) x tr = some x' ∧ Linearized O K Point Inv Stage s' x' ∧
      events Atomic.Act.event? tr = (s.seen event a).toList := by
  cases a with
  | op t =>
    simp only [Locking.step] at hs
    split at hs
    · cases hs
    · rename_i ht
      split at hs
      · rename_i henabled
        cases hs
        exact h.perform hv hl ht henabled
      · cases hs
  | input t i =>
    simp only [Locking.step] at hs
    split at hs
    · rename_i a ht
      obtain ⟨p, hp, rfl⟩ := Option.map_eq_some_iff.mp hs
      simp only [Sys.AtInput, ht] at hok
      simp only [Sys.seen, ht]
      exact h.input hv hl ht hok hp
    · cases hs

/-- **Adequacy**: every run is seen as a run of the atomic object. -/
theorem Linearized.reach [Fintype T] (hv : Verified K Point Inv resume)
    (hl : Linearizes O K Point Stage event ok resume) (h : Linearized O K Point Inv Stage s x)
    {tr : List (Act T I)} (hok : Along (Locking.step resume) (Sys.AtInput ok) s tr)
    (hex : exec (Locking.step resume) s tr = some s') :
    ∃ tr' x', exec (Atomic.step O.run) x tr' = some x' ∧ Linearized O K Point Inv Stage s' x' ∧
      events Atomic.Act.event? tr' = trace (Locking.step resume) (Sys.seen event) s tr :=
  exec_simulates (Sys.seen event) Atomic.Act.event? (Linearized O K Point Inv Stage)
    (fun _ _ _ _ hok h hs => h.step hv hl hok hs) hok h hex

end System

end Locking
