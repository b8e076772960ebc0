import VmodCfg.Rules.Get

/-!
# The flag `reloading`

`Control` is what every action does to `reloading`, to `tst` and to the control
point of the thread that takes it. A thread that claimed the
periodic reload holds the flag until it finishes: no other thread claims it in
between, and no path through `check_remote` leaves it set.
-/

namespace VmodCfg.Remote

open Machine

section Defs

variable {T E P Q A : Type*}

/-- The call has not decided yet whether to load. -/
def Pc.Entering : Pc A → Prop
  | .testing _ | .claiming => True
  | _ => False

/-- How many steps the load has left, at most. -/
def Pc.left : Pc A → Nat
  | .reading => 8
  | .parsing _ false => 7
  | .failing => 6
  | .parsing _ true => 5
  | .flushing .. => 4
  | .publishing .. => 3
  | .writing .. => 2
  | .finishing _ => 1
  | _ => 0

def Thread.left (th : Thread Q A) : Nat := (th.pc.map Pc.left).getD 0

def Thread.Reloads : Thread Q A → Prop
  | .idle => False
  | .run c pc => c.winner = true ∧ pc.Loading

def Thread.Forced : Thread Q A → Prop
  | .idle => False
  | .run c _ => c.op.force = true

/-- The action is neither the test of the remote nor the end of a load. -/
def Act.Inner : Act T E Q A → Prop
  | .test _ | .finish _ => False
  | _ => True

/-- What an action does to a thread, to `reloading` and to `tst`. -/
inductive Control (cfg : RemoteCfg) (s : RemoteSys T P Q A) :
    Act T E Q A → Thread Q A → Thread Q A → Bool → Int → Prop
  | call {t op th} (hth : th = .idle ∨ ∃ c ans, th = .run c (.returned ans)) :
    Control cfg s (.call t op) th (.run ⟨op, false, s.heap.current⟩ (.testing s.clock))
      s.reloading s.tst
  | force {t c now} (hop : c.op.force = true) :
    Control cfg s (.test t) (.run c (.testing now)) (.run c .reading) s.reloading s.tst
  | expired {t c now} (hop : c.op.force = false) (hrel : s.reloading = false)
    (hexp : (cfg.period.toNat : Int) < now - s.tst) :
    Control cfg s (.test t) (.run c (.testing now)) (.run c .claiming) s.reloading s.tst
  | pass {t c now} :
    Control cfg s (.test t) (.run c (.testing now)) (.run c (c.checked true)) s.reloading s.tst
  | lose {t c} (hrel : s.reloading = true) :
    Control cfg s (.claim t) (.run c .claiming) (.run c (c.checked true)) s.reloading s.tst
  | win {t c} (hrel : s.reloading = false) :
    Control cfg s (.claim t) (.run c .claiming) (.run { c with winner := true } .reading)
      true s.tst
  | load {a c pc pc'} (ha : a.Inner) (hpc : pc.Loading) (hpc' : pc'.Loading)
    (hleft : pc'.left < pc.left) :
    Control cfg s a (.run c pc) (.run c pc') s.reloading s.tst
  | finish {t c result} :
    Control cfg s (.finish t) (.run c (.finishing result)) (.run c (c.checked result))
      (if c.winner then false else s.reloading) (if result then s.clock else s.tst)
  | serve {a c pc pc'} (ha : a.Inner) (hpc : ¬ pc.Loading) (hpc' : ¬ pc'.Loading)
    (hent : ¬ pc.Entering) (hent' : ¬ pc'.Entering) :
    Control cfg s a (.run c pc) (.run c pc') s.reloading s.tst

/-- What is known of `winner` in a call: a thread that has not claimed the reload is no winner. -/
def Thread.CallOk : Thread Q A → Prop
  | .idle => True
  | .run c pc => (pc.Entering ∨ c.op.force = true → c.winner = false) ∧
    (pc = .claiming → c.op.force = false)

/-- Who holds the flag. -/
structure FlagInv (s : RemoteSys T P Q A) : Prop where
  flag : s.reloading = true ↔ ∃ t, (s.thr t).Reloads
  alone : ∀ t u, (s.thr t).Reloads → (s.thr u).Reloads → t = u
  calls : ∀ t, (s.thr t).CallOk

end Defs

variable {T E P Q A : Type*} {K : Kind E P Q A} {cfg : RemoteCfg} {s s' : RemoteSys T P Q A}

theorem checked_served (c : Call Q) (result : Bool) :
    ¬ (c.checked result : Pc A).Loading ∧ ¬ (c.checked result : Pc A).Entering := by
  unfold Call.checked
  cases c.op <;> exact ⟨id, id⟩

theorem look_served (h : Heap P) (p : P) (q : Q) (ok : Bool) :
    ¬ (K.look h p q ok).Loading ∧ ¬ (K.look h p q ok).Entering := by
  unfold Kind.look
  simp only
  split <;> exact ⟨id, id⟩

theorem failed_loading (cfg : RemoteCfg) : (cfg.failed : Pc A).Loading ∧ (cfg.failed : Pc A).left ≤ 6 := by
  unfold RemoteCfg.failed
  split
  · exact ⟨trivial, by simp [Pc.left]⟩
  · exact ⟨trivial, by simp [Pc.left]⟩

theorem published_loading (cfg : RemoteCfg) (c : Call Q) (b k : Ref) (isBackup : Bool) :
    (cfg.published c b k isBackup : Pc A).Loading ∧
      (cfg.published c b k isBackup : Pc A).left ≤ 2 := by
  unfold RemoteCfg.published
  split
  · exact ⟨trivial, by simp [Pc.left]⟩
  · exact ⟨trivial, by simp [Pc.left]⟩

theorem left_pos {pc : Pc A} (h : pc.Loading) : 0 < pc.left := by
  cases pc with
  | parsing b isBackup => cases isBackup <;> simp [Pc.left]
  | reading | flushing | publishing | writing | failing | finishing => simp [Pc.left]
  | testing | claiming | looking | copying | returned => exact h.elim

theorem left_le (th : Thread Q A) : th.left ≤ 8 := by
  cases th with
  | idle => simp [Thread.left, Thread.pc]
  | run c pc =>
    cases pc with
    | parsing b isBackup => cases isBackup <;> simp [Thread.left, Thread.pc, Pc.left]
    | _ => simp [Thread.left, Thread.pc, Pc.left]

theorem not_reloads {c : Call Q} {pc : Pc A} (h : ¬ pc.Loading) : ¬ (Thread.run c pc).Reloads :=
  fun hr => h hr.2

/-- A call that is past the claim, and does not reload, or was not forced. -/
theorem callOk_of_not_entering {c : Call Q} {pc : Pc A} (hpc : ¬ pc.Entering)
    (h : c.op.force = true → c.winner = false) : (Thread.run c pc).CallOk := by
  refine ⟨fun he => h (he.resolve_left hpc), ?_⟩
  rintro rfl
  exact (hpc trivial).elim

theorem Pc.Loading.not_entering {pc : Pc A} (h : pc.Loading) : ¬ pc.Entering := by
  cases pc <;> first | exact id | exact h.elim

theorem FlagInv.init (file : Option (List UInt8)) :
    FlagInv (RemoteSys.init K file : RemoteSys T P Q A) := by
  refine ⟨⟨fun h => ?_, ?_⟩, fun t u h => h.elim, fun t => trivial⟩
  · cases h
  · rintro ⟨t, h⟩
    exact h.elim

variable [DecidableEq T]

omit [DecidableEq T] in
theorem Move.control {a : Act T E Q A} {th th' : Thread Q A} {h' : Heap P} {reloading : Bool}
    {tst : Int} (h : Move K cfg s a th th' h' reloading tst) :
    Control cfg s a th th' reloading tst := by
  obtain ⟨hfail, hle⟩ := failed_loading (A := A) cfg
  cases h with
  | call hth => exact .call hth
  | force hop => exact .force hop
  | expired hop hrel hexp => exact .expired hop hrel hexp
  | pass => exact .pass
  | lose hrel => exact .lose hrel
  | win hrel => exact .win hrel
  | finish => exact .finish
  | unread => exact .load trivial trivial hfail (Nat.lt_of_le_of_lt hle (by simp [Pc.left]))
  | @refuse _ _ _ _ isBackup =>
    cases isBackup with
    | true => exact .load trivial trivial trivial (by simp [Pc.left])
    | false => exact .load trivial trivial hfail (Nat.lt_of_le_of_lt hle (by simp [Pc.left]))
  | @swap _ _ _ _ isBackup | @swapFree _ _ _ _ isBackup =>
    refine .load trivial trivial trivial ?_
    cases isBackup <;> simp [Pc.left]
  | @publish _ c b k isBackup =>
    obtain ⟨hpub, hle⟩ := published_loading (A := A) cfg c b k isBackup
    exact .load trivial trivial hpub (Nat.lt_of_le_of_lt hle (by simp [Pc.left]))
  | read | flush | write | noBackup | readBackup =>
    exact .load trivial trivial trivial (by simp [Pc.left])
  | inspect | copy => exact .serve trivial id id id id
  | @look _ ok _ q snap hop hs =>
    obtain ⟨h1, h2⟩ := look_served (K := K) s.heap snap.state q ok
    exact .serve trivial id h1 id h2

theorem step_control {a : Act T E Q A} (h : step K cfg s a = some s') :
    (∃ now, a = .clock now ∧ s' = { s with clock := now }) ∨
    ∃ t th, a.thread = some t ∧ s'.thr = Function.update s.thr t th ∧ s'.clock = s.clock ∧
      Control cfg s a (s.thr t) th s'.reloading s'.tst := by
  obtain h | ⟨t, th, ha, ht, hclock, hm⟩ := step_move h
  · exact .inl h
  · exact .inr ⟨t, th, ha, ht, hclock, hm.control⟩

/-! ## The invariant -/

/-- The thread that moves holds the flag if it did before, and nobody touches the flag. -/
theorem FlagInv.same (hi : FlagInv s) {t : T} {th : Thread Q A}
    (ht : s'.thr = Function.update s.thr t th) (hrel : s'.reloading = s.reloading)
    (hth : th.Reloads ↔ (s.thr t).Reloads) (hcall : th.CallOk) : FlagInv s' := by
  have hall : ∀ u, (s'.thr u).Reloads ↔ (s.thr u).Reloads :=
    forall_thr (p := fun u x => x.Reloads ↔ (s.thr u).Reloads) ht hth fun u _ => Iff.rfl
  refine ⟨?_, fun u v hu hv => hi.alone u v ((hall u).1 hu) ((hall v).1 hv),
    forall_thr (p := fun _ x => x.CallOk) ht hcall fun u _ => hi.calls u⟩
  rw [hrel, hi.flag]
  exact exists_congr fun u => (hall u).symm

/-- The flag was clear: the thread that claims it is the only one that holds it. -/
theorem FlagInv.win (hi : FlagInv s) {t : T} {c : Call Q} (hold : s.thr t = .run c .claiming)
    (hrel : s.reloading = false) (hrel' : s'.reloading = true)
    (ht : s'.thr = Function.update s.thr t (.run { c with winner := true } .reading)) :
    FlagInv s' := by
  have hnone : ∀ u, ¬ (s.thr u).Reloads := fun u hu => by
    rw [hi.flag.2 ⟨u, hu⟩] at hrel
    cases hrel
  have hself : s'.thr t = .run { c with winner := true } .reading := by
    rw [ht, Function.update_self]
  have honly : ∀ u, (s'.thr u).Reloads → u = t :=
    forall_thr (p := fun u x => x.Reloads → u = t) ht (fun _ => rfl) fun u _ hu =>
      (hnone u hu).elim
  have hforce := hi.calls t
  rw [hold] at hforce
  refine ⟨iff_of_true hrel' ⟨t, ?_⟩, fun u v hu hv => (honly u hu).trans (honly v hv).symm,
    forall_thr (p := fun _ x => x.CallOk) ht ?_ fun u _ => hi.calls u⟩
  · rw [hself]
    exact ⟨rfl, trivial⟩
  · refine callOk_of_not_entering id fun h => ?_
    rw [hforce.2 rfl] at h
    cases h

/-- A winner that finishes clears the flag, which nobody else holds. -/
theorem FlagInv.finish (hi : FlagInv s) {t : T} {c : Call Q} {result : Bool}
    (hold : s.thr t = .run c (.finishing result))
    (hrel : s'.reloading = if c.winner then false else s.reloading)
    (ht : s'.thr = Function.update s.thr t (.run c (c.checked result))) : FlagInv s' := by
  obtain ⟨hl, he⟩ := checked_served (A := A) c result
  have hcall : (Thread.run c (c.checked result) : Thread Q A).CallOk := by
    have hc := hi.calls t
    rw [hold] at hc
    exact callOk_of_not_entering he fun h => hc.1 (.inr h)
  cases hw : c.winner with
  | false =>
    rw [hw, if_neg Bool.false_ne_true] at hrel
    refine hi.same ht hrel ?_ hcall
    rw [hold]
    refine iff_of_false (not_reloads hl) fun h => ?_
    rw [h.1] at hw
    cases hw
  | true =>
    rw [hw, if_pos rfl] at hrel
    have hmine : (s.thr t).Reloads := by
      rw [hold]
      exact ⟨hw, trivial⟩
    have hnone : ∀ u, ¬ (s'.thr u).Reloads :=
      forall_thr (p := fun _ x => ¬ x.Reloads) ht (not_reloads hl) fun u hu hr =>
        hu (hi.alone u t hr hmine)
    refine ⟨?_, fun u v hu => (hnone u hu).elim,
      forall_thr (p := fun _ x => x.CallOk) ht hcall fun u _ => hi.calls u⟩
    rw [hrel]
    refine iff_of_false Bool.false_ne_true ?_
    rintro ⟨u, hu⟩
    exact hnone u hu

theorem FlagInv.step {a : Act T E Q A} (hi : FlagInv s) (hs : step K cfg s a = some s') :
    FlagInv s' := by
  obtain ⟨now, -, rfl⟩ | ⟨t, th, -, ht, -, hc⟩ := step_control hs
  · exact ⟨hi.flag, hi.alone, hi.calls⟩
  have hcall := hi.calls t
  generalize hold : s.thr t = old at hc hcall
  generalize hrel : s'.reloading = rel at hc
  generalize s'.tst = tst at hc
  cases hc with
  | @call _ op th hth =>
    refine hi.same ht hrel ?_ ⟨fun _ => rfl, fun h => by cases h⟩
    rw [hold]
    refine iff_of_false (not_reloads id) ?_
    obtain rfl | ⟨c, ans, rfl⟩ := hth
    · exact id
    · exact not_reloads id
  | @force _ c now hop =>
    have hw : c.winner = false := hcall.1 (.inl trivial)
    refine hi.same ht hrel ?_ (callOk_of_not_entering id fun _ => hw)
    rw [hold]
    refine iff_of_false (fun h => ?_) (not_reloads id)
    rw [h.1] at hw
    cases hw
  | expired hop hrel' hexp =>
    refine hi.same ht hrel ?_ ⟨fun _ => hcall.1 (.inl trivial), fun _ => hop⟩
    rw [hold]
    exact iff_of_false (not_reloads id) (not_reloads id)
  | @pass _ c now =>
    obtain ⟨hl, he⟩ := checked_served (A := A) c true
    refine hi.same ht hrel ?_ (callOk_of_not_entering he fun _ => hcall.1 (.inl trivial))
    rw [hold]
    exact iff_of_false (not_reloads hl) (not_reloads id)
  | @lose _ c hrel' =>
    obtain ⟨hl, he⟩ := checked_served (A := A) c true
    refine hi.same ht hrel ?_ (callOk_of_not_entering he fun _ => hcall.1 (.inl trivial))
    rw [hold]
    exact iff_of_false (not_reloads hl) (not_reloads id)
  | load ha hpc hpc' hleft =>
    refine hi.same ht hrel ?_ (callOk_of_not_entering hpc'.not_entering fun h => hcall.1 (.inr h))
    rw [hold]
    exact and_congr Iff.rfl (iff_of_true hpc' hpc)
  | serve ha hpc hpc' hent hent' =>
    refine hi.same ht hrel ?_ (callOk_of_not_entering hent' fun h => hcall.1 (.inr h))
    rw [hold]
    exact iff_of_false (not_reloads hpc') (not_reloads hpc)
  | win hrel' => exact hi.win hold hrel' hrel ht
  | finish => exact hi.finish hold hrel ht

theorem FlagInv.reach {file : Option (List UInt8)} {tr : List (Act T E Q A)}
    (h : exec (Remote.step K cfg) (.init K file) tr = some s) : FlagInv s :=
  exec_inv' (fun _ _ _ hi hs => hi.step hs) (.init file) h

/-! ## Every winner finishes -/

def Panics (K : Kind E P Q A) (s : RemoteSys T P Q A) (t : T) : Prop :=
  ∃ c b isBackup, s.thr t = .run c (.parsing b isBackup) ∧
    ∀ e, ∀ txt ∈ s.heap.bufText b, K.parse e txt = .panic

/-- A thread that loads can go on, unless its contents abort the process. -/
theorem MemInv.load_goes_on (hi : MemInv K s) {t : T} {c : Call Q} {pc : Pc A}
    (ht : s.thr t = .run c pc) (hpc : pc.Loading) :
    Panics K s t ∨ ∃ a : Act T E Q A, a.thread = some t ∧ (Remote.step K cfg s a).isSome := by
  cases pc with
  | reading => exact .inr ⟨.read t none, rfl, by simp [Remote.step, ht]⟩
  | parsing b isBackup =>
    have hlive := hi.threads t
    rw [ht] at hlive
    obtain ⟨txt, htxt⟩ := Option.isSome_iff_exists.mp ((Arena.val?_isSome _).2 (Arena.Live.lt hlive))
    by_cases hp : ∀ e, K.parse e txt = .panic
    · refine .inl ⟨c, b, isBackup, ht, fun e txt' htxt' => ?_⟩
      rw [Heap.bufText, htxt] at htxt'
      cases htxt'
      exact hp e
    · obtain ⟨e, he⟩ := not_forall.mp hp
      refine .inr ⟨.parse t e, ?_⟩
      cases hres : K.parse e txt with
      | panic => exact (he hres).elim
      | failed => exact ⟨rfl, by simp [Remote.step, ht, Heap.bufText, htxt, hres]⟩
      | parsed p =>
        cases hK : K.freesUnderLock with
        | true => exact ⟨rfl, by simp [Remote.step, ht, Heap.bufText, htxt, hres, hK]⟩
        | false => exact ⟨rfl, by simp [Remote.step, ht, Heap.bufText, htxt, hres, hK]⟩
  | flushing b k old isBackup => exact .inr ⟨.flush t, rfl, by simp [Remote.step, ht]⟩
  | publishing b k isBackup => exact .inr ⟨.publish t, rfl, by simp [Remote.step, ht]⟩
  | writing b k => exact .inr ⟨.write t .openFailed, rfl, by simp [Remote.step, ht]⟩
  | failing =>
    refine .inr ⟨.readBackup t false, ?_⟩
    cases hf : s.heap.fileText with
    | none => exact ⟨rfl, by simp [Remote.step, ht, hf]⟩
    | some txt => exact ⟨rfl, by simp [Remote.step, ht, hf]⟩
  | finishing result => exact .inr ⟨.finish t, rfl, by simp [Remote.step, ht]⟩
  | testing | claiming | looking | copying | returned => exact hpc.elim

/-- A step of a thread that holds the flag brings it closer to the end of the load, or it is the
end, and clears the flag; steps of the others leave it alone. -/
theorem reloads_progress {a : Act T E Q A} (hs : Remote.step K cfg s a = some s') {t : T}
    (hr : (s.thr t).Reloads) :
    if a.thread = some t then
      (s'.thr t).Reloads ∧ (s'.thr t).left < (s.thr t).left ∨
        ¬ (s'.thr t).Reloads ∧ s'.reloading = false
    else s'.thr t = s.thr t := by
  obtain ⟨now, rfl, rfl⟩ | ⟨u, th, ha, ht, -, hc⟩ := step_control hs
  · exact rfl
  rw [ha]
  by_cases hu : u = t
  · subst hu
    rw [if_pos rfl]
    have hself : s'.thr u = th := by rw [ht, Function.update_self]
    rw [hself]
    generalize s.thr u = old at hc hr
    generalize hrel : s'.reloading = rel at hc
    generalize s'.tst = tst at hc
    cases hc with
    | @call _ op th hth =>
      obtain rfl | ⟨c, ans, rfl⟩ := hth
      · exact hr.elim
      · exact hr.2.elim
    | load ha hpc hpc' hleft => exact .inl ⟨⟨hr.1, hpc'⟩, hleft⟩
    | @finish _ c result =>
      refine .inr ⟨not_reloads (checked_served c result).1, ?_⟩
      rw [hr.1, if_pos rfl]
    | force | expired | pass | lose | win => exact hr.2.elim
    | serve ha hpc => exact (hpc hr.2).elim
  · rw [if_neg fun h => hu (Option.some.inj h), ht, Function.update_of_ne (Ne.symm hu)]

def turns (t : T) (tr : List (Act T E Q A)) : Nat := (tr.filter fun a => a.thread = some t).length

/-- **Every winner finishes**: a thread that holds the flag and takes as many steps as its load has
left reaches the end of the load, and clears the flag there. -/
theorem FlagInv.finishes {tr : List (Act T E Q A)} {t : T} (hi : FlagInv s)
    (hr : (s.thr t).Reloads) (hex : exec (Remote.step K cfg) s tr = some s')
    (hturns : (s.thr t).left ≤ turns t tr) :
    ∃ tr₁ tr₂ s₁, tr = tr₁ ++ tr₂ ∧ exec (Remote.step K cfg) s tr₁ = some s₁ ∧
      ¬ (s₁.thr t).Reloads ∧ s₁.reloading = false := by
  induction tr generalizing s with
  | nil =>
    have hpos : 0 < (s.thr t).left := by
      cases hth : s.thr t with
      | idle =>
        rw [hth] at hr
        exact hr.elim
      | run c pc =>
        rw [hth] at hr
        exact left_pos hr.2
    simp only [turns, List.filter_nil, List.length_nil] at hturns
    omega
  | cons a tr ih =>
    obtain ⟨s₁, h₁, h₂⟩ := exec_cons_some hex
    have hprog := reloads_progress h₁ hr
    by_cases hend : ¬ (s₁.thr t).Reloads ∧ s₁.reloading = false
    · exact ⟨[a], tr, s₁, rfl, by simp [exec, h₁], hend⟩
    · have hgo : (s₁.thr t).Reloads ∧ (s₁.thr t).left ≤ turns t tr := by
        by_cases ha : a.thread = some t
        · rw [if_pos ha] at hprog
          obtain ⟨hr₁, hless⟩ := hprog.resolve_right hend
          have hcount : turns t (a :: tr) = turns t tr + 1 := by simp [turns, ha]
          exact ⟨hr₁, by omega⟩
        · rw [if_neg ha] at hprog
          have hcount : turns t (a :: tr) = turns t tr := by simp [turns, ha]
          rw [hprog]
          exact ⟨hr, by omega⟩
      obtain ⟨tr₁, tr₂, s₂, rfl, hex₁, hend₂⟩ := ih (hi.step h₁) hgo.1 h₂ hgo.2
      exact ⟨a :: tr₁, tr₂, s₂, rfl, by simp [exec, h₁, hex₁], hend₂⟩

/-- The discipline of the flag `reloading`, in one state of a remote. -/
structure ReloadDiscipline (K : Kind E P Q A) (cfg : RemoteCfg) (s : RemoteSys T P Q A) : Prop where
  /-- The flag is set exactly while some thread is between its claim and the end of its load. -/
  flag : s.reloading = true ↔ ∃ t, (s.thr t).Reloads
  /-- At most one thread is there. -/
  alone : ∀ t u, (s.thr t).Reloads → (s.thr u).Reloads → t = u
  /-- A forced load leaves the flag as it is. -/
  forced : ∀ (a : Act T E Q A) s' t, Remote.step K cfg s a = some s' → a.thread = some t →
    (s'.thr t).Forced → s'.reloading = s.reloading
  /-- The flag is clear when a winner is through. -/
  cleared : ∀ (a : Act T E Q A) s' t, Remote.step K cfg s a = some s' → (s.thr t).Reloads →
    ¬ (s'.thr t).Reloads → s'.reloading = false
  /-- A winner is never stuck; if its parser does not abort the process, it can go on. -/
  goes_on : ∀ t, (s.thr t).Reloads →
    Panics K s t ∨ ∃ a : Act T E Q A, a.thread = some t ∧ (Remote.step K cfg s a).isSome
  /-- Within eight of its steps, whatever their outcomes are, a winner is through. -/
  finishes : ∀ t (tr : List (Act T E Q A)) s', (s.thr t).Reloads →
    exec (Remote.step K cfg) s tr = some s' → 8 ≤ turns t tr →
    ∃ tr₁ tr₂ s₁, tr = tr₁ ++ tr₂ ∧ exec (Remote.step K cfg) s tr₁ = some s₁ ∧
      ¬ (s₁.thr t).Reloads ∧ s₁.reloading = false

/-- Only a call that was not forced claims the reload, or finishes it. -/
theorem FlagInv.forced {a : Act T E Q A} (hi : FlagInv s) (hs : Remote.step K cfg s a = some s')
    {t : T} (ha : a.thread = some t) (hf : (s'.thr t).Forced) : s'.reloading = s.reloading := by
  obtain ⟨now, rfl, rfl⟩ | ⟨u, th, hu, ht, -, hc⟩ := step_control hs
  · rfl
  obtain rfl : u = t := Option.some.inj (hu.symm.trans ha)
  rw [ht, Function.update_self] at hf
  have hcall := hi.calls u
  generalize s.thr u = old at hc hcall
  generalize hrel : s'.reloading = rel at hc ⊢
  generalize s'.tst = tst at hc
  cases hc with
  | call | force | expired | pass | lose | load | serve => rfl
  | win =>
    have hop := hcall.2 rfl
    rw [show _ = true from hf] at hop
    cases hop
  | @finish _ c result =>
    rw [hcall.1 (.inr hf)]
    rfl

/-- **Periodic reloads exclude each other**, and every one of them releases the flag: in every
state that any number of calls reach, whatever comes of reading, parsing and the backup. -/
theorem periodic_reloads_exclusive {file : Option (List UInt8)} {tr : List (Act T E Q A)}
    (h : exec (Remote.step K cfg) (.init K file) tr = some s) : ReloadDiscipline K cfg s := by
  have hi := FlagInv.reach h
  have hm := MemInv.reach h
  refine ⟨hi.flag, hi.alone, fun a s' t hs ha hf => hi.forced hs ha hf,
    fun a s' t hs hr hn => ?_, fun t hr => ?_, fun t tr' s' hr hex hturns => ?_⟩
  · have hprog := reloads_progress hs hr
    split at hprog
    · exact (hprog.resolve_left fun h => hn h.1).2
    · rw [hprog] at hn
      exact (hn hr).elim
  · cases ht : s.thr t with
    | idle =>
      rw [ht] at hr
      exact hr.elim
    | run c pc =>
      rw [ht] at hr
      exact hm.load_goes_on ht hr.2
  · have hle := left_le (s.thr t)
    exact hi.finishes hr hex (by omega)

/-! ## A run

A rules object with a period of ten seconds. Thread 0 claims the reload at second 100, and thread 1
forces a load meanwhile. -/

section Example

open Rules

abbrev periodicCfg : RemoteCfg := ⟨false, false, 10⟩

abbrev ReloadSys := RemoteSys (Fin 2) (List (Rule CString)) GetArgs CString

abbrev ReloadAct := Act (Fin 2) Unit GetArgs CString

abbrev runReloads (tr : List ReloadAct) : Option ReloadSys :=
  exec (step (rulesKind literal occurs) periodicCfg) (.init (rulesKind literal occurs) none) tr

/-- An `inspect` that finds the remote expired, up to the claim. -/
def claimReload (t : Fin 2) : List ReloadAct := [.call t .inspect, .test t, .claim t]

/-- A load of "a->b", from the read to the end. -/
def loadThrough (t : Fin 2) : List ReloadAct :=
  [.read t (some [97, 45, 62, 98]), .parse t (), .flush t, .publish t, .finish t]

def forcedMeanwhile : List ReloadAct :=
  [.clock 100] ++ claimReload 0 ++ [.call 1 (.reload false), .test 1] ++ loadThrough 1

theorem periodic_reloads_exclusive_forced_meanwhile :
    ∃ s, runReloads forcedMeanwhile = some s ∧ s.reloading = true ∧ s.tst = 100 ∧
      ReloadDiscipline (rulesKind literal occurs) periodicCfg s := by
  have hrun : (runReloads forcedMeanwhile).map (fun s => (s.reloading, s.tst)) =
      some (true, 100) := by decide
  obtain ⟨s, hs, ht⟩ := Option.map_eq_some_iff.mp hrun
  simp only [Prod.mk.injEq] at ht
  exact ⟨s, hs, ht.1, ht.2, periodic_reloads_exclusive hs⟩

end Example

end VmodCfg.Remote
