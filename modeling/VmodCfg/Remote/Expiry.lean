import Mathlib.Data.List.Chain
import VmodCfg.Remote.Reloading

/-!
# Redundant periodic reloads

`check_remote` tests `tst` before it takes the lock, and under the lock it tests
`reloading` only. A thread that was overtaken in between, by a whole load of
another thread, claims a reload that is not due any more. `Watch` is what is
written down of a run to say so; no action reads it.
-/

namespace VmodCfg.Remote

open Machine

/-- A successful load: was it periodic, `now` in the call, and the `tst` it left. -/
structure Load where
  periodic : Bool
  start : Int
  finish : Int
  deriving DecidableEq

/-- `now` in the call of each thread, whether a load has succeeded since the thread tested the
remote, and the successful loads in the order of their ends. -/
structure Watch (T : Type*) where
  now : T → Int
  overtaken : T → Bool
  loads : List Load

section Defs

variable {T E P Q A : Type*} (K : Kind E P Q A) (cfg : RemoteCfg)

def Watch.init : Watch T := ⟨fun _ => 0, fun _ => false, []⟩

def Watch.tested [DecidableEq T] (w : Watch T) (t : T) (now : Int) : Watch T :=
  { w with
    now := Function.update w.now t now
    overtaken := Function.update w.overtaken t false }

def Watch.ended (w : Watch T) (l : Load) : Watch T :=
  { w with
    overtaken := fun _ => true
    loads := w.loads ++ [l] }

def watch [DecidableEq T] (s : RemoteSys T P Q A) (a : Act T E Q A) (w : Watch T) : Watch T :=
  match a with
  | .test t =>
    match s.thr t with
    | .run _ (.testing now) => w.tested t now
    | _ => w
  | .finish t =>
    match s.thr t with
    | .run c (.finishing true) => w.ended ⟨c.winner, w.now t, s.clock⟩
    | _ => w
  | _ => w

def Thread.claims : Thread Q A → Bool
  | .run _ .claiming => true
  | _ => false

def Claims (s : RemoteSys T P Q A) (t : T) : Prop := s.reloading = false ∧ (s.thr t).claims = true

/-- A thread that gets the periodic reload finds the remote still expired. -/
def StillExpired (x : RemoteSys T P Q A × Watch T) : Act T E Q A → Prop
  | .claim t => Claims x.1 t → (cfg.period.toNat : Int) < x.2.now t - x.1.tst
  | _ => True

/-- A thread that gets the periodic reload has not been overtaken: no load has succeeded since its
unlocked test. -/
def NotOvertaken (x : RemoteSys T P Q A × Watch T) : Act T E Q A → Prop
  | .claim t => Claims x.1 t → x.2.overtaken t = false
  | _ => True

def ClockForward (x : RemoteSys T P Q A × Watch T) : Act T E Q A → Prop
  | .clock now => x.1.clock ≤ now
  | _ => True

/-- The second load started more than a period after the first one ended, if both are periodic. -/
def Load.Apart (a b : Load) : Prop :=
  a.periodic = true → b.periodic = true → (cfg.period.toNat : Int) < b.start - a.finish

abbrev watchedInit (file : Option (List UInt8)) : RemoteSys T P Q A × Watch T :=
  (.init K file, .init)

/-- What is written down of a thread that is going to reload, or does. -/
structure Timely (tst : Int) (w : Watch T) (t : T) (th : Thread Q A) : Prop where
  claiming : ∀ c, th = .run c .claiming → w.overtaken t = false →
    (cfg.period.toNat : Int) < w.now t - tst
  reloads : th.Reloads → ∀ l ∈ w.loads.getLast?, l.periodic = true →
    (cfg.period.toNat : Int) < w.now t - l.finish

/-- What the claim of a reload relies on. -/
structure ExpiryInv (x : RemoteSys T P Q A × Watch T) : Prop where
  flag : FlagInv x.1
  last : ∀ l ∈ x.2.loads.getLast?, x.1.tst = l.finish
  threads : ∀ t, Timely cfg x.1.tst x.2 t (x.1.thr t)
  chain : x.2.loads.IsChain (Load.Apart cfg)

/-- What is written down of a thread, when the clock does not go back. -/
structure Clocked (clock tst : Int) (w : Watch T) (t : T) (th : Thread Q A) : Prop where
  testing : ∀ c now, th = .run c (.testing now) → now ≤ clock
  claiming : ∀ c, th = .run c .claiming → w.now t ≤ clock ∧ (w.overtaken t = true → w.now t ≤ tst)
  reloads : th.Reloads → ∀ l ∈ w.loads, l.periodic = true →
    (cfg.period.toNat : Int) < w.now t - l.finish

structure ClockInv (x : RemoteSys T P Q A × Watch T) : Prop where
  flag : FlagInv x.1
  tst : x.1.tst ≤ x.1.clock
  threads : ∀ t, Clocked cfg x.1.clock x.1.tst x.2 t (x.1.thr t)
  ended : ∀ l ∈ x.2.loads, l.finish ≤ x.1.tst
  apart : x.2.loads.Pairwise (Load.Apart cfg)

end Defs

variable {T E P Q A : Type*} {K : Kind E P Q A} {cfg : RemoteCfg}
variable {s s' : RemoteSys T P Q A} {w w' : Watch T}

theorem claims_iff {th : Thread Q A} : th.claims = true ↔ ∃ c, th = .run c .claiming := by
  constructor
  · intro h
    unfold Thread.claims at h
    split at h
    · rename_i c
      exact ⟨c, rfl⟩
    · cases h
  · rintro ⟨c, rfl⟩
    rfl

theorem timely_of_not {tst : Int} {t : T} {c : Call Q} {pc : Pc A} (hpc : pc ≠ .claiming)
    (hr : ¬ (Thread.run c pc).Reloads) : Timely cfg tst w t (.run c pc) := by
  refine ⟨fun c' h => ?_, fun h => (hr h).elim⟩
  cases h
  exact (hpc rfl).elim

theorem checked_not_claiming (c : Call Q) (result : Bool) :
    (c.checked result : Pc A) ≠ .claiming := fun h =>
  (checked_served (A := A) c result).2 (h ▸ trivial)

theorem timely_checked {tst : Int} {t : T} (c : Call Q) (result : Bool) :
    Timely (A := A) cfg tst w t (.run c (c.checked result)) :=
  timely_of_not (checked_not_claiming c result) (not_reloads (checked_served c result).1)

theorem ExpiryInv.init (file : Option (List UInt8)) :
    ExpiryInv cfg (watchedInit K file : RemoteSys T P Q A × Watch T) := by
  refine ⟨.init file, fun l h => ?_, fun t => ⟨fun c h => ?_, fun h => h.elim⟩, .nil⟩
  · cases h
  · cases h

theorem clocked_of_not {clock tst : Int} {t : T} {c : Call Q} {pc : Pc A} (hpc : ¬ pc.Entering)
    (hr : ¬ (Thread.run c pc).Reloads) : Clocked cfg clock tst w t (.run c pc) := by
  refine ⟨fun c' now h => ?_, fun c' h => ?_, fun h => (hr h).elim⟩
  · cases h
    exact (hpc trivial).elim
  · cases h
    exact (hpc trivial).elim

theorem clocked_checked {clock tst : Int} {t : T} (c : Call Q) (result : Bool) :
    Clocked (A := A) cfg clock tst w t (.run c (c.checked result)) :=
  clocked_of_not (checked_served c result).2 (not_reloads (checked_served c result).1)

theorem ClockInv.init (file : Option (List UInt8)) :
    ClockInv cfg (watchedInit K file : RemoteSys T P Q A × Watch T) := by
  refine ⟨.init file, Int.le_refl 0, fun t => ⟨fun c now h => ?_, fun c h => ?_, fun h => h.elim⟩,
    fun l h => ?_, .nil⟩
  · cases h
  · cases h
  · cases h

/-- A thread that finds the remote still expired has not been overtaken. -/
theorem ClockInv.not_overtaken {a : Act T E Q A} (hi : ClockInv cfg (s, w))
    (hexp : StillExpired cfg (s, w) a) : NotOvertaken (s, w) a := by
  cases a with
  | claim t =>
    intro hcl
    obtain ⟨c, hc⟩ := claims_iff.1 hcl.2
    have hlt : (cfg.period.toNat : Int) < w.now t - s.tst := hexp hcl
    cases hov : w.overtaken t with
    | false => rfl
    | true =>
      have hle : w.now t ≤ s.tst := ((hi.threads t).claiming c hc).2 hov
      omega
  | _ => trivial

/-- A thread that has not been overtaken finds the remote still expired. -/
theorem ExpiryInv.still_expired {a : Act T E Q A} (hi : ExpiryInv cfg (s, w))
    (hok : NotOvertaken (s, w) a) : StillExpired cfg (s, w) a := by
  cases a with
  | claim t =>
    intro hcl
    obtain ⟨c, hc⟩ := claims_iff.1 hcl.2
    exact (hi.threads t).claiming c hc (hok hcl)
  | _ => trivial

variable [DecidableEq T]

theorem watch_inner {a : Act T E Q A} (ha : a.Inner) : watch s a w = w := by
  cases a <;> first | rfl | exact ha.elim

theorem watch_test {t : T} {c : Call Q} {now : Int} (ht : s.thr t = .run c (.testing now)) :
    watch s (.test t : Act T E Q A) w = w.tested t now := by
  simp [watch, ht]

theorem watch_finish {t : T} {c : Call Q} {result : Bool}
    (ht : s.thr t = .run c (.finishing result)) :
    watch s (.finish t : Act T E Q A) w =
      if result then w.ended ⟨c.winner, w.now t, s.clock⟩ else w := by
  cases result <;> simp [watch, ht]

/-- A thread moves; no load ends, and what is written down of the others stays. -/
theorem ExpiryInv.move {a : Act T E Q A} (hi : ExpiryInv cfg (s, w))
    (hs : step K cfg s a = some s') {t : T} {th : Thread Q A}
    (ht : s'.thr = Function.update s.thr t th) (htst : s'.tst = s.tst)
    (hloads : w'.loads = w.loads)
    (hothers : ∀ u, u ≠ t → w'.now u = w.now u ∧ w'.overtaken u = w.overtaken u)
    (hth : Timely cfg s.tst w' t th) : ExpiryInv cfg (s', w') := by
  refine ⟨hi.flag.step hs, ?_, ?_, ?_⟩
  · show ∀ l ∈ w'.loads.getLast?, s'.tst = l.finish
    rw [hloads, htst]
    exact hi.last
  · show ∀ u, Timely cfg s'.tst w' u (s'.thr u)
    rw [htst]
    refine forall_thr (p := fun u x => Timely cfg s.tst w' u x) ht hth fun u hu => ?_
    obtain ⟨hnow, hover⟩ := hothers u hu
    have hu' := hi.threads u
    exact ⟨by rw [hnow, hover]; exact hu'.claiming, by rw [hnow, hloads]; exact hu'.reloads⟩
  · show w'.loads.IsChain (Load.Apart cfg)
    rw [hloads]
    exact hi.chain

theorem ExpiryInv.test {a : Act T E Q A} (hi : ExpiryInv cfg (s, w))
    (hs : step K cfg s a = some s') {t : T} {th : Thread Q A} {now : Int}
    (ht : s'.thr = Function.update s.thr t th) (htst : s'.tst = s.tst)
    (hth : Timely cfg s.tst (w.tested t now) t th) : ExpiryInv cfg (s', w.tested t now) :=
  hi.move hs ht htst rfl
    (fun _ hu => ⟨Function.update_of_ne hu .., Function.update_of_ne hu ..⟩) hth

/-- A load succeeds. Whoever was about to claim a reload is overtaken; and whoever reloads saw
only a forced load end. -/
theorem ExpiryInv.finish {a : Act T E Q A} (hi : ExpiryInv cfg (s, w))
    (hs : step K cfg s a = some s') {t : T} {c : Call Q}
    (hold : s.thr t = .run c (.finishing true))
    (ht : s'.thr = Function.update s.thr t (.run c (c.checked true))) (htst : s'.tst = s.clock) :
    ExpiryInv cfg (s', w.ended ⟨c.winner, w.now t, s.clock⟩) := by
  have hlast : ∀ l ∈ (w.ended ⟨c.winner, w.now t, s.clock⟩).loads.getLast?,
      l = ⟨c.winner, w.now t, s.clock⟩ := fun l hl => by
    simpa [Watch.ended, eq_comm] using hl
  have hth := hi.threads t
  rw [show (s, w).1.thr t = _ from hold] at hth
  have hwin : c.winner = true → (s.thr t).Reloads := fun h => by
    rw [hold]
    exact ⟨h, trivial⟩
  refine ⟨hi.flag.step hs, fun l hl => ?_, ?_, ?_⟩
  · obtain rfl := hlast l hl
    exact htst
  · refine forall_thr (p := fun u x => Timely cfg s'.tst _ u x) ht (timely_checked c true) ?_
    intro u hu
    refine ⟨fun c' _ h => ?_, fun hr l hl hper => ?_⟩
    · cases h
    · obtain rfl := hlast l hl
      exact (hu (hi.flag.alone u t hr (hwin hper))).elim
  · refine List.isChain_append.mpr ⟨hi.chain, .singleton _, fun l hl l' hl' hper hper' => ?_⟩
    cases hl'
    exact hth.reloads ⟨hper', trivial⟩ l hl hper

theorem ExpiryInv.step {a : Act T E Q A} (hok : NotOvertaken (s, w) a)
    (hi : ExpiryInv cfg (s, w)) (hs : Remote.step K cfg s a = some s') :
    ExpiryInv cfg (s', watch s a w) := by
  obtain ⟨now, rfl, rfl⟩ | ⟨t, th, ha, ht, -, hc⟩ := step_control hs
  · exact ⟨hi.flag.step hs, hi.last, hi.threads, hi.chain⟩
  have hth : Timely cfg s.tst w t (s.thr t) := hi.threads t
  have hsame : ∀ u, u ≠ t → w.now u = w.now u ∧ w.overtaken u = w.overtaken u := fun u _ =>
    ⟨rfl, rfl⟩
  generalize hold : s.thr t = old at hc hth
  generalize hrel : s'.reloading = rel at hc
  generalize htst : s'.tst = tst at hc
  cases hc with
  | call hc =>
    refine hi.move hs ht htst rfl hsame (timely_of_not ?_ (not_reloads id))
    exact fun h => by cases h
  | @force t' c now hop =>
    cases ha
    rw [watch_test hold]
    have hcall : (s.thr t).CallOk := hi.flag.calls t
    rw [hold] at hcall
    refine hi.test hs ht htst (timely_of_not ?_ fun hr => ?_)
    · exact fun h => by cases h
    · exact Bool.false_ne_true ((hcall.1 (.inl trivial)).symm.trans hr.1)
  | @expired t' c now hop hrel' hexp =>
    cases ha
    rw [watch_test hold]
    refine hi.test hs ht htst ⟨fun c' _ _ => ?_, fun hr => (not_reloads id hr).elim⟩
    simpa [Watch.tested] using hexp
  | @pass t' c now =>
    cases ha
    rw [watch_test hold]
    exact hi.test hs ht htst (timely_checked c true)
  | @lose t' c hrel' => exact hi.move hs ht htst rfl hsame (timely_checked c true)
  | @win t' c hrel' =>
    cases ha
    refine hi.move hs ht htst rfl hsame ⟨fun c' h => ?_, fun _ l hl _ => ?_⟩
    · cases h
    · rw [← hi.last l hl]
      exact hth.claiming c rfl (hok ⟨hrel', claims_iff.2 ⟨c, hold⟩⟩)
  | load hin hpc hpc' hleft =>
    rw [watch_inner hin]
    refine hi.move hs ht htst rfl hsame ⟨fun c' h => ?_, fun hr => hth.reloads ⟨hr.1, hpc⟩⟩
    cases h
    exact hpc'.elim
  | @finish t' c result =>
    cases ha
    rw [watch_finish hold]
    cases result with
    | true => exact hi.finish hs hold ht htst
    | false => exact hi.move hs ht htst rfl hsame (timely_checked c false)
  | serve hin hpc hpc' hent hent' =>
    rw [watch_inner hin]
    refine hi.move hs ht htst rfl hsame (timely_of_not ?_ (not_reloads hpc'))
    rintro rfl
    exact hent' trivial

/-! ## A clock that does not go back -/

theorem ClockInv.move {a : Act T E Q A} (hi : ClockInv cfg (s, w)) (hs : step K cfg s a = some s')
    {t : T} {th : Thread Q A} (ht : s'.thr = Function.update s.thr t th)
    (hclock : s'.clock = s.clock) (htst : s'.tst = s.tst) (hloads : w'.loads = w.loads)
    (hothers : ∀ u, u ≠ t → w'.now u = w.now u ∧ w'.overtaken u = w.overtaken u)
    (hth : Clocked cfg s.clock s.tst w' t th) : ClockInv cfg (s', w') := by
  refine ⟨hi.flag.step hs, ?_, ?_, ?_, ?_⟩
  · show s'.tst ≤ s'.clock
    rw [htst, hclock]
    exact hi.tst
  · show ∀ u, Clocked cfg s'.clock s'.tst w' u (s'.thr u)
    rw [htst, hclock]
    refine forall_thr (p := fun u x => Clocked cfg s.clock s.tst w' u x) ht hth fun u hu => ?_
    obtain ⟨hnow, hover⟩ := hothers u hu
    have hu' := hi.threads u
    exact ⟨hu'.testing, by rw [hnow, hover]; exact hu'.claiming,
      by rw [hnow, hloads]; exact hu'.reloads⟩
  · show ∀ l ∈ w'.loads, l.finish ≤ s'.tst
    rw [hloads, htst]
    exact hi.ended
  · show w'.loads.Pairwise (Load.Apart cfg)
    rw [hloads]
    exact hi.apart

/-- A load succeeds, at a time that no earlier load and no thread has gone past. -/
theorem ClockInv.finish {a : Act T E Q A} (hi : ClockInv cfg (s, w))
    (hs : step K cfg s a = some s') {t : T} {c : Call Q}
    (hold : s.thr t = .run c (.finishing true))
    (ht : s'.thr = Function.update s.thr t (.run c (c.checked true)))
    (hclock : s'.clock = s.clock) (htst : s'.tst = s.clock) :
    ClockInv cfg (s', w.ended ⟨c.winner, w.now t, s.clock⟩) := by
  have htc : s.tst ≤ s.clock := hi.tst
  have hth := hi.threads t
  rw [show (s, w).1.thr t = _ from hold] at hth
  have hwin : c.winner = true → (s.thr t).Reloads := fun h => by
    rw [hold]
    exact ⟨h, trivial⟩
  refine ⟨hi.flag.step hs, ?_, ?_, fun l hl => ?_, ?_⟩
  · show s'.tst ≤ s'.clock
    omega
  · refine forall_thr (p := fun u x => Clocked cfg s'.clock s'.tst _ u x) ht
      (clocked_checked c true) fun u hu => ?_
    have hu' := hi.threads u
    refine ⟨fun c' now h => ?_, fun c' h => ?_, fun hr l hl hper => ?_⟩
    · have hnow : now ≤ s.clock := hu'.testing c' now h
      omega
    · have hnow : w.now u ≤ s.clock := (hu'.claiming c' h).1
      simp only [Watch.ended]
      omega
    · rcases List.mem_append.mp hl with hl | hl
      · exact hu'.reloads hr l hl hper
      · obtain rfl := List.mem_singleton.mp hl
        exact (hu (hi.flag.alone u t hr (hwin hper))).elim
  · show l.finish ≤ s'.tst
    rcases List.mem_append.mp hl with hl | hl
    · have hle : l.finish ≤ s.tst := hi.ended l hl
      omega
    · obtain rfl := List.mem_singleton.mp hl
      simp only
      omega
  · refine List.pairwise_append.mpr ⟨hi.apart, List.pairwise_singleton _ _, fun l hl l' hl' => ?_⟩
    obtain rfl := List.mem_singleton.mp hl'
    exact fun hper hper' => hth.reloads ⟨hper', trivial⟩ l hl hper

theorem ClockInv.step {a : Act T E Q A} (hfwd : ClockForward (s, w) a)
    (hexp : StillExpired cfg (s, w) a) (hi : ClockInv cfg (s, w))
    (hs : Remote.step K cfg s a = some s') : ClockInv cfg (s', watch s a w) := by
  obtain ⟨now, rfl, rfl⟩ | ⟨t, th, ha, ht, hclock, hc⟩ := step_control hs
  · have hle : s.clock ≤ now := hfwd
    refine ⟨hi.flag.step hs, Int.le_trans hi.tst hle, fun t => ?_, hi.ended, hi.apart⟩
    have ht := hi.threads t
    exact ⟨fun c now' h => Int.le_trans (ht.testing c now' h) hle,
      fun c h => ⟨Int.le_trans (ht.claiming c h).1 hle, (ht.claiming c h).2⟩, ht.reloads⟩
  have hth : Clocked cfg s.clock s.tst w t (s.thr t) := hi.threads t
  have hsame : ∀ u, u ≠ t → w.now u = w.now u ∧ w.overtaken u = w.overtaken u := fun u _ =>
    ⟨rfl, rfl⟩
  have htested : ∀ (t : T) (now : Int) (u : T), u ≠ t →
      (w.tested t now).now u = w.now u ∧ (w.tested t now).overtaken u = w.overtaken u :=
    fun t now u hu => ⟨Function.update_of_ne hu .., Function.update_of_ne hu ..⟩
  generalize hold : s.thr t = old at hc hth
  generalize hrel : s'.reloading = rel at hc
  generalize htst : s'.tst = tst at hc
  cases hc with
  | call hc =>
    refine hi.move hs ht hclock htst rfl hsame
      ⟨fun c now h => ?_, fun c h => ?_, fun h => (not_reloads id h).elim⟩
    · cases h
      exact Int.le_refl _
    · cases h
  | @force t' c now hop =>
    cases ha
    rw [watch_test hold]
    have hcall : (s.thr t).CallOk := hi.flag.calls t
    rw [hold] at hcall
    refine hi.move hs ht hclock htst rfl (htested t now) (clocked_of_not id fun hr => ?_)
    exact Bool.false_ne_true ((hcall.1 (.inl trivial)).symm.trans hr.1)
  | @expired t' c now hop hrel' hexp' =>
    cases ha
    rw [watch_test hold]
    refine hi.move hs ht hclock htst rfl (htested t now)
      ⟨fun c' now' h => ?_, fun c' _ => ?_, fun h => (not_reloads id h).elim⟩
    · cases h
    · simpa [Watch.tested] using hth.testing c now rfl
  | @pass t' c now =>
    cases ha
    rw [watch_test hold]
    exact hi.move hs ht hclock htst rfl (htested t now) (clocked_checked c true)
  | @lose t' c hrel' => exact hi.move hs ht hclock htst rfl hsame (clocked_checked c true)
  | @win t' c hrel' =>
    cases ha
    refine hi.move hs ht hclock htst rfl hsame
      ⟨fun c' now h => ?_, fun c' h => ?_, fun _ l hl _ => ?_⟩
    · cases h
    · cases h
    · have hnow : (cfg.period.toNat : Int) < w.now t - s.tst := hexp ⟨hrel', claims_iff.2 ⟨c, hold⟩⟩
      have hle : l.finish ≤ s.tst := hi.ended l hl
      show (cfg.period.toNat : Int) < w.now t - l.finish
      omega
  | load hin hpc hpc' hleft =>
    rw [watch_inner hin]
    refine hi.move hs ht hclock htst rfl hsame
      ⟨fun c' now h => ?_, fun c' h => ?_, fun hr => hth.reloads ⟨hr.1, hpc⟩⟩
    · cases h
      exact hpc'.elim
    · cases h
      exact hpc'.elim
  | @finish t' c result =>
    cases ha
    rw [watch_finish hold]
    cases result with
    | true => exact hi.finish hs hold ht hclock htst
    | false => exact hi.move hs ht hclock htst rfl hsame (clocked_checked c false)
  | serve hin hpc hpc' hent hent' =>
    rw [watch_inner hin]
    exact hi.move hs ht hclock htst rfl hsame (clocked_of_not hent' (not_reloads hpc'))

/-! ## Runs -/

abbrev watchedStep (K : Kind E P Q A) (cfg : RemoteCfg) :
    RemoteSys T P Q A × Watch T → Act T E Q A → Option (RemoteSys T P Q A × Watch T) :=
  watched (step K cfg) watch

/-- **No redundant periodic reload**, in the runs where no thread that gets the reload has been
overtaken since its test: the remote is still expired when the reload is claimed, and successive
periodic loads are more than a period apart (all of them, if the clock does not go back). If the
clock does not go back, the condition is necessary too. -/
theorem no_redundant_reload {file : Option (List UInt8)} {tr : List (Act T E Q A)} :
    (Along (watchedStep K cfg) NotOvertaken (watchedInit K file) tr →
      Along (watchedStep K cfg) (StillExpired cfg) (watchedInit K file) tr ∧
        ∀ x, exec (watchedStep K cfg) (watchedInit K file) tr = some x →
          x.2.loads.IsChain (Load.Apart cfg) ∧
            (Along (watchedStep K cfg) ClockForward (watchedInit K file) tr →
              x.2.loads.Pairwise (Load.Apart cfg))) ∧
    (Along (watchedStep K cfg) ClockForward (watchedInit K file) tr →
      Along (watchedStep K cfg) (StillExpired cfg) (watchedInit K file) tr →
        Along (watchedStep K cfg) NotOvertaken (watchedInit K file) tr) := by
  have hexpiry : ∀ (x : RemoteSys T P Q A × Watch T) a x', NotOvertaken x a → ExpiryInv cfg x →
      watchedStep K cfg x a = some x' → ExpiryInv cfg x' := by
    rintro ⟨s, w⟩ a ⟨s', w'⟩ hok hi hs
    obtain ⟨hs₁, rfl⟩ := watched_some.1 hs
    exact hi.step hok hs₁
  have hclock : ∀ (x : RemoteSys T P Q A × Watch T) a x',
      ClockForward x a ∧ StillExpired cfg x a → ClockInv cfg x →
      watchedStep K cfg x a = some x' → ClockInv cfg x' := by
    rintro ⟨s, w⟩ a ⟨s', w'⟩ hok hi hs
    obtain ⟨hs₁, rfl⟩ := watched_some.1 hs
    exact hi.step hok.1 hok.2 hs₁
  refine ⟨fun hok => ?_, fun hfwd hexp => ?_⟩
  · have hexp := along_of_inv hexpiry (P := StillExpired cfg)
      (fun x a hok hi => hi.still_expired hok) hok (.init file)
    refine ⟨hexp, fun x hex => ⟨(exec_inv hexpiry hok (.init file) hex).chain, fun hfwd => ?_⟩⟩
    exact (exec_inv hclock (along_and hfwd hexp) (.init file) hex).apart
  · exact along_of_inv hclock (P := NotOvertaken)
      (fun x a hok hi => hi.not_overtaken hok.2) (along_and hfwd hexp) (.init file)

/-! ## An overtaken thread -/

instance (s : RemoteSys T P Q A) (t : T) : Decidable (Claims s t) :=
  inferInstanceAs (Decidable (_ ∧ _))

instance (x : RemoteSys T P Q A × Watch T) (a : Act T E Q A) : Decidable (StillExpired cfg x a) :=
  match a with
  | .claim t => inferInstanceAs (Decidable (Claims x.1 t → _ < x.2.now t - x.1.tst))
  | .clock _ | .call .. | .test _ | .read .. | .parse .. | .flush _ | .publish _ | .write ..
  | .readBackup .. | .finish _ | .look .. | .copy .. => isTrue trivial

instance (x : RemoteSys T P Q A × Watch T) (a : Act T E Q A) : Decidable (NotOvertaken x a) :=
  match a with
  | .claim t => inferInstanceAs (Decidable (Claims x.1 t → x.2.overtaken t = false))
  | .clock _ | .call .. | .test _ | .read .. | .parse .. | .flush _ | .publish _ | .write ..
  | .readBackup .. | .finish _ | .look .. | .copy .. => isTrue trivial

instance (x : RemoteSys T P Q A × Watch T) (a : Act T E Q A) : Decidable (ClockForward x a) :=
  match a with
  | .clock now => inferInstanceAs (Decidable (x.1.clock ≤ now))
  | .call .. | .test _ | .claim _ | .read .. | .parse .. | .flush _ | .publish _ | .write ..
  | .readBackup .. | .finish _ | .look .. | .copy .. => isTrue trivial

section Example

open Rules

abbrev rulesReloads : ReloadSys × Watch (Fin 2) → ReloadAct → Option (ReloadSys × Watch (Fin 2)) :=
  watchedStep (rulesKind literal occurs) periodicCfg

abbrev rulesInit : ReloadSys × Watch (Fin 2) := watchedInit (rulesKind literal occurs) none

/-- Both threads find the remote expired at second 100. Thread 1 reloads it before thread 0 claims
the reload. -/
def overtake : List ReloadAct :=
  [.clock 100, .call 0 .inspect, .test 0] ++ claimReload 1 ++ loadThrough 1 ++ [.claim 0] ++
    loadThrough 0

/-- Thread 1 reloads the remote at second 100, and thread 0 at second 111. -/
def takeTurns : List ReloadAct :=
  [.clock 100] ++ claimReload 1 ++ loadThrough 1 ++ [.clock 111] ++ claimReload 0 ++ loadThrough 0

theorem no_redundant_reload_turns :
    Along rulesReloads (StillExpired periodicCfg) rulesInit takeTurns ∧
      (exec rulesReloads rulesInit takeTurns).map (fun x => x.2.loads) =
        some [⟨true, 100, 100⟩, ⟨true, 111, 111⟩] :=
  ⟨(no_redundant_reload.1 (by decide)).1, by decide⟩

/-- **The remote is loaded twice in the same second**: thread 0 gets the reload although nothing is
due any more. -/
theorem overtaken_thread_reloads_again :
    ¬ Along rulesReloads (StillExpired periodicCfg) rulesInit overtake ∧
      Along rulesReloads ClockForward rulesInit overtake ∧
      (exec rulesReloads rulesInit overtake).map (fun x => x.2.loads) =
        some [⟨true, 100, 100⟩, ⟨true, 100, 100⟩] ∧
      ¬ Load.Apart periodicCfg ⟨true, 100, 100⟩ ⟨true, 100, 100⟩ := by
  refine ⟨by decide, by decide, by decide, fun h => ?_⟩
  have hlt := h rfl rfl
  simp at hlt

end Example

end VmodCfg.Remote
