import VmodCfg.Rules.Get

/-!
# The buffer that is written to the backup

Once `check_remote` has stored its `contents` in the shared state and released
the mutex, any other load may replace and free them, while the local pointer is
still to be printed to the backup file. That is harmless only where the file
cannot be opened afterwards, or the run ends before.
-/

namespace VmodCfg.Remote

open Machine

section Defs

variable {T E P Q A : Type*}

def Thread.printed : Thread Q A → Option Ref
  | .run _ (.writing b _) => some b
  | _ => none

/-- What is printed to the backup is not freed. -/
def WritesLive (s : RemoteSys T P Q A) : Act T E Q A → Prop
  | .write t (.wrote _ _) => ∀ b ∈ (s.thr t).printed, s.heap.bufs.Live b
  | _ => True

/-- The next time that the thread opens the backup, it can. -/
def Prints [DecidableEq T] (t : T) : List (Act T E Q A) → Bool
  | [] => false
  | .write u r :: tr => if u = t then r != .openFailed else Prints t tr
  | _ :: tr => Prints t tr

/-- The published contents are replaced while no thread is still to print them; the list is what
comes after the action. -/
def FreeAfterWrites [DecidableEq T] (s : RemoteSys T P Q A) :
    Act T E Q A → List (Act T E Q A) → Prop
  | .publish _, tr => ∀ b ∈ s.heap.contents, ∀ u, (s.thr u).printed = some b → Prints u tr = false
  | _, _ => True

instance (s : RemoteSys T P Q A) (a : Act T E Q A) : Decidable (WritesLive s a) :=
  match a with
  | .write t (.wrote _ _) => inferInstanceAs (Decidable (∀ b ∈ (s.thr t).printed, s.heap.bufs.Live b))
  | .write _ .openFailed | .clock _ | .call .. | .test _ | .claim _ | .read .. | .parse ..
  | .flush _ | .publish _ | .copy .. | .readBackup .. | .finish _ | .look .. => isTrue trivial

instance [DecidableEq T] [Fintype T] (s : RemoteSys T P Q A) (a : Act T E Q A)
    (tr : List (Act T E Q A)) : Decidable (FreeAfterWrites s a tr) :=
  match a with
  | .publish _ => inferInstanceAs (Decidable
      (∀ b ∈ s.heap.contents, ∀ u, (s.thr u).printed = some b → Prints u tr = false))
  | .clock _ | .call .. | .test _ | .claim _ | .read .. | .parse .. | .flush _ | .write ..
  | .readBackup .. | .finish _ | .look .. | .copy .. => isTrue trivial

/-- Every buffer that is still to be printed is live. -/
def PrintedLive [DecidableEq T] (s : RemoteSys T P Q A) (tr : List (Act T E Q A)) : Prop :=
  ∀ t b, (s.thr t).printed = some b → Prints t tr = true → s.heap.bufs.Live b

end Defs

variable {T E P Q A : Type*} {K : Kind E P Q A} {cfg : RemoteCfg} {s s' : RemoteSys T P Q A}
variable {a : Act T E Q A} {tr : List (Act T E Q A)}

theorem printed_held {th : Thread Q A} {b : Ref} (h : th.printed = some b) : th.held = some b := by
  unfold Thread.printed at h
  split at h
  · exact h
  · cases h

theorem printed_none {th : Thread Q A} (h : th.held = none) : th.printed = none := by
  rw [Option.eq_none_iff_forall_ne_some]
  intro b hb
  rw [printed_held hb] at h
  cases h

variable [DecidableEq T]

/-- What another thread does leaves the writes of this one to come. -/
theorem prints_cons {u : T} (h : a.thread ≠ some u) : Prints u (a :: tr) = Prints u tr := by
  cases a with
  | write t r =>
    apply if_neg
    rintro rfl
    exact h rfl
  | _ => rfl

theorem PrintedLive.writesLive (hp : PrintedLive s (a :: tr)) : WritesLive s a := by
  cases a with
  | write t r =>
    cases r with
    | openFailed => trivial
    | wrote n junk => exact fun b hb => hp t b hb (if_pos rfl)
  | _ => trivial

/-! ## From the publishing steps to the writes -/

/-- A thread moved; nothing that another thread is still to print was freed. -/
theorem PrintedLive.advance (hp : PrintedLive s (a :: tr)) {t : T} {th : Thread Q A}
    (ha : a.thread = some t) (ht : s'.thr = Function.update s.thr t th)
    (hth : ∀ b, th.printed = some b → s'.heap.bufs.Live b)
    (hl : ∀ u, u ≠ t → ∀ b, (s.thr u).printed = some b → Prints u tr = true →
      s.heap.bufs.Live b → s'.heap.bufs.Live b) : PrintedLive s' tr :=
  forall_thr (p := fun u x => ∀ b, x.printed = some b → Prints u tr = true → s'.heap.bufs.Live b) ht
    (fun b hb _ => hth b hb) fun u hu b hb hprints =>
      hl u hu b hb hprints (hp u b hb (by
        rw [prints_cons]
        · exact hprints
        · rw [ha]
          exact fun h => hu (Option.some.inj h).symm))

theorem PrintedLive.step (hok : FreeAfterWrites s a tr) (hi : MemInv K s)
    (hp : PrintedLive s (a :: tr)) (hs : step K cfg s a = some s') : PrintedLive s' tr := by
  obtain ⟨now, rfl, hh, ht⟩ | ⟨t, th, ha, ht, htr⟩ := step_trans hs
  · intro u
    rw [ht, hh]
    exact hp u
  have hmem := hi.threads t
  have hown := hi.owners t
  have hshare := hi.unshared t
  generalize hold : s.thr t = old at htr hmem hown hshare
  generalize hnew : s'.heap = h' at htr
  have hcalm : th.held = none → (∀ b, s.heap.bufs.Live b → s'.heap.bufs.Live b) →
      PrintedLive s' tr := fun hth hl =>
    hp.advance ha ht (fun b hb => by rw [printed_none hth] at hb; cases hb) fun u _ b _ _ => hl b
  cases htr with
  | call hth => exact hcalm rfl fun b hb => hnew ▸ hb
  | quiet hpc hpc' hop hsince => exact hcalm hpc'.held fun b hb => hnew ▸ hb
  | look hop hsnap => exact hcalm (look_held ..) fun b hb => hnew ▸ hb
  | copy hop => exact hcalm rfl fun b hb => hnew ▸ hb
  | read hpc =>
    exact hp.advance ha ht (fun b hb => by cases hb) fun u _ b _ _ hb => hnew ▸ hb.alloc
  | @drop _ _ c pc b isBackup hpc =>
    refine hp.advance ha ht (fun b' hb' => ?_) fun u hu b' hb' _ hl => ?_
    · rw [printed_none (show (Thread.run c pc).held = none from hpc.held)] at hb'
      cases hb'
    · rw [hnew]
      refine hl.free ?_
      rintro rfl
      exact hown u hu.symm b' rfl (printed_held hb')
  | swap htxt hparse hK =>
    exact hp.advance ha ht (fun b hb => by cases hb) fun u _ b _ _ hb => hnew ▸ hb
  | swapFree htxt hparse hK =>
    exact hp.advance ha ht (fun b hb => by cases hb) fun u _ b _ _ hb => hnew ▸ hb
  | flush => exact hp.advance ha ht (fun b hb => by cases hb) fun u _ b _ _ hb => hnew ▸ hb
  | @publish _ c b k isBackup =>
    refine hp.advance ha ht (fun b' hb' => ?_) fun u hu b' hb' hprints hl => ?_
    · -- what `t` prints is the buffer it just published
      have hb : b' = b := by
        have := printed_held hb'
        unfold RemoteCfg.published at this
        split at this
        · exact (Option.some.inj this).symm
        · cases this
      rw [hnew, hb]
      exact hmem.1.free? (hshare b rfl)
    · rw [hnew]
      refine hl.free? fun hc => ?_
      rw [hok b' hc u hb'] at hprints
      cases hprints
  | @write _ r c b k =>
    apply hcalm rfl
    intro b' hb'
    rw [hnew]
    cases r <;> exact hb'

/-! ## From the writes to the publishing steps -/

theorem dead_step {b : Ref} (hb : s.heap.bufs.Dead b) (hs : step K cfg s a = some s') :
    s'.heap.bufs.Dead b := by
  obtain ⟨now, -, hh, -⟩ | ⟨t, th, -, -, htr⟩ := step_trans hs
  · exact hh ▸ hb
  generalize s.thr t = old at htr
  generalize s'.heap = h' at htr
  cases htr with
  | call | quiet | look | copy | swap | swapFree | flush => exact hb
  | read => exact hb.alloc
  | drop => exact hb.free
  | publish => exact hb.free?
  | @write _ r => cases r <;> exact hb

theorem printed_step {t : T} {b : Ref} (hb : (s.thr t).printed = some b)
    (hs : step K cfg s a = some s') :
    (∃ r, a = .write t r) ∨ a.thread ≠ some t ∧ (s'.thr t).printed = some b := by
  obtain ⟨now, rfl, -, ht⟩ | ⟨u, th, ha, ht, htr⟩ := step_trans hs
  · exact .inr ⟨by rintro ⟨⟩, by rw [ht, hb]⟩
  by_cases hut : u = t
  · subst hut
    generalize s.thr u = old at htr hb
    generalize s'.heap = h' at htr
    cases htr with
    | write =>
      cases ha
      exact .inl ⟨_, rfl⟩
    | call hth =>
      obtain rfl | ⟨c, ans, rfl⟩ := hth <;> cases hb
    | @quiet _ c _ pc _ hpc | @read _ c pc _ _ hpc =>
      rw [printed_none (show (Thread.run c pc).held = none from hpc.held)] at hb
      cases hb
    | _ => cases hb
  · refine .inr ⟨fun h => hut (Option.some.inj (ha.symm.trans h)), ?_⟩
    rw [ht, Function.update_of_ne (Ne.symm hut), hb]

/-- A thread that is still to print a buffer that was freed, prints it. -/
theorem dead_printed {t : T} {b : Ref} (hp : (s.thr t).printed = some b)
    (hb : s.heap.bufs.Dead b) (hprints : Prints t tr = true)
    (hex : exec (step K cfg) s tr = some s') : ¬ Along (step K cfg) WritesLive s tr := by
  induction tr generalizing s with
  | nil => cases hprints
  | cons a tr ih =>
    intro halong
    obtain ⟨s₁, h₁, h₂⟩ := exec_cons_some hex
    obtain ⟨r, rfl⟩ | ⟨ha, hp₁⟩ := printed_step hp h₁
    · have hlive := halong.1
      rw [Prints, if_pos rfl] at hprints
      cases r with
      | openFailed => cases hprints
      | wrote n junk => exact hb.2 (hlive b hp)
    · rw [prints_cons ha] at hprints
      exact ih hp₁ (dead_step hb h₁) hprints h₂ (along_cons halong h₁)

theorem freeAfterWrites_of_along {s₁ : RemoteSys T P Q A} (hi : MemInv K s)
    (h₁ : step K cfg s a = some s₁) (hex : exec (step K cfg) s₁ tr = some s')
    (hlive : Along (step K cfg) WritesLive s₁ tr) : FreeAfterWrites s a tr := by
  cases a with
  | publish t =>
    intro b hb u hu
    by_contra hprints
    rw [Bool.not_eq_false] at hprints
    obtain ⟨r, hr⟩ | ⟨-, hu₁⟩ := printed_step hu h₁
    · cases hr
    refine dead_printed hu₁ ?_ hprints hex hlive
    have hallocated := hi.contents b hb
    simp only [step] at h₁
    split at h₁
    · cases h₁
      rw [Option.mem_def] at hb
      show (s.heap.bufs.free? s.heap.contents).Dead b
      rw [hb]
      exact hallocated.dead_free
    · cases h₁
  | _ => trivial

/-- **Every buffer that is printed to the backup is live, exactly** in the runs where the published
contents are replaced only while no thread is still to print them. -/
theorem backup_writes_live {file : Option (List UInt8)} {s : RemoteSys T P Q A}
    (hex : exec (step K cfg) (.init K file) tr = some s) :
    Along (step K cfg) WritesLive (.init K file) tr ↔
      Ahead (step K cfg) FreeAfterWrites (.init K file) tr := by
  constructor
  · exact ahead_of_along (I := MemInv K) (fun _ _ _ hi hs => hi.step hs)
      (fun _ _ _ _ _ hi h₁ hex hlive => freeAfterWrites_of_along hi h₁ hex hlive) hex (.init file)
  · intro hok
    exact along_of_ahead (I := fun s tr => MemInv K s ∧ PrintedLive s tr)
      (fun _ _ _ _ hf hi hs => ⟨hi.1.step hs, hi.2.step hf hi.1 hs⟩)
      (fun _ _ _ hi => hi.2.writesLive) hok ⟨.init file, fun t b h => by cases h⟩

/-! ## Two loads of a rules object -/

section Example

open Rules

/-- Automated backups, and no periodic reload. -/
abbrev backupCfg : RemoteCfg := ⟨true, true, 0⟩

abbrev RulesAct := Act (Fin 2) Unit GetArgs CString

/-- A forced load, up to the swap of the lists and the flush of the old one. -/
def loadParse (t : Fin 2) (bytes : List UInt8) : List RulesAct := loadSwap t bytes ++ [.flush t]

/-- The first load prints its contents before the second one replaces them. -/
def writeThenFree : List RulesAct :=
  loadParse 0 [97, 45, 62, 98] ++ [.publish 0] ++ loadParse 1 [97, 45, 62, 99] ++
    [.write 0 (.wrote 4 []), .publish 1, .write 1 (.wrote 4 [])]

theorem backup_writes_live_write_then_free :
    Along (step (rulesKind literal occurs) backupCfg) WritesLive
      (.init (rulesKind literal occurs) none) writeThenFree := by
  have hruns : (exec (step (rulesKind literal occurs) backupCfg)
      (.init (rulesKind literal occurs) none) writeThenFree).isSome := by decide
  exact (backup_writes_live (Option.some_get hruns).symm).mpr (by decide)

/-- The second load replaces the contents before the first one printed them. -/
def freeThenWrite : List RulesAct :=
  loadParse 0 [97, 45, 62, 98] ++ [.publish 0] ++ loadParse 1 [97, 45, 62, 99] ++
    [.publish 1, .write 0 (.wrote 4 [63, 63, 63, 63])]

/-- **The contents are freed before they are printed**, and the backup holds what took their
place. -/
theorem backup_write_of_freed_contents :
    ¬ Along (step (rulesKind literal occurs) backupCfg) WritesLive
        (.init (rulesKind literal occurs) none) freeThenWrite ∧
      ((exec (step (rulesKind literal occurs) backupCfg) (.init (rulesKind literal occurs) none)
        freeThenWrite).map fun s => s.heap.file) = some (some [63, 63, 63, 63]) := by
  decide

end Example

end VmodCfg.Remote
