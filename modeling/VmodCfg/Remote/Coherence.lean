import VmodCfg.Remote.Ownership

/-!
# Parsed state, published contents and backup under concurrent loads

A load publishes in three steps: the parsed state, the raw contents, the backup.
Two loads of one object (a forced load does not look at `reloading`) may take
them in different orders, and then what lookups serve, what `inspect` shows and
what a later fallback loads are not the same configuration. The three agree
whenever no load is in progress, provided that the load with the newest parsed
state is the last one to publish its contents and to write the backup.
-/

namespace VmodCfg.Remote

open Machine

section Defs

variable {T E P Q A : Type*} (K : Kind E P Q A)

/-- A load with the newest parsed state publishes its contents only when the other loads that have
contents to publish have the same. -/
def ContentsInOrder (s : RemoteSys T P Q A) : Act T E Q A → Prop
  | .publish t => ∀ x ∈ (s.thr t).unpublished, x.2 = s.heap.current →
      ∀ u, ∀ y ∈ (s.thr u).unpublished, s.heap.bufText y.1 = s.heap.bufText x.1
  | _ => True

/-- The contents that the thread is about to parse, if they come from the backup. -/
def Thread.fromBackup : Thread Q A → Option Ref
  | .run _ (.parsing b true) => some b
  | _ => none

/-- A load with the newest parsed state writes the backup only when its contents are live and no
other load has still to write it; and a state from the backup is published only when the backup
still has that text and no load has still to write it. -/
def BackupInOrder (s : RemoteSys T P Q A) : Act T E Q A → Prop
  | .write t _ => ∀ x ∈ (s.thr t).unwritten, x.2 = s.heap.current →
      s.heap.bufs.Live x.1 ∧ ∀ u, u ≠ t → (s.thr u).unwritten = none
  | .parse t e => ∀ b ∈ (s.thr t).fromBackup,
      (∀ txt ∈ s.heap.bufText b, (K.parse e txt).ok = false) ∨
        s.heap.fileText = s.heap.bufText b ∧ ∀ u, (s.thr u).unwritten = none
  | _ => True

def WriteSucceeds (s : RemoteSys T P Q A) : Act T E Q A → Prop
  | .write _ .openFailed => False
  | .write t (.wrote n junk) => ∀ b ∈ (s.thr t).printed, (s.heap.fputs b junk).length ≤ n
  | _ => True

def RemoteSys.Quiescent (s : RemoteSys T P Q A) : Prop := ∀ t, ¬ (s.thr t).Loading

def RemoteSys.Loaded (s : RemoteSys T P Q A) : Prop := 0 < s.heap.current

/-- The load of the newest state has contents to publish; or no load has others, and the published
ones are those of the newest state. -/
def ContentsCoherent (s : RemoteSys T P Q A) : Prop :=
  (∃ t b, (s.thr t).unpublished = some (b, s.heap.current)) ∨
    (∀ u, ∀ y ∈ (s.thr u).unpublished, s.heap.bufText y.1 = s.heap.snapText s.heap.current) ∧
      s.heap.contentsText = s.heap.snapText s.heap.current

/-- The load of the newest state has to write the backup; or no load has, and the backup is that of
the newest state. -/
def BackupCoherent (s : RemoteSys T P Q A) : Prop :=
  (∃ t b, (s.thr t).unwritten = some (b, s.heap.current)) ∨
    (∀ u, (s.thr u).unwritten = none) ∧
      (s.Loaded → s.heap.fileText = s.heap.snapText s.heap.current)

end Defs

variable {T E P Q A : Type*} {K : Kind E P Q A} {cfg : RemoteCfg} {s s' : RemoteSys T P Q A}

/-! ## What the steps leave alone -/

theorem MemInv.current_snap (hi : MemInv K s) :
    ∃ snap, s.heap.snaps.val? s.heap.current = some snap :=
  Option.isSome_iff_exists.mp ((Arena.val?_isSome _).2 hi.current.lt)

theorem MemInv.snapText_current (hi : MemInv K s) (hg : s.heap.Grows s'.heap)
    (hcur : s'.heap.current = s.heap.current) :
    s'.heap.snapText s'.heap.current = s.heap.snapText s.heap.current := by
  obtain ⟨snap, hs⟩ := hi.current_snap
  rw [Heap.snapText, Heap.snapText, hcur, hs, hg.snaps _ _ hs]

theorem MemInv.contentsText_same (hi : MemInv K s) (hg : s.heap.Grows s'.heap)
    (hc : s'.heap.contents = s.heap.contents) : s'.heap.contentsText = s.heap.contentsText := by
  unfold Heap.contentsText
  rw [hc]
  cases hb : s.heap.contents with
  | none => rfl
  | some b =>
    obtain ⟨txt, htxt⟩ := Option.isSome_iff_exists.mp ((Arena.val?_isSome _).2 (hi.contents b hb).lt)
    show s'.heap.bufText b = s.heap.bufText b
    rw [Heap.bufText, Heap.bufText, hg.bufs b txt htxt, htxt]

theorem snapText_swap (h : Heap P) (p : P) (txt : CString) :
    (h.swap p txt).snapText (h.swap p txt).current = some txt := by
  simp [Heap.snapText, Heap.swap]

/-- Outside every load no contents are left to publish, and no backup to write. -/
theorem RemoteSys.Quiescent.nothing_left (hq : s.Quiescent) (t : T) :
    (s.thr t).unpublished = none ∧ (s.thr t).unwritten = none := by
  have ht := hq t
  generalize s.thr t = th at ht
  cases th with
  | idle => exact ⟨rfl, rfl⟩
  | run c pc =>
    cases pc with
    | flushing b k old isBackup => exact absurd ⟨_, rfl, trivial⟩ ht
    | publishing b k isBackup => exact absurd ⟨_, rfl, trivial⟩ ht
    | writing b k => exact absurd ⟨_, rfl, trivial⟩ ht
    | _ => exact ⟨rfl, rfl⟩

variable [DecidableEq T]

theorem ContentsCoherent.advance (hi : MemInv K s) (hc : ContentsCoherent s) {t : T}
    {th : Thread Q A} (ht : s'.thr = Function.update s.thr t th) (hg : s.heap.Grows s'.heap)
    (hcur : s'.heap.current = s.heap.current) (hcontents : s'.heap.contents = s.heap.contents)
    (hun : th.unpublished = (s.thr t).unpublished) : ContentsCoherent s' := by
  have hsame := forall_thr (p := fun u x => x.unpublished = (s.thr u).unpublished) ht hun
    fun _ _ => rfl
  obtain ⟨u, b, hu⟩ | ⟨hall, htext⟩ := hc
  · exact .inl ⟨u, b, by rw [hsame, hcur, hu]⟩
  · refine .inr ⟨fun u y hy => ?_, ?_⟩
    · rw [hsame] at hy
      obtain ⟨-, -, -, txt, hb, -⟩ := unpublished_sound (hi.threads u) hy
      have hold := hall u y hy
      rw [hi.snapText_current hg hcur, ← hold, hb]
      exact hg.bufs _ _ hb
    · rw [hi.contentsText_same hg hcontents, hi.snapText_current hg hcur, htext]

theorem ContentsCoherent.publish (hi : MemInv K s) (hc : ContentsCoherent s) {t : T}
    {th : Thread Q A} (ht : s'.thr = Function.update s.thr t th) {b k : Ref}
    (hh : s'.heap = s.heap.publish b) (hold : (s.thr t).unpublished = some (b, k))
    (hun : th.unpublished = none)
    (hok : k = s.heap.current → ∀ u, ∀ y ∈ (s.thr u).unpublished,
      s.heap.bufText y.1 = s.heap.bufText b) : ContentsCoherent s' := by
  have hg : s.heap.Grows s'.heap := hh ▸ s.heap.grows_publish b
  have hcur : s'.heap.current = s.heap.current := by rw [hh]; rfl
  obtain ⟨-, -, -, txt, hb, hk⟩ := unpublished_sound (hi.threads t) hold
  have hb' : s'.heap.bufText b = some txt := hg.bufs b txt hb
  have htext : s'.heap.contentsText = s'.heap.bufText b := by
    have : s'.heap.contents = some b := by rw [hh]; rfl
    rw [Heap.contentsText, this]
    rfl
  have hpast := forall_thr
    (p := fun u x => ∀ y ∈ x.unpublished, u ≠ t ∧ y ∈ (s.thr u).unpublished) ht
    (fun y hy => by rw [hun] at hy; cases hy) fun u hu y hy => ⟨hu, hy⟩
  -- once the texts of all are that of the newest state, they are after the step
  have hright : (∀ u, ∀ y ∈ (s.thr u).unpublished,
      s.heap.bufText y.1 = s.heap.snapText s.heap.current) → ContentsCoherent s' := by
    intro hall
    have hnow := hi.snapText_current hg hcur
    refine .inr ⟨fun u y hy => ?_, ?_⟩
    · obtain ⟨-, hy⟩ := hpast u y hy
      obtain ⟨-, -, -, txt', hy', -⟩ := unpublished_sound (hi.threads u) hy
      rw [hnow, ← hall u y hy, hy']
      exact hg.bufs _ _ hy'
    · rw [htext, hb', hnow, ← hall t (b, k) hold, hb]
  by_cases hkc : k = s.heap.current
  · apply hright
    intro u y hy
    rw [hok hkc u y hy, hb, ← hkc, hk]
  · obtain ⟨u, b', hu⟩ | ⟨hall, -⟩ := hc
    · have hut : u ≠ t := by
        rintro rfl
        rw [hold] at hu
        cases hu
        exact hkc rfl
      refine .inl ⟨u, b', ?_⟩
      rw [ht, Function.update_of_ne hut, hcur, hu]
    · exact hright hall

theorem ContentsCoherent.step {a : Act T E Q A} (hok : ContentsInOrder s a) (hi : MemInv K s)
    (hc : ContentsCoherent s) (hs : step K cfg s a = some s') : ContentsCoherent s' := by
  obtain ⟨now, -, hh, ht⟩ | ⟨t, th, ha, ht, htr⟩ := step_trans hs
  · unfold ContentsCoherent at hc ⊢
    rwa [ht, hh]
  generalize hold : s.thr t = old at htr
  generalize hnew : s'.heap = h' at htr
  have hcalm : h' = s.heap → th.held = none → old.held = none → ContentsCoherent s' :=
    fun hh hth hth' => by
      refine hc.advance hi ht (hnew ▸ hh ▸ .refl _) (by rw [hnew, hh]) (by rw [hnew, hh]) ?_
      rw [hold, (held_none (P := P) hth).2.1, (held_none (P := P) hth').2.1]
  cases htr with
  | call hth =>
    refine hcalm rfl rfl ?_
    obtain rfl | ⟨c, ans, rfl⟩ := hth <;> rfl
  | quiet hpc hpc' hop hsince => exact hcalm rfl hpc'.held hpc.held
  | look hop hsnap => exact hcalm rfl (look_held ..) rfl
  | copy hop => exact hcalm rfl rfl rfl
  | @read _ c pc txt isBackup hpc =>
    refine hc.advance hi ht (hnew ▸ s.heap.grows_malloc txt) (hnew ▸ rfl) (hnew ▸ rfl) ?_
    rw [hold, (held_none (P := P) (show (Thread.run c pc).held = none from hpc.held)).2.1]
    rfl
  | @drop _ _ c pc b isBackup hpc =>
    refine hc.advance hi ht (hnew ▸ s.heap.grows_free b) (hnew ▸ rfl) (hnew ▸ rfl) ?_
    rw [hold, (held_none (P := P) (show (Thread.run c pc).held = none from hpc.held)).2.1]
    rfl
  | @swap _ e c b isBackup txt p htxt hp hK =>
    exact .inl ⟨t, b, by rw [ht, hnew, Function.update_self]; rfl⟩
  | @swapFree _ e c b isBackup txt p htxt hp hK =>
    exact .inl ⟨t, b, by rw [ht, hnew, Function.update_self]; rfl⟩
  | @flush _ c b k old isBackup =>
    exact hc.advance hi ht (hnew ▸ s.heap.grows_flush old) (hnew ▸ rfl) (hnew ▸ rfl) (hold ▸ rfl)
  | @publish _ c b k isBackup =>
    cases ha
    have hun : (s.thr t).unpublished = some (b, k) := by rw [hold]; rfl
    refine hc.publish hi ht hnew hun ?_ (hok (b, k) hun)
    rw [unpublished_run]
    unfold RemoteCfg.published
    split <;> rfl
  | @write _ r c b k =>
    refine hc.advance hi ht (hnew ▸ s.heap.grows_write b r) ?_ ?_ (hold ▸ rfl)
    · rw [hnew]
      cases r <;> rfl
    · rw [hnew]
      cases r <;> rfl

/-! ## The backup -/

theorem BackupCoherent.advance (hi : MemInv K s) (hc : BackupCoherent s) {t : T}
    {th : Thread Q A} (ht : s'.thr = Function.update s.thr t th) (hg : s.heap.Grows s'.heap)
    (hcur : s'.heap.current = s.heap.current) (hfile : s'.heap.file = s.heap.file)
    (hun : th.unwritten = (s.thr t).unwritten) : BackupCoherent s' := by
  have hsame := forall_thr (p := fun u x => x.unwritten = (s.thr u).unwritten) ht hun
    fun _ _ => rfl
  obtain ⟨u, b, hu⟩ | ⟨hall, htext⟩ := hc
  · exact .inl ⟨u, b, by rw [hsame, hcur, hu]⟩
  · refine .inr ⟨fun u => (hsame u).trans (hall u), fun hl => ?_⟩
    rw [hi.snapText_current hg hcur, Heap.fileText, hfile]
    refine htext ?_
    unfold RemoteSys.Loaded at hl ⊢
    rwa [hcur] at hl

theorem BackupCoherent.swapBackup {t : T} {th : Thread Q A}
    (ht : s'.thr = Function.update s.thr t th) (hun : th.unwritten = none)
    (hall : ∀ u, (s.thr u).unwritten = none)
    (htext : s'.heap.fileText = s'.heap.snapText s'.heap.current) : BackupCoherent s' :=
  .inr ⟨forall_thr (p := fun _ x => x.unwritten = none) ht hun fun u _ => hall u, fun _ => htext⟩

theorem fputs_live {h : Heap P} {b : Ref} {txt : CString} (hl : h.bufs.Live b)
    (hb : h.bufText b = some txt) (junk : List UInt8) : h.fputs b junk = txt.bytes := by
  rw [Heap.fputs, if_pos hl, show h.bufs.val? b = some txt from hb]
  rfl

theorem BackupCoherent.write (hi : MemInv K s) (hc : BackupCoherent s) {t : T} {r : WriteResult}
    {c : Call Q} {b k : Ref} (hold : s.thr t = .run c (.writing b k))
    (ht : s'.thr = Function.update s.thr t (.run c (.finishing true)))
    (hh : s'.heap = s.heap.write b r) (hsucc : WriteSucceeds s (.write t r : Act T E Q A))
    (hok : k = s.heap.current →
      s.heap.bufs.Live b ∧ ∀ u, u ≠ t → (s.thr u).unwritten = none) : BackupCoherent s' := by
  have hg : s.heap.Grows s'.heap := hh ▸ s.heap.grows_write b r
  have hcur : s'.heap.current = s.heap.current := by
    rw [hh]
    cases r <;> rfl
  have hun : (s.thr t).unwritten = some (b, k) := by rw [hold]; rfl
  by_cases hkc : k = s.heap.current
  · obtain ⟨hlive, hother⟩ := hok hkc
    refine .inr ⟨forall_thr (p := fun _ x => x.unwritten = none) ht rfl hother, fun _ => ?_⟩
    obtain ⟨-, -, txt, hb, hk⟩ := unwritten_sound (hi.threads t) hun
    rw [hi.snapText_current hg hcur, ← hkc, hk, hh]
    cases r with
    | openFailed => exact hsucc.elim
    | wrote n junk =>
      have hn : (s.heap.fputs b junk).length ≤ n := hsucc b (by rw [hold]; rfl)
      show some (CString.ofBytes ((s.heap.fputs b junk).take n)) = some txt
      rw [List.take_of_length_le hn, fputs_live hlive hb, CString.ofBytes_bytes]
  · obtain ⟨u, b', hu⟩ | ⟨hall, -⟩ := hc
    · have hut : u ≠ t := by
        rintro rfl
        rw [hun] at hu
        cases hu
        exact hkc rfl
      exact .inl ⟨u, b', by rw [ht, Function.update_of_ne hut, hcur, hu]⟩
    · rw [hall t] at hun
      cases hun

theorem BackupCoherent.step (hb : cfg.backup = true) (ha : cfg.automatedBackups = true)
    {a : Act T E Q A} (hok : BackupInOrder K s a) (hsucc : WriteSucceeds s a) (hi : MemInv K s)
    (hc : BackupCoherent s) (hs : step K cfg s a = some s') : BackupCoherent s' := by
  obtain ⟨now, -, hh, ht⟩ | ⟨t, th, hact, ht, htr⟩ := step_trans hs
  · unfold BackupCoherent RemoteSys.Loaded at hc ⊢
    rwa [ht, hh]
  generalize hold : s.thr t = old at htr
  generalize hnew : s'.heap = h' at htr
  have hcalm : h' = s.heap → th.held = none → old.held = none → BackupCoherent s' :=
    fun hh hth hth' => by
      refine hc.advance hi ht (hnew ▸ hh ▸ .refl _) (by rw [hnew, hh]) (by rw [hnew, hh]) ?_
      rw [hold, (held_none (P := P) hth).2.2.1, (held_none (P := P) hth').2.2.1]
  -- a state from the backup is published under the condition on the backup
  have hswap : ∀ {c : Call Q} {b e txt p}, old = .run c (.parsing b true) → a = .parse t e →
      s.heap.bufText b = some txt → K.parse e txt = .parsed p →
      s.heap.fileText = some txt ∧ ∀ u, (s.thr u).unwritten = none := by
    rintro c b e txt p rfl rfl htxt hp
    obtain hno | hyes := hok b (by rw [hold]; rfl)
    · have hfail := hno txt htxt
      rw [hp] at hfail
      cases hfail
    · rwa [htxt] at hyes
  cases htr with
  | call hth =>
    refine hcalm rfl rfl ?_
    obtain rfl | ⟨c, ans, rfl⟩ := hth <;> rfl
  | quiet hpc hpc' hop hsince => exact hcalm rfl hpc'.held hpc.held
  | look hop hsnap => exact hcalm rfl (look_held ..) rfl
  | copy hop => exact hcalm rfl rfl rfl
  | @read _ c pc txt isBackup hpc =>
    refine hc.advance hi ht (hnew ▸ s.heap.grows_malloc txt) (hnew ▸ rfl) (hnew ▸ rfl) ?_
    rw [hold, (held_none (P := P) (show (Thread.run c pc).held = none from hpc.held)).2.2.1]
    rfl
  | @drop _ _ c pc b isBackup hpc =>
    refine hc.advance hi ht (hnew ▸ s.heap.grows_free b) (hnew ▸ rfl) (hnew ▸ rfl) ?_
    rw [hold, (held_none (P := P) (show (Thread.run c pc).held = none from hpc.held)).2.2.1]
    rfl
  | @swap _ e c b isBackup txt p htxt hp hK =>
    cases hact
    cases isBackup with
    | false => exact .inl ⟨t, b, by rw [ht, hnew, Function.update_self]; rfl⟩
    | true =>
      obtain ⟨hfile, hall⟩ := hswap rfl rfl htxt hp
      refine .swapBackup ht rfl hall ?_
      rw [hnew, snapText_swap]
      exact hfile
  | @swapFree _ e c b isBackup txt p htxt hp hK =>
    cases hact
    cases isBackup with
    | false => exact .inl ⟨t, b, by rw [ht, hnew, Function.update_self]; rfl⟩
    | true =>
      obtain ⟨hfile, hall⟩ := hswap rfl rfl htxt hp
      refine .swapBackup ht rfl hall ?_
      have hg := (s.heap.swap p txt).grows_flush s.heap.current
      rw [hnew]
      exact hfile.trans (hg.snapText (snapText_swap s.heap p txt)).symm
  | @flush _ c b k old isBackup =>
    exact hc.advance hi ht (hnew ▸ s.heap.grows_flush old) (hnew ▸ rfl) (hnew ▸ rfl)
      (by rw [hold]; cases isBackup <;> rfl)
  | @publish _ c b k isBackup =>
    refine hc.advance hi ht (hnew ▸ s.heap.grows_publish b) (hnew ▸ rfl) (hnew ▸ rfl) ?_
    rw [hold, unwritten_run, unwritten_run, RemoteCfg.published, hb, ha]
    cases isBackup <;> rfl
  | @write _ r c b k =>
    cases hact
    exact hc.write hi hold ht hnew hsucc (hok (b, k) (by rw [hold]; rfl))

/-- **A remote is coherent when no load is in progress**: the parsed state is the parse of the
published contents, and the backup holds them, in the runs where the loads publish in order. -/
theorem remote_coherent {file : Option (List UInt8)} {tr : List (Act T E Q A)}
    (hok : Along (step K cfg) ContentsInOrder (.init K file) tr)
    (hex : exec (step K cfg) (.init K file) tr = some s) (hq : s.Quiescent) (hl : s.Loaded) :
    (∃ b txt snap e, s.heap.contents = some b ∧ s.heap.bufs.Live b ∧ s.heap.bufText b = some txt ∧
      s.heap.snaps.val? s.heap.current = some snap ∧ K.parse e txt = .parsed snap.state) ∧
    (cfg.backup = true → cfg.automatedBackups = true →
      Along (step K cfg) (BackupInOrder K) (.init K file) tr →
      Along (step K cfg) WriteSucceeds (.init K file) tr →
      s.heap.fileText = s.heap.contentsText) := by
  have hinit : ContentsCoherent (RemoteSys.init K file : RemoteSys T P Q A) :=
    .inr ⟨fun u y hy => (by cases hy), rfl⟩
  have hc := exec_inv (I := fun s => MemInv K s ∧ ContentsCoherent s)
    (fun _ _ _ ho hi hs => ⟨hi.1.step hs, hi.2.step ho hi.1 hs⟩) hok ⟨.init file, hinit⟩ hex
  obtain ⟨hi, hc⟩ := hc
  have htext : s.heap.contentsText = s.heap.snapText s.heap.current := by
    obtain ⟨t, b, ht⟩ | ⟨-, h⟩ := hc
    · rw [(hq.nothing_left t).1] at ht
      cases ht
    · exact h
  refine ⟨?_, fun hb ha hbo hws => ?_⟩
  · obtain ⟨snap, hsnap⟩ := hi.current_snap
    obtain ⟨h0, -⟩ | ⟨e, txt, hst, hp⟩ := hi.parsed _ _ hsnap
    · exact absurd h0 (Nat.ne_of_gt hl)
    · rw [Heap.snapText, hsnap, Option.bind_some, hst] at htext
      obtain ⟨b, hb, htxt⟩ := Option.bind_eq_some_iff.mp htext
      exact ⟨b, txt, snap, e, hb, hi.contents b hb, htxt, hsnap, hp⟩
  · have hinit' : BackupCoherent (RemoteSys.init K file : RemoteSys T P Q A) :=
      .inr ⟨fun u => rfl, fun h => absurd h (Nat.lt_irrefl 0)⟩
    have hbc := exec_inv (I := fun s => MemInv K s ∧ BackupCoherent s)
      (fun _ _ _ ho hi hs => ⟨hi.1.step hs, hi.2.step hb ha ho.1 ho.2 hi.1 hs⟩)
      (along_and hbo hws) ⟨.init file, hinit'⟩ hex
    obtain ⟨t, b, ht⟩ | ⟨-, h⟩ := hbc.2
    · rw [(hq.nothing_left t).2] at ht
      cases ht
    · rw [h hl, htext]

/-! ## Two loads of a rules object -/

section Decidability

variable [Fintype T]

instance (s : RemoteSys T P Q A) (a : Act T E Q A) : Decidable (ContentsInOrder s a) :=
  match a with
  | .publish t => inferInstanceAs (Decidable (∀ x ∈ (s.thr t).unpublished, x.2 = s.heap.current →
      ∀ u, ∀ y ∈ (s.thr u).unpublished, s.heap.bufText y.1 = s.heap.bufText x.1))
  | .clock _ | .call .. | .test _ | .claim _ | .read .. | .parse .. | .flush _ | .write ..
  | .readBackup .. | .finish _ | .look .. | .copy .. => isTrue trivial

instance (s : RemoteSys T P Q A) (a : Act T E Q A) : Decidable (BackupInOrder K s a) :=
  match a with
  | .write t _ => inferInstanceAs (Decidable (∀ x ∈ (s.thr t).unwritten, x.2 = s.heap.current →
      s.heap.bufs.Live x.1 ∧ ∀ u, u ≠ t → (s.thr u).unwritten = none))
  | .parse t e => inferInstanceAs (Decidable (∀ b ∈ (s.thr t).fromBackup,
      (∀ txt ∈ s.heap.bufText b, (K.parse e txt).ok = false) ∨
        s.heap.fileText = s.heap.bufText b ∧ ∀ u, (s.thr u).unwritten = none))
  | .clock _ | .call .. | .test _ | .claim _ | .read .. | .flush _ | .publish _
  | .readBackup .. | .finish _ | .look .. | .copy .. => isTrue trivial

end Decidability

instance (s : RemoteSys T P Q A) (a : Act T E Q A) : Decidable (WriteSucceeds s a) :=
  match a with
  | .write _ .openFailed => isFalse id
  | .write t (.wrote n junk) =>
    inferInstanceAs (Decidable (∀ b ∈ (s.thr t).printed, (s.heap.fputs b junk).length ≤ n))
  | .clock _ | .call .. | .test _ | .claim _ | .read .. | .parse .. | .flush _ | .publish _
  | .readBackup .. | .finish _ | .look .. | .copy .. => isTrue trivial

section Example

open Rules

abbrev RulesSys := RemoteSys (Fin 2) (List (Rule CString)) GetArgs CString

abbrev runLoads (file : Option (List UInt8)) (tr : List RulesAct) : Option RulesSys :=
  exec (step (rulesKind literal occurs) backupCfg) (.init (rulesKind literal occurs) file) tr

def publishWrite (t : Fin 2) : List RulesAct := [.publish t, .write t (.wrote 4 []), .finish t]

/-- "a->b" and "a->c" are parsed in one order and published in the same. -/
def loadsInOrder : List RulesAct :=
  loadParse 0 [97, 45, 62, 98] ++ loadParse 1 [97, 45, 62, 99] ++ publishWrite 0 ++ publishWrite 1

/-- They are parsed in one order, and their contents published in the other. -/
def loadsCrossed : List RulesAct :=
  loadParse 0 [97, 45, 62, 98] ++ loadParse 1 [97, 45, 62, 99] ++ publishWrite 1 ++ publishWrite 0

/-- The text that is served, the one that `inspect` shows and the one in the backup. -/
def texts (s : RulesSys) : Option CString × Option CString × Option CString :=
  (s.heap.snapText s.heap.current, s.heap.contentsText, s.heap.fileText)

theorem quiescent_of_returned {s : RulesSys} {c c' : Call GetArgs} {x y : Answer CString}
    (h0 : s.thr 0 = .run c (.returned x)) (h1 : s.thr 1 = .run c' (.returned y)) :
    s.Quiescent := by
  rw [RemoteSys.Quiescent, Fin.forall_fin_two, h0, h1]
  constructor
  · rintro ⟨pc, hpc, hl⟩
    cases hpc
    exact hl
  · rintro ⟨pc, hpc, hl⟩
    cases hpc
    exact hl

theorem remote_coherent_loads_in_order :
    ∃ s, runLoads none loadsInOrder = some s ∧ s.Quiescent ∧ s.Loaded ∧
      s.heap.contentsText = some (.ofBytes [97, 45, 62, 99]) ∧
      s.heap.fileText = s.heap.contentsText := by
  have hrun : (runLoads none loadsInOrder).map (fun s => (s.thr 0, s.thr 1, s.heap.current,
      s.heap.contentsText)) = some (.run ⟨.reload false, false, 0⟩ (.returned (.checked true)),
        .run ⟨.reload false, false, 1⟩ (.returned (.checked true)), 2,
        some (.ofBytes [97, 45, 62, 99])) := by decide
  obtain ⟨s, hs, ht⟩ := Option.map_eq_some_iff.mp hrun
  simp only [Prod.mk.injEq] at ht
  obtain ⟨h0, h1, hcur, htext⟩ := ht
  have hq : s.Quiescent := quiescent_of_returned h0 h1
  have hl : s.Loaded := by
    rw [RemoteSys.Loaded, hcur]
    exact Nat.succ_pos 1
  exact ⟨s, hs, hq, hl, htext,
    (remote_coherent (by decide) hs hq hl).2 rfl rfl (by decide) (by decide)⟩

/-- **Crossed loads leave the remote incoherent**: "a->c" is served, while `inspect` shows "a->b"
and a later fallback loads it. -/
theorem crossed_loads_incoherent :
    ∃ s, runLoads none loadsCrossed = some s ∧ s.Quiescent ∧ s.Loaded ∧
      texts s = (some (.ofBytes [97, 45, 62, 99]), some (.ofBytes [97, 45, 62, 98]),
        some (.ofBytes [97, 45, 62, 98])) ∧
      (s.heap.snaps.val? s.heap.current).map (fun x => Parsed.parsed x.state) ≠
        s.heap.contentsText.map ((rulesKind literal occurs).parse ()) := by
  have hrun : (runLoads none loadsCrossed).map (fun s => (s.thr 0, s.thr 1, s.heap.current)) =
      some (.run ⟨.reload false, false, 0⟩ (.returned (.checked true)),
        .run ⟨.reload false, false, 1⟩ (.returned (.checked true)), 2) := by decide
  have htexts : (runLoads none loadsCrossed).map texts = some (some (.ofBytes [97, 45, 62, 99]),
      some (.ofBytes [97, 45, 62, 98]), some (.ofBytes [97, 45, 62, 98])) := by decide
  have hstate : (runLoads none loadsCrossed).bind (fun s => s.heap.snaps.val? s.heap.current) =
      some ⟨[⟨.ofBytes [97], .ofBytes [99]⟩], some (.ofBytes [97, 45, 62, 99])⟩ := by decide
  obtain ⟨s, hs, ht⟩ := Option.map_eq_some_iff.mp hrun
  simp only [Prod.mk.injEq] at ht
  obtain ⟨h0, h1, hcur⟩ := ht
  rw [hs, Option.map_some, Option.some.injEq] at htexts
  rw [hs, Option.bind_some] at hstate
  refine ⟨s, hs, quiescent_of_returned h0 h1, ?_, htexts, ?_⟩
  · rw [RemoteSys.Loaded, hcur]
    exact Nat.succ_pos 1
  · rw [hstate, show s.heap.contentsText = some (.ofBytes [97, 45, 62, 98]) from
      congrArg (fun x => x.2.1) htexts]
    decide

end Example

end VmodCfg.Remote
