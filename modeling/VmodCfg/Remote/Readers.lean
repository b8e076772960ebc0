import Mathlib.Data.Fintype.Basic
import VmodCfg.Remote.Memory

/-!
# What the lookups return

States are numbered in the order they were published, so a state that was
current at some moment of a call has a number between `since` and the one that
is current when the call returns. A lookup that copies its answer after it
released the lock is safe as long as no thread flushes the state the answer
belongs to; a lookup that copies under the lock needs no such condition.
-/

namespace VmodCfg.Remote

open Machine

section Defs

variable {T E P Q A : Type*} (K : Kind E P Q A)

def Thread.found : Thread Q A → Option Ref
  | .run _ (.copying (some (k, _))) => some k
  | _ => none

def Thread.replaced : Thread Q A → Option Ref
  | .run _ (.flushing _ _ old _) => some old
  | _ => none

/-- `a` is what the lookup of the call finds in the state `k`, current during the call. -/
def Kind.Serves (h : Heap P) (c : Call Q) (k : Ref) (a : A) : Prop :=
  c.since ≤ k ∧ k ≤ h.current ∧
    ∃ q snap, c.op = .get q ∧ h.snaps.val? k = some snap ∧ K.lookup snap.state q = some a

/-- What a lookup may return: the fallback, or what a current state gives. -/
def Kind.Answers (h : Heap P) (c : Call Q) (a : A) : Prop :=
  (∃ q, c.op = .get q ∧ K.fallback q = some a) ∨ ∃ k, K.Serves h c k a

/-- The value that is copied belongs to a state that is not freed. -/
def CopiesLive (s : RemoteSys T P Q A) : Act T E Q A → Prop
  | .copy t _ _ => ∀ k ∈ (s.thr t).found, s.heap.snaps.Live k
  | _ => True

/-- The replaced state is flushed while no thread is about to copy a value of it. -/
def FlushAfterCopies (s : RemoteSys T P Q A) : Act T E Q A → Prop
  | .flush t => ∀ old ∈ (s.thr t).replaced, ∀ u, (s.thr u).found ≠ some old
  | _ => True

instance (s : RemoteSys T P Q A) (a : Act T E Q A) : Decidable (CopiesLive s a) :=
  match a with
  | .copy t _ _ => inferInstanceAs (Decidable (∀ k ∈ (s.thr t).found, s.heap.snaps.Live k))
  | .clock _ | .call .. | .test _ | .claim _ | .read .. | .parse .. | .flush _ | .publish _
  | .write .. | .readBackup .. | .finish _ | .look .. => isTrue trivial

instance [Fintype T] (s : RemoteSys T P Q A) (a : Act T E Q A) :
    Decidable (FlushAfterCopies s a) :=
  match a with
  | .flush t =>
    inferInstanceAs (Decidable (∀ old ∈ (s.thr t).replaced, ∀ u, (s.thr u).found ≠ some old))
  | .clock _ | .call .. | .test _ | .claim _ | .read .. | .parse .. | .publish _ | .write ..
  | .readBackup .. | .finish _ | .look .. | .copy .. => isTrue trivial

/-- What a thread that looks something up relies on. -/
def ReaderOk (h : Heap P) : Thread Q A → Prop
  | .idle => True
  | .run c pc => c.since ≤ h.current ∧
    match pc with
    | .copying found => ∀ k a, found = some (k, a) → h.snaps.Live k ∧ K.Serves h c k a
    | .returned (.value v) => ∀ a, v = some a → K.Answers h c a
    | _ => True

/-- What holds of the lookups between any two actions. -/
def ReaderInv (s : RemoteSys T P Q A) : Prop := ∀ t, ReaderOk K s.heap (s.thr t)

end Defs

variable {T E P Q A : Type*} {K : Kind E P Q A} {cfg : RemoteCfg} {s s' : RemoteSys T P Q A}

theorem Kind.Serves.mono {h h' : Heap P} (hg : h.Grows h') {c : Call Q} {k : Ref} {a : A}
    (hs : K.Serves h c k a) : K.Serves h' c k a := by
  obtain ⟨h1, h2, q, snap, hop, hk, ha⟩ := hs
  exact ⟨h1, Nat.le_trans h2 hg.current, q, snap, hop, hg.snaps k snap hk, ha⟩

theorem Kind.Answers.mono {h h' : Heap P} (hg : h.Grows h') {c : Call Q} {a : A}
    (hs : K.Answers h c a) : K.Answers h' c a := by
  obtain hf | ⟨k, hk⟩ := hs
  · exact .inl hf
  · exact .inr ⟨k, hk.mono hg⟩

/-- A call that is not about to copy, and returned no value, relies on nothing else. -/
theorem Pc.Quiet.readerOk {pc : Pc A} (hpc : pc.Quiet) {h : Heap P} {c : Call Q}
    (hs : c.since ≤ h.current) : ReaderOk K h (.run c pc) := by
  refine ⟨hs, ?_⟩
  cases pc with
  | copying found =>
    cases found with
    | none => exact fun k a e => nomatch e
    | some ka => exact hpc.elim
  | returned ans =>
    cases ans with
    | value v => exact hpc.elim
    | _ => trivial
  | _ => trivial

/-- A thread keeps what it relies on while the state it copies from stays live. -/
theorem ReaderOk.mono {h h' : Heap P} (hg : h.Grows h') {th : Thread Q A} (hr : ReaderOk K h th)
    (hl : ∀ k, th.found = some k → h.snaps.Live k → h'.snaps.Live k) : ReaderOk K h' th := by
  cases th with
  | idle => trivial
  | run c pc =>
    refine ⟨Nat.le_trans hr.1 hg.current, ?_⟩
    cases pc with
    | copying found =>
      rintro k a rfl
      obtain ⟨hlive, hserves⟩ := hr.2 k a rfl
      exact ⟨hl k rfl hlive, hserves.mono hg⟩
    | returned ans =>
      cases ans with
      | value v => exact fun a ha => (hr.2 a ha).mono hg
      | _ => trivial
    | _ => trivial

theorem ReaderInv.init (file : Option (List UInt8)) :
    ReaderInv K (RemoteSys.init K file : RemoteSys T P Q A) := fun _ => trivial

theorem MemInv.look (hi : MemInv K s) {c : Call Q} (hsince : c.since ≤ s.heap.current) {q : Q}
    (hop : c.op = .get q) {snap : Snapshot P}
    (hsnap : s.heap.snaps.val? s.heap.current = some snap) (ok : Bool) :
    ReaderOk K s.heap (.run c (K.look s.heap snap.state q ok)) := by
  have hserves : ∀ a, K.lookup snap.state q = some a → K.Serves s.heap c s.heap.current a :=
    fun a ha => ⟨hsince, Nat.le_refl _, q, snap, hop, hsnap, ha⟩
  unfold Kind.look
  simp only
  split
  · refine ⟨hsince, fun a ha => ?_⟩
    split at ha
    · rcases Option.or_eq_some_iff.mp ha with hfound | ⟨-, hfallback⟩
      · exact .inr ⟨_, hserves a hfound⟩
      · exact .inl ⟨q, hop, hfallback⟩
    · cases ha
  · refine ⟨hsince, fun k a ha => ?_⟩
    obtain ⟨a', ha', heq⟩ := Option.map_eq_some_iff.mp ha
    cases heq
    exact ⟨hi.current, hserves a ha'⟩

theorem ReaderOk.copy {h : Heap P} {c : Call Q} {found : Option (Ref × A)}
    (hr : ReaderOk K h (.run c (.copying found))) {q : Q} (hop : c.op = .get q) (ok : Bool)
    (junk : A) : ReaderOk K h (.run c (.returned (.value (K.copy h q found ok junk)))) := by
  refine ⟨hr.1, fun a ha => ?_⟩
  unfold Kind.copy at ha
  split at ha
  · split at ha
    · rename_i k a'
      obtain ⟨hlive, hserves⟩ := hr.2 k a' rfl
      rw [if_pos hlive] at ha
      cases ha
      exact .inr ⟨k, hserves⟩
    · exact .inl ⟨q, hop, ha⟩
  · cases ha

/-- A value that is copied in a state of such a run belongs to a state that is not freed. -/
theorem ReaderInv.copiesLive (hr : ReaderInv K s) (a : Act T E Q A) : CopiesLive s a := by
  cases a with
  | copy t ok junk =>
    intro k hk
    have hrt := hr t
    generalize s.thr t = th at hk hrt
    unfold Thread.found at hk
    split at hk
    · cases hk
      exact (hrt.2 _ _ rfl).1
    · cases hk
  | _ => trivial

variable [DecidableEq T]

/-- A thread moved; the heap grew, and freed no state that another thread copies from. -/
theorem ReaderInv.advance (hr : ReaderInv K s) {t : T} {th : Thread Q A}
    (ht : s'.thr = Function.update s.thr t th) (hg : s.heap.Grows s'.heap)
    (hth : ReaderOk K s'.heap th)
    (hl : ∀ u k, (s.thr u).found = some k → s.heap.snaps.Live k → s'.heap.snaps.Live k) :
    ReaderInv K s' :=
  forall_thr (p := fun _ x => ReaderOk K s'.heap x) ht hth fun u _ => (hr u).mono hg (hl u)

theorem ReaderInv.step (hfree : K.freesUnderLock = false) {a : Act T E Q A}
    (hok : FlushAfterCopies s a) (hi : MemInv K s) (hr : ReaderInv K s)
    (hs : step K cfg s a = some s') : ReaderInv K s' := by
  obtain ⟨now, -, hh, ht⟩ | ⟨t, th, ha, ht, htr⟩ := step_trans hs
  · intro u
    rw [ht, hh]
    exact hr u
  have hrt := hr t
  generalize hold : s.thr t = old at htr hrt
  generalize hnew : s'.heap = h' at htr
  cases htr with
  | call hth => exact hr.advance ht (hnew ▸ .refl _) ⟨hnew ▸ Nat.le_refl _, trivial⟩ fun _ _ _ hl => hnew ▸ hl
  | quiet hpc hpc' hop hsince =>
    refine hr.advance ht (hnew ▸ .refl _) (hpc'.readerOk ?_) fun _ _ _ hl => hnew ▸ hl
    rw [hnew, hsince]
    exact hrt.1
  | look hop hsnap =>
    exact hr.advance ht (hnew ▸ .refl _) (hnew ▸ hi.look hrt.1 hop hsnap _)
      fun _ _ _ hl => hnew ▸ hl
  | copy hop =>
    exact hr.advance ht (hnew ▸ .refl _) (hnew ▸ hrt.copy hop _ _) fun _ _ _ hl => hnew ▸ hl
  | @read _ c pc txt isBackup hpc =>
    refine hr.advance ht (hnew ▸ s.heap.grows_malloc txt) ?_ fun _ _ _ hl => hnew ▸ hl
    rw [hnew]
    exact ⟨hrt.1, trivial⟩
  | @drop _ _ c pc b isBackup hpc =>
    refine hr.advance ht (hnew ▸ s.heap.grows_free b) (hpc.readerOk ?_) fun _ _ _ hl => hnew ▸ hl
    rw [hnew]
    exact hrt.1
  | @swap _ e c b isBackup txt p htxt hp hK =>
    refine hr.advance ht (hnew ▸ hi.grows_swap p txt) ?_ fun _ _ _ hl => hnew ▸ hl.alloc
    rw [hnew]
    exact ⟨Nat.le_trans hrt.1 (hi.grows_swap p txt).current, trivial⟩
  | swapFree htxt hp hK =>
    rw [hfree] at hK
    cases hK
  | @flush _ c b k old isBackup =>
    cases ha
    have hcopies : ∀ u, (s.thr u).found ≠ some old := hok old (by rw [hold]; rfl)
    refine hr.advance ht (hnew ▸ s.heap.grows_flush old) ?_ fun u k' hk' hl => ?_
    · rw [hnew]
      exact ⟨hrt.1, trivial⟩
    · rw [hnew]
      refine hl.free ?_
      rintro rfl
      exact hcopies u hk'
  | @publish _ c b k isBackup =>
    refine hr.advance ht (hnew ▸ s.heap.grows_publish b) ?_ fun _ _ _ hl => hnew ▸ hl
    rw [hnew]
    unfold RemoteCfg.published
    split <;> exact ⟨hrt.1, trivial⟩
  | @write _ r c b k =>
    have hg := s.heap.grows_write b r
    refine hr.advance ht (hnew ▸ hg) ?_ fun _ _ _ hl => ?_
    · rw [hnew]
      exact ⟨Nat.le_trans hrt.1 hg.current, trivial⟩
    · rw [hnew]
      cases r <;> exact hl

/-! ## Each replaced state has one loader -/

omit [DecidableEq T] in
theorem Pc.Quiet.replaced {pc : Pc A} (h : pc.Quiet) (c : Call Q) :
    (Thread.run c pc).replaced = none := by
  cases pc <;> first | rfl | exact h.elim

/-- The states that are about to be flushed are live, none is current, and each has one loader. -/
structure ReplacedInv (s : RemoteSys T P Q A) : Prop where
  live : ∀ t k, (s.thr t).replaced = some k → s.heap.snaps.Live k ∧ k < s.heap.current
  unique : ∀ t u k, (s.thr t).replaced = some k → (s.thr u).replaced = some k → t = u

omit [DecidableEq T] in
theorem ReplacedInv.init (file : Option (List UInt8)) :
    ReplacedInv (RemoteSys.init K file : RemoteSys T P Q A) :=
  ⟨nofun, nofun⟩

/-- A thread moved that replaced nothing, and no state was freed that another loader flushes. -/
theorem ReplacedInv.calm (hr : ReplacedInv s) {t : T} {th : Thread Q A}
    (ht : s'.thr = Function.update s.thr t th) (hth : th.replaced = none)
    (hl : ∀ u k, u ≠ t → (s.thr u).replaced = some k → s'.heap.snaps.Live k)
    (hcur : s.heap.current ≤ s'.heap.current) : ReplacedInv s' := by
  have hold : ∀ u k, (s'.thr u).replaced = some k → u ≠ t ∧ (s.thr u).replaced = some k :=
    forall_thr (p := fun u x => ∀ k, x.replaced = some k → u ≠ t ∧ (s.thr u).replaced = some k) ht
      (fun k hk => by rw [hth] at hk; cases hk) fun u hu k hk => ⟨hu, hk⟩
  constructor
  · intro u k hk
    obtain ⟨hu, hk'⟩ := hold u k hk
    have hlt := (hr.live u k hk').2
    exact ⟨hl u k hu hk', Nat.lt_of_lt_of_le hlt hcur⟩
  · intro u v k hu hv
    exact hr.unique u v k (hold u k hu).2 (hold v k hv).2

theorem ReplacedInv.step {a : Act T E Q A} (hi : MemInv K s) (hr : ReplacedInv s)
    (hs : Remote.step K cfg s a = some s') : ReplacedInv s' := by
  obtain ⟨now, -, hh, ht⟩ | ⟨t, th, ha, ht, htr⟩ := step_trans hs
  · exact ⟨ht ▸ hh ▸ hr.live, ht ▸ hr.unique⟩
  generalize hold : s.thr t = old at htr
  generalize hnew : s'.heap = h' at htr
  have hsame : s.heap.snaps = h'.snaps → s.heap.current = h'.current → th.replaced = none →
      ReplacedInv s' := by
    intro hsnaps hcur hth
    refine hr.calm ht hth (fun u k _ hk => ?_) (by rw [hnew, hcur])
    rw [hnew, ← hsnaps]
    exact (hr.live u k hk).1
  cases htr with
  | call hth => exact hsame rfl rfl rfl
  | quiet hpc hpc' hop hsince => exact hsame rfl rfl (hpc'.replaced _)
  | read hpc => exact hsame rfl rfl rfl
  | drop hpc => exact hsame rfl rfl (hpc.replaced _)
  | @swap _ e c b isBackup txt p htxt hp hK =>
    have hcur := hi.newest
    have hsnaps : s'.heap.snaps = s.heap.snaps.alloc ⟨p, some txt⟩ := by rw [hnew]; rfl
    have hcur' : s'.heap.current = s.heap.snaps.size := by rw [hnew]; rfl
    -- the others flush states that are older than the one that is replaced now
    have hreplaced : ∀ u k, (s'.thr u).replaced = some k →
        (u = t ∧ k = s.heap.current) ∨ (u ≠ t ∧ (s.thr u).replaced = some k) :=
      forall_thr (p := fun u x => ∀ k, x.replaced = some k →
        (u = t ∧ k = s.heap.current) ∨ (u ≠ t ∧ (s.thr u).replaced = some k)) ht
        (fun k hk => by cases hk; exact .inl ⟨rfl, rfl⟩) fun u hu k hk => .inr ⟨hu, hk⟩
    constructor
    · intro u k hk
      rw [hsnaps, hcur']
      rcases hreplaced u k hk with ⟨-, rfl⟩ | ⟨-, hk'⟩
      · rw [hcur]
        exact ⟨hi.current.alloc, Nat.lt_succ_self _⟩
      · obtain ⟨hlive, hlt⟩ := hr.live u k hk'
        rw [hcur]
        exact ⟨hlive.alloc, Nat.lt_succ_of_lt hlt⟩
    · intro u v k hu hv
      rcases hreplaced u k hu with ⟨rfl, rfl⟩ | ⟨-, hu'⟩
      · rcases hreplaced v _ hv with ⟨rfl, -⟩ | ⟨-, hv'⟩
        · rfl
        · exact absurd (hr.live v _ hv').2 (Nat.lt_irrefl _)
      · rcases hreplaced v _ hv with ⟨-, rfl⟩ | ⟨-, hv'⟩
        · exact absurd (hr.live u _ hu').2 (Nat.lt_irrefl _)
        · exact hr.unique u v k hu' hv'
  | @swapFree _ e c b isBackup txt p htxt hp hK =>
    refine hr.calm ht rfl (fun u k _ hk => ?_) ?_
    · obtain ⟨hlive, hlt⟩ := hr.live u k hk
      rw [hnew]
      exact hlive.alloc.free (Nat.ne_of_lt hlt)
    · rw [hnew]
      exact (hi.grows_swap p txt).current
  | @flush _ c b k old isBackup =>
    have hmine : (s.thr t).replaced = some old := by rw [hold]; rfl
    refine hr.calm ht rfl (fun u k' hu hk' => ?_) (by rw [hnew]; exact Nat.le_refl _)
    rw [hnew]
    refine (hr.live u k' hk').1.free ?_
    rintro rfl
    exact hu (hr.unique u t k' hk' hmine)
  | publish =>
    refine hsame rfl rfl ?_
    unfold RemoteCfg.published
    split <;> rfl
  | @write _ r c b k => exact hsame (by cases r <;> rfl) (by cases r <;> rfl) rfl
  | look hop hsnap =>
    refine hsame rfl rfl ?_
    unfold Kind.look
    simp only
    split <;> rfl
  | copy hop => exact hsame rfl rfl rfl

def Heap.Dead (h : Heap P) (k : Ref) : Prop := h.snaps.Dead k

theorem Heap.Dead.step {a : Act T E Q A} {k : Ref} (hk : s.heap.Dead k)
    (hs : Remote.step K cfg s a = some s') : s'.heap.Dead k := by
  obtain ⟨now, -, hh, -⟩ | ⟨t, th, -, -, htr⟩ := step_trans hs
  · exact hh ▸ hk
  generalize s.thr t = old at htr
  generalize s'.heap = h' at htr
  cases htr with
  | call | quiet | look | copy | read | drop | publish => exact hk
  | @write _ r c b k => exact (by cases r <;> exact hk)
  | swap => exact Arena.Dead.alloc hk
  | swapFree => exact (Arena.Dead.alloc hk).free
  | flush => exact Arena.Dead.free hk

theorem ReplacedInv.flush_dead (hr : ReplacedInv s) {t : T} {k : Ref}
    (hk : (s.thr t).replaced = some k)
    (hs : Remote.step K cfg s (.flush t : Act T E Q A) = some s') : s'.heap.Dead k := by
  have hlive := (hr.live t k hk).1
  simp only [Remote.step] at hs
  split at hs
  · rename_i c b k' old isBackup ht
    rw [ht] at hk
    cases hk
    cases hs
    exact hlive.dead_free
  · cases hs

end VmodCfg.Remote
