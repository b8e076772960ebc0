import VmodCfg.Remote.Threads

/-!
# What one action does to the shared memory

`Move` says once what every action can do, and `Trans` what of it concerns the
heap; the invariants over runs are read off its cases. `MemInv` is what
holds of the buffers and of the parsed states in every state reached: a call
owns the buffer it has not published, the current state is never freed, and a
published state is the parse of the text it came from.
-/

namespace VmodCfg.Remote

open Machine

section Defs

variable {T E P Q A : Type*}

/-- The buffer a call has and no one else may free. -/
def Pc.owned : Pc A → Option Ref
  | .parsing b _ | .flushing b _ _ _ | .publishing b _ _ => some b
  | _ => none

/-- The buffer a call uses: its own one, or the published one it writes to the backup. -/
def Pc.held : Pc A → Option Ref
  | .parsing b _ | .flushing b _ _ _ | .publishing b _ _ | .writing b _ => some b
  | _ => none

/-- The contents, and the state they were parsed to, of a load that has not published them. -/
def Pc.unpublished : Pc A → Option (Ref × Ref)
  | .flushing b k _ _ | .publishing b k _ => some (b, k)
  | _ => none

/-- The contents and the state of a load from the location that has not written the backup. -/
def Pc.unwritten : Pc A → Option (Ref × Ref)
  | .flushing b k _ false | .publishing b k false | .writing b k => some (b, k)
  | _ => none

/-- The call is at a point where it has nothing to do with the heap. -/
def Pc.Quiet : Pc A → Prop
  | .parsing .. | .flushing .. | .publishing .. | .writing .. => False
  | .copying (some _) | .returned (.value _) => False
  | _ => True

/-- The call is inside `check_remote`, after it decided to load. -/
def Pc.Loading : Pc A → Prop
  | .testing _ | .claiming | .looking | .copying _ | .returned _ => False
  | _ => True

def Thread.pc : Thread Q A → Option (Pc A)
  | .idle => none
  | .run _ pc => some pc

def Thread.owned (th : Thread Q A) : Option Ref := th.pc.bind Pc.owned

def Thread.held (th : Thread Q A) : Option Ref := th.pc.bind Pc.held

def Thread.unpublished (th : Thread Q A) : Option (Ref × Ref) := th.pc.bind Pc.unpublished

def Thread.unwritten (th : Thread Q A) : Option (Ref × Ref) := th.pc.bind Pc.unwritten

def Thread.Loading (th : Thread Q A) : Prop := ∃ pc, th.pc = some pc ∧ pc.Loading

@[simp] theorem owned_idle : (Thread.idle : Thread Q A).owned = none := rfl
@[simp] theorem owned_run (c : Call Q) (pc : Pc A) : (Thread.run c pc).owned = pc.owned := rfl
@[simp] theorem held_idle : (Thread.idle : Thread Q A).held = none := rfl
@[simp] theorem held_run (c : Call Q) (pc : Pc A) : (Thread.run c pc).held = pc.held := rfl
@[simp] theorem unpublished_idle : (Thread.idle : Thread Q A).unpublished = none := rfl
@[simp] theorem unpublished_run (c : Call Q) (pc : Pc A) :
    (Thread.run c pc).unpublished = pc.unpublished := rfl
@[simp] theorem unwritten_idle : (Thread.idle : Thread Q A).unwritten = none := rfl
@[simp] theorem unwritten_run (c : Call Q) (pc : Pc A) :
    (Thread.run c pc).unwritten = pc.unwritten := rfl

/-- **What an action does** to the thread that takes it, to the heap, to `reloading` and to `tst`:
one case for each branch. -/
inductive Move (K : Kind E P Q A) (cfg : RemoteCfg) (s : RemoteSys T P Q A) :
    Act T E Q A → Thread Q A → Thread Q A → Heap P → Bool → Int → Prop
  | call {t op th} (hth : th = .idle ∨ ∃ c ans, th = .run c (.returned ans)) :
    Move K cfg s (.call t op) th (.run ⟨op, false, s.heap.current⟩ (.testing s.clock))
      s.heap s.reloading s.tst
  | force {t c now} (hop : c.op.force = true) :
    Move K cfg s (.test t) (.run c (.testing now)) (.run c .reading) s.heap s.reloading s.tst
  | expired {t c now} (hop : c.op.force = false) (hrel : s.reloading = false)
    (hexp : (cfg.period.toNat : Int) < now - s.tst) :
    Move K cfg s (.test t) (.run c (.testing now)) (.run c .claiming) s.heap s.reloading s.tst
  | pass {t c now} :
    Move K cfg s (.test t) (.run c (.testing now)) (.run c (c.checked true))
      s.heap s.reloading s.tst
  | lose {t c} (hrel : s.reloading = true) :
    Move K cfg s (.claim t) (.run c .claiming) (.run c (c.checked true)) s.heap s.reloading s.tst
  | win {t c} (hrel : s.reloading = false) :
    Move K cfg s (.claim t) (.run c .claiming) (.run { c with winner := true } .reading)
      s.heap true s.tst
  | unread {t contents c} :
    Move K cfg s (.read t contents) (.run c .reading) (.run c cfg.failed) s.heap s.reloading s.tst
  | read {t contents c txt} :
    Move K cfg s (.read t contents) (.run c .reading) (.run c (.parsing s.heap.bufs.size false))
      (s.heap.malloc txt) s.reloading s.tst
  | refuse {t e c b isBackup} :
    Move K cfg s (.parse t e) (.run c (.parsing b isBackup))
      (.run c (if isBackup then .finishing false else cfg.failed)) (s.heap.free b) s.reloading s.tst
  | swap {t e c b isBackup txt p} (htxt : s.heap.bufText b = some txt)
    (hp : K.parse e txt = .parsed p) (hK : K.freesUnderLock = false) :
    Move K cfg s (.parse t e) (.run c (.parsing b isBackup))
      (.run c (.flushing b s.heap.snaps.size s.heap.current isBackup))
      (s.heap.swap p txt) s.reloading s.tst
  | swapFree {t e c b isBackup txt p} (htxt : s.heap.bufText b = some txt)
    (hp : K.parse e txt = .parsed p) (hK : K.freesUnderLock = true) :
    Move K cfg s (.parse t e) (.run c (.parsing b isBackup))
      (.run c (.publishing b s.heap.snaps.size isBackup))
      ((s.heap.swap p txt).flush s.heap.current) s.reloading s.tst
  | flush {t c b k old isBackup} :
    Move K cfg s (.flush t) (.run c (.flushing b k old isBackup))
      (.run c (.publishing b k isBackup)) (s.heap.flush old) s.reloading s.tst
  | publish {t c b k isBackup} :
    Move K cfg s (.publish t) (.run c (.publishing b k isBackup))
      (.run c (cfg.published c b k isBackup)) (s.heap.publish b) s.reloading s.tst
  | write {t r c b k} :
    Move K cfg s (.write t r) (.run c (.writing b k)) (.run c (.finishing true))
      (s.heap.write b r) s.reloading s.tst
  | noBackup {t ok c} :
    Move K cfg s (.readBackup t ok) (.run c .failing) (.run c (.finishing false))
      s.heap s.reloading s.tst
  | readBackup {t ok c txt} :
    Move K cfg s (.readBackup t ok) (.run c .failing) (.run c (.parsing s.heap.bufs.size true))
      (s.heap.malloc txt) s.reloading s.tst
  | finish {t c result} :
    Move K cfg s (.finish t) (.run c (.finishing result)) (.run c (c.checked result)) s.heap
      (if c.winner then false else s.reloading) (if result then s.clock else s.tst)
  | inspect {t ok c} :
    Move K cfg s (.look t ok) (.run c .looking)
      (.run c (.returned (.contents s.heap.contentsText))) s.heap s.reloading s.tst
  | look {t ok c q snap} (hop : c.op = .get q)
    (hs : s.heap.snaps.val? s.heap.current = some snap) :
    Move K cfg s (.look t ok) (.run c .looking) (.run c (K.look s.heap snap.state q ok))
      s.heap s.reloading s.tst
  | copy {t ok junk c q found} (hop : c.op = .get q) :
    Move K cfg s (.copy t ok junk) (.run c (.copying found))
      (.run c (.returned (.value (K.copy s.heap q found ok junk)))) s.heap s.reloading s.tst

/-- What the action `a`, taken by a thread at `th`, does to the heap and to that thread. -/
inductive Trans (K : Kind E P Q A) (cfg : RemoteCfg) (h : Heap P) :
    Act T E Q A → Thread Q A → Heap P → Thread Q A → Prop
  | call {t op now th} (hth : th = .idle ∨ ∃ c ans, th = .run c (.returned ans)) :
    Trans K cfg h (.call t op) th h (.run ⟨op, false, h.current⟩ (.testing now))
  | quiet {a c c' pc pc'} (hpc : pc.Quiet) (hpc' : pc'.Quiet) (hop : c'.op = c.op)
    (hsince : c'.since = c.since) : Trans K cfg h a (.run c pc) h (.run c' pc')
  | read {a c pc txt isBackup} (hpc : pc.Quiet) :
    Trans K cfg h a (.run c pc) (h.malloc txt) (.run c (.parsing h.bufs.size isBackup))
  | drop {t e c pc b isBackup} (hpc : pc.Quiet) :
    Trans K cfg h (.parse t e) (.run c (.parsing b isBackup)) (h.free b) (.run c pc)
  | swap {t e c b isBackup txt p} (htxt : h.bufText b = some txt) (hp : K.parse e txt = .parsed p)
    (hK : K.freesUnderLock = false) :
    Trans K cfg h (.parse t e) (.run c (.parsing b isBackup)) (h.swap p txt)
      (.run c (.flushing b h.snaps.size h.current isBackup))
  | swapFree {t e c b isBackup txt p} (htxt : h.bufText b = some txt)
    (hp : K.parse e txt = .parsed p) (hK : K.freesUnderLock = true) :
    Trans K cfg h (.parse t e) (.run c (.parsing b isBackup)) ((h.swap p txt).flush h.current)
      (.run c (.publishing b h.snaps.size isBackup))
  | flush {t c b k old isBackup} :
    Trans K cfg h (.flush t) (.run c (.flushing b k old isBackup)) (h.flush old)
      (.run c (.publishing b k isBackup))
  | publish {t c b k isBackup} :
    Trans K cfg h (.publish t) (.run c (.publishing b k isBackup)) (h.publish b)
      (.run c (cfg.published c b k isBackup))
  | write {t r c b k} :
    Trans K cfg h (.write t r) (.run c (.writing b k)) (h.write b r) (.run c (.finishing true))
  | look {t ok c q snap} (hop : c.op = .get q) (hs : h.snaps.val? h.current = some snap) :
    Trans K cfg h (.look t ok) (.run c .looking) h (.run c (K.look h snap.state q ok))
  | copy {t ok junk c q found} (hop : c.op = .get q) :
    Trans K cfg h (.copy t ok junk) (.run c (.copying found)) h
      (.run c (.returned (.value (K.copy h q found ok junk))))

end Defs

variable {T E P Q A : Type*} {K : Kind E P Q A} {cfg : RemoteCfg} {s s' : RemoteSys T P Q A}

theorem checked_quiet (c : Call Q) (result : Bool) : (c.checked result : Pc A).Quiet := by
  unfold Call.checked
  cases c.op <;> trivial

theorem failed_quiet : (cfg.failed : Pc A).Quiet := by
  unfold RemoteCfg.failed
  split <;> trivial

/-! ## Buffers and states -/

/-- The published state `k` is the one that the contents `b` were parsed to. -/
def Heap.Sound (h : Heap P) (b k : Ref) : Prop :=
  0 < k ∧ k ≤ h.current ∧ ∃ txt, h.bufText b = some txt ∧ h.snapText k = some txt

/-- What a thread relies on in the heap. -/
def ThreadMem (h : Heap P) : Thread Q A → Prop
  | .run _ (.parsing b _) => h.bufs.Live b
  | .run _ (.flushing b k old _) => h.bufs.Live b ∧ h.Sound b k ∧ old < k
  | .run _ (.publishing b k _) => h.bufs.Live b ∧ h.Sound b k
  | .run _ (.writing b k) => h.Sound b k
  | _ => True

/-- What holds of the memory between any two actions. -/
structure MemInv (K : Kind E P Q A) (s : RemoteSys T P Q A) : Prop where
  newest : s.heap.snaps.size = s.heap.current + 1
  current : s.heap.snaps.Live s.heap.current
  parsed : ∀ k snap, s.heap.snaps.val? k = some snap →
    (k = 0 ∧ snap = ⟨K.empty, none⟩) ∨
      ∃ e txt, snap.text = some txt ∧ K.parse e txt = .parsed snap.state
  contents : ∀ b, s.heap.contents = some b → s.heap.bufs.Live b
  threads : ∀ t, ThreadMem s.heap (s.thr t)
  owners : ∀ t u, t ≠ u → ∀ b, (s.thr t).owned = some b → (s.thr u).held ≠ some b
  unshared : ∀ t b, (s.thr t).owned = some b → s.heap.contents ≠ some b

/-- Nothing that was allocated is forgotten, and no older state becomes current. -/
structure Heap.Grows (h h' : Heap P) : Prop where
  bufs : ∀ b x, h.bufs.val? b = some x → h'.bufs.val? b = some x
  snaps : ∀ k x, h.snaps.val? k = some x → h'.snaps.val? k = some x
  current : h.current ≤ h'.current

theorem Heap.Grows.refl (h : Heap P) : h.Grows h :=
  ⟨fun _ _ hx => hx, fun _ _ hx => hx, Nat.le_refl _⟩

theorem Heap.Grows.trans {h h' h'' : Heap P} (hg : h.Grows h') (hg' : h'.Grows h'') :
    h.Grows h'' :=
  ⟨fun b x hx => hg'.bufs b x (hg.bufs b x hx), fun k x hx => hg'.snaps k x (hg.snaps k x hx),
    Nat.le_trans hg.current hg'.current⟩

theorem Heap.Grows.snapText {h h' : Heap P} (hg : h.Grows h') {k : Ref} {txt : CString}
    (hk : h.snapText k = some txt) : h'.snapText k = some txt := by
  obtain ⟨snap, hs, ht⟩ := Option.bind_eq_some_iff.mp hk
  exact Option.bind_eq_some_iff.mpr ⟨snap, hg.snaps k snap hs, ht⟩

theorem Heap.Sound.mono {h h' : Heap P} (hg : h.Grows h') {b k : Ref} (hs : h.Sound b k) :
    h'.Sound b k := by
  obtain ⟨h0, hk, txt, hb, ht⟩ := hs
  exact ⟨h0, Nat.le_trans hk hg.current, txt, hg.bufs b txt hb, hg.snapText ht⟩

/-- A thread keeps what it relies on while its own buffer stays live. -/
theorem ThreadMem.mono {h h' : Heap P} (hg : h.Grows h') {th : Thread Q A} (hm : ThreadMem h th)
    (hl : ∀ b, th.owned = some b → h.bufs.Live b → h'.bufs.Live b) : ThreadMem h' th := by
  cases th with
  | idle => trivial
  | run c pc =>
    cases pc with
    | parsing b isBackup => exact hl b rfl hm
    | flushing b k old isBackup => exact ⟨hl b rfl hm.1, hm.2.1.mono hg, hm.2.2⟩
    | publishing b k isBackup => exact ⟨hl b rfl hm.1, hm.2.mono hg⟩
    | writing b k => exact Heap.Sound.mono hg hm
    | _ => trivial

/-- What a thread holds is allocated. -/
theorem ThreadMem.held_lt {h : Heap P} {th : Thread Q A} (hm : ThreadMem h th) {b : Ref}
    (hb : th.held = some b) : b < h.bufs.size := by
  have hsound : ∀ {b k}, h.Sound b k → b < h.bufs.size := fun hs => by
    obtain ⟨-, -, txt, ht, -⟩ := hs
    exact h.bufs.val?_lt ht
  cases th with
  | idle => cases hb
  | run c pc =>
    cases pc with
    | parsing b' isBackup =>
      cases hb
      exact Arena.Live.lt hm
    | flushing b' k old isBackup =>
      cases hb
      exact hm.1.lt
    | publishing b' k isBackup =>
      cases hb
      exact hm.1.lt
    | writing b' k =>
      cases hb
      exact hsound hm
    | _ => cases hb

theorem owned_held {th : Thread Q A} {b : Ref} (h : th.owned = some b) : th.held = some b := by
  cases th with
  | idle => cases h
  | run c pc => cases pc <;> first | exact h | cases h

theorem Pc.Quiet.held {pc : Pc A} (h : pc.Quiet) : pc.held = none := by
  cases pc <;> first | rfl | exact h.elim

theorem look_held (h : Heap P) (p : P) (q : Q) (ok : Bool) : (K.look h p q ok).held = none := by
  unfold Kind.look
  simp only
  split <;> rfl

theorem held_none {th : Thread Q A} (h : th.held = none) :
    th.owned = none ∧ th.unpublished = none ∧ th.unwritten = none ∧
      ∀ hp : Heap P, ThreadMem hp th := by
  cases th with
  | idle => exact ⟨rfl, rfl, rfl, fun _ => trivial⟩
  | run c pc =>
    cases pc with
    | parsing b isBackup => cases h
    | flushing b k old isBackup => cases h
    | publishing b k isBackup => cases h
    | writing b k => cases h
    | _ => exact ⟨rfl, rfl, rfl, fun _ => trivial⟩

theorem unpublished_sound {h : Heap P} {th : Thread Q A} (hm : ThreadMem h th) {b k : Ref}
    (hb : th.unpublished = some (b, k)) : h.bufs.Live b ∧ h.Sound b k := by
  cases th with
  | idle => cases hb
  | run c pc =>
    cases pc with
    | flushing b' k' old isBackup =>
      cases hb
      exact ⟨hm.1, hm.2.1⟩
    | publishing b' k' isBackup =>
      cases hb
      exact hm
    | _ => cases hb

theorem unwritten_sound {h : Heap P} {th : Thread Q A} (hm : ThreadMem h th) {b k : Ref}
    (hb : th.unwritten = some (b, k)) : h.Sound b k := by
  cases th with
  | idle => cases hb
  | run c pc =>
    cases pc with
    | flushing b' k' old isBackup =>
      cases isBackup <;> cases hb
      exact hm.2.1
    | publishing b' k' isBackup =>
      cases isBackup <;> cases hb
      exact hm.2
    | writing b' k' =>
      cases hb
      exact hm
    | _ => cases hb

/-! ## Every action keeps the invariant -/

theorem MemInv.init (file : Option (List UInt8)) :
    MemInv K (RemoteSys.init K file : RemoteSys T P Q A) := by
  refine ⟨rfl, rfl, fun k snap h => .inl ?_, fun b h => ?_, fun t => trivial, fun t u _ b h => ?_,
    fun t b h => ?_⟩
  · cases k with
    | zero =>
      cases h
      exact ⟨rfl, rfl⟩
    | succ k => cases h
  · cases h
  · cases h
  · cases h

theorem Heap.grows_malloc (h : Heap P) (txt : CString) : h.Grows (h.malloc txt) :=
  ⟨fun _ _ hx => h.bufs.val?_alloc hx, fun _ _ hx => hx, Nat.le_refl _⟩

theorem Heap.grows_free (h : Heap P) (b : Ref) : h.Grows (h.free b) :=
  ⟨fun _ _ hx => (h.bufs.val?_free _).trans hx, fun _ _ hx => hx, Nat.le_refl _⟩

theorem Heap.grows_flush (h : Heap P) (old : Ref) : h.Grows (h.flush old) :=
  ⟨fun _ _ hx => hx, fun _ _ hx => (h.snaps.val?_free _).trans hx, Nat.le_refl _⟩

theorem Heap.grows_publish (h : Heap P) (b : Ref) : h.Grows (h.publish b) :=
  ⟨fun _ _ hx => (h.bufs.val?_free? _ _).trans hx, fun _ _ hx => hx, Nat.le_refl _⟩

theorem Heap.grows_write (h : Heap P) (b : Ref) (r : WriteResult) : h.Grows (h.write b r) := by
  cases r <;> exact ⟨fun _ _ hx => hx, fun _ _ hx => hx, Nat.le_refl _⟩

theorem MemInv.grows_swap (hi : MemInv K s) (p : P) (txt : CString) :
    s.heap.Grows (s.heap.swap p txt) :=
  ⟨fun _ _ hx => hx, fun _ _ hx => s.heap.snaps.val?_alloc hx, by
    show s.heap.current ≤ s.heap.snaps.size
    rw [hi.newest]
    exact Nat.le_succ _⟩

theorem MemInv.swap_parsed (hi : MemInv K s) {e : E} {txt : CString} {p : P}
    (hp : K.parse e txt = .parsed p) (k : Ref) (snap : Snapshot P)
    (hk : (s.heap.snaps.alloc ⟨p, some txt⟩).val? k = some snap) :
    (k = 0 ∧ snap = ⟨K.empty, none⟩) ∨
      ∃ e txt, snap.text = some txt ∧ K.parse e txt = .parsed snap.state := by
  have hlt := Arena.val?_lt _ hk
  rw [Arena.size_alloc] at hlt
  rcases Nat.lt_succ_iff_lt_or_eq.mp hlt with hlt | rfl
  · rw [Arena.val?_alloc_of_lt _ hlt] at hk
    exact hi.parsed k snap hk
  · rw [Arena.val?_alloc_self] at hk
    cases hk
    exact .inr ⟨e, txt, rfl, hp⟩

/-- The new state is sound for the buffer it was parsed from. -/
theorem MemInv.sound_swap (hi : MemInv K s) {b : Ref} {txt : CString}
    (htxt : s.heap.bufText b = some txt) (p : P) :
    (s.heap.swap p txt).Sound b s.heap.snaps.size := by
  refine ⟨?_, Nat.le_refl _, txt, htxt, ?_⟩
  · rw [hi.newest]
    exact Nat.succ_pos _
  · simp [Heap.snapText, Heap.swap]

/-- The owners of other buffers do not have the buffer that `t` holds. -/
theorem MemInv.other_owner (hi : MemInv K s) {t u : T} (hu : u ≠ t) {b b' : Ref}
    (hb : (s.thr t).held = some b) (hb' : (s.thr u).owned = some b') : b' ≠ b := by
  rintro rfl
  exact hi.owners u t hu b' hb' hb

variable [DecidableEq T]

/-- Every action is one of the cases of `Move`; or it is the clock. -/
theorem step_move {a : Act T E Q A} (h : step K cfg s a = some s') :
    (∃ now, a = .clock now ∧ s' = { s with clock := now }) ∨
    ∃ t th, a.thread = some t ∧ s'.thr = Function.update s.thr t th ∧ s'.clock = s.clock ∧
      Move K cfg s a (s.thr t) th s'.heap s'.reloading s'.tst := by
  cases a with
  | clock now =>
    cases h
    exact .inl ⟨now, rfl, rfl⟩
  | call t op =>
    simp only [step] at h
    split at h
    · rename_i ht
      cases h
      exact .inr ⟨t, _, rfl, rfl, rfl, .call (.inl ht)⟩
    · rename_i c ans ht
      cases h
      exact .inr ⟨t, _, rfl, rfl, rfl, .call (.inr ⟨c, ans, ht⟩)⟩
    · cases h
  | test t =>
    simp only [step] at h
    split at h
    · rename_i c now ht
      split at h
      · rename_i hop
        cases h
        exact .inr ⟨t, _, rfl, rfl, rfl, ht ▸ .force hop⟩
      · rename_i hop
        split at h
        · rename_i hexp
          cases h
          exact .inr ⟨t, _, rfl, rfl, rfl,
            ht ▸ .expired (by simpa using hop) (by simpa using hexp.1) hexp.2.2⟩
        · cases h
          exact .inr ⟨t, _, rfl, rfl, rfl, ht ▸ .pass⟩
    · cases h
  | claim t =>
    simp only [step] at h
    split at h
    · rename_i c ht
      split at h
      · rename_i hrel
        cases h
        exact .inr ⟨t, _, rfl, rfl, rfl, ht ▸ .lose hrel⟩
      · rename_i hrel
        cases h
        exact .inr ⟨t, _, rfl, rfl, rfl, ht ▸ .win (by simpa using hrel)⟩
    · cases h
  | read t contents =>
    simp only [step] at h
    split at h
    · rename_i c ht
      split at h
      · cases h
        exact .inr ⟨t, _, rfl, rfl, rfl, ht ▸ .unread⟩
      · split at h
        · cases h
          exact .inr ⟨t, _, rfl, rfl, rfl, ht ▸ .unread⟩
        · cases h
          exact .inr ⟨t, _, rfl, rfl, rfl, ht ▸ .read⟩
    · cases h
  | parse t e =>
    simp only [step] at h
    split at h
    · rename_i c b isBackup ht
      split at h
      · cases h
      · rename_i txt htxt
        split at h
        · cases h
        · cases h
          exact .inr ⟨t, _, rfl, rfl, rfl, ht ▸ .refuse⟩
        · rename_i p hp
          split at h
          · rename_i hK
            cases h
            exact .inr ⟨t, _, rfl, rfl, rfl, ht ▸ .swapFree htxt hp hK⟩
          · rename_i hK
            cases h
            exact .inr ⟨t, _, rfl, rfl, rfl, ht ▸ .swap htxt hp (by simpa using hK)⟩
    · cases h
  | flush t =>
    simp only [step] at h
    split at h
    · rename_i c b k old isBackup ht
      cases h
      exact .inr ⟨t, _, rfl, rfl, rfl, ht ▸ .flush⟩
    · cases h
  | publish t =>
    simp only [step] at h
    split at h
    · rename_i c b k isBackup ht
      cases h
      exact .inr ⟨t, _, rfl, rfl, rfl, ht ▸ .publish⟩
    · cases h
  | write t r =>
    simp only [step] at h
    split at h
    · rename_i c b k ht
      cases h
      exact .inr ⟨t, _, rfl, rfl, rfl, ht ▸ .write⟩
    · cases h
  | readBackup t ok =>
    simp only [step] at h
    split at h
    · rename_i c ht
      split at h
      · cases h
        exact .inr ⟨t, _, rfl, rfl, rfl, ht ▸ .noBackup⟩
      · split at h
        · cases h
          exact .inr ⟨t, _, rfl, rfl, rfl, ht ▸ .noBackup⟩
        · cases h
          exact .inr ⟨t, _, rfl, rfl, rfl, ht ▸ .readBackup⟩
    · cases h
  | finish t =>
    simp only [step] at h
    split at h
    · rename_i c result ht
      cases h
      exact .inr ⟨t, _, rfl, rfl, rfl, ht ▸ .finish⟩
    · cases h
  | look t ok =>
    simp only [step] at h
    split at h
    · rename_i c ht
      split at h
      · cases h
        exact .inr ⟨t, _, rfl, rfl, rfl, ht ▸ .inspect⟩
      · rename_i q snap hop hs
        cases h
        exact .inr ⟨t, _, rfl, rfl, rfl, ht ▸ .look hop hs⟩
      · cases h
    · cases h
  | copy t ok junk =>
    simp only [step] at h
    split at h
    · rename_i c found ht
      split at h
      · rename_i q hop
        cases h
        exact .inr ⟨t, _, rfl, rfl, rfl, ht ▸ .copy hop⟩
      · cases h
    · cases h

omit [DecidableEq T] in
theorem Move.trans {a : Act T E Q A} {th th' : Thread Q A} {h' : Heap P} {reloading : Bool}
    {tst : Int} (h : Move K cfg s a th th' h' reloading tst) : Trans K cfg s.heap a th h' th' := by
  cases h with
  | call hth => exact .call hth
  | force | expired | win | noBackup | inspect => exact .quiet trivial trivial rfl rfl
  | pass | lose | finish => exact .quiet trivial (checked_quiet ..) rfl rfl
  | unread => exact .quiet trivial failed_quiet rfl rfl
  | read | readBackup => exact .read trivial
  | @refuse _ _ _ _ isBackup =>
    refine .drop ?_
    cases isBackup with
    | true => trivial
    | false => exact failed_quiet
  | swap htxt hp hK => exact .swap htxt hp hK
  | swapFree htxt hp hK => exact .swapFree htxt hp hK
  | flush => exact .flush
  | publish => exact .publish
  | write => exact .write
  | look hop hs => exact .look hop hs
  | copy hop => exact .copy hop

/-- Every action is one of the cases of `Trans`, and moves its thread; or it is the clock. -/
theorem step_trans {a : Act T E Q A} (h : step K cfg s a = some s') :
    (∃ now, a = .clock now ∧ s'.heap = s.heap ∧ s'.thr = s.thr) ∨
    ∃ t th, a.thread = some t ∧ s'.thr = Function.update s.thr t th ∧
      Trans K cfg s.heap a (s.thr t) s'.heap th := by
  obtain ⟨now, rfl, rfl⟩ | ⟨t, th, ha, ht, -, hm⟩ := step_move h
  · exact .inl ⟨now, rfl, rfl, rfl⟩
  · exact .inr ⟨t, th, ha, ht, hm.trans⟩

/-- What holds of the thread that moved, and of the others, holds of all. -/
theorem forall_thr {t : T} {th : Thread Q A} {p : T → Thread Q A → Prop}
    (ht : s'.thr = Function.update s.thr t th) (hth : p t th)
    (hother : ∀ u, u ≠ t → p u (s.thr u)) (u : T) : p u (s'.thr u) := by
  rw [ht]
  by_cases hut : u = t
  · subst hut
    rwa [Function.update_self]
  · rw [Function.update_of_ne hut]
    exact hother u hut

/-- The owner of a buffer goes on with it, or without it. -/
theorem MemInv.inherit (hi : MemInv K s) {t : T} {th : Thread Q A}
    (ht : s'.thr = Function.update s.thr t th)
    (hown : ∀ b, th.owned = some b → (s.thr t).owned = some b)
    (hheld : ∀ b, th.held = some b → (s.thr t).held = some b) (u v : T) (huv : u ≠ v) (b : Ref)
    (hu : (s'.thr u).owned = some b) : (s'.thr v).held ≠ some b := by
  have hpast := forall_thr (p := fun w x => ∀ b, x.owned = some b → (s.thr w).owned = some b)
    ht hown fun w _ b hw => hw
  have hpast' := forall_thr (p := fun w x => ∀ b, x.held = some b → (s.thr w).held = some b)
    ht hheld fun w _ b hw => hw
  exact fun hv => hi.owners u v huv b (hpast u b hu) (hpast' v b hv)

/-- No one comes to own the published contents by a step that leaves them. -/
theorem MemInv.still_unshared (hi : MemInv K s) {t : T} {th : Thread Q A}
    (ht : s'.thr = Function.update s.thr t th)
    (hown : ∀ b, th.owned = some b → (s.thr t).owned = some b) (u : T) :
    ∀ b, (s'.thr u).owned = some b → s.heap.contents ≠ some b :=
  forall_thr (p := fun _ x => ∀ b, x.owned = some b → s.heap.contents ≠ some b) ht
    (fun b hb => hi.unshared t b (hown b hb)) (fun u _ => hi.unshared u) u

/-- The heap stays, and the thread that moved holds nothing. -/
theorem MemInv.calm (hi : MemInv K s) {t : T} {th : Thread Q A} (hh : s'.heap = s.heap)
    (ht : s'.thr = Function.update s.thr t th) (hth : th.held = none) : MemInv K s' := by
  obtain ⟨hown, -, -, hmem⟩ := held_none (P := P) hth
  have hno : ∀ b, th.owned ≠ some b := fun b hb => by
    rw [hown] at hb
    cases hb
  refine ⟨hh ▸ hi.newest, hh ▸ hi.current, hh ▸ hi.parsed, hh ▸ hi.contents, ?_, ?_, ?_⟩
  · rw [hh]
    exact forall_thr (p := fun _ x => ThreadMem s.heap x) ht (hmem _) fun u _ => hi.threads u
  · apply hi.inherit ht (fun b hb => absurd hb (hno b))
    intro b hb
    rw [hth] at hb
    cases hb
  · rw [hh]
    exact hi.still_unshared ht fun b hb => absurd hb (hno b)

/-- The heap grows, the other owners keep their buffers, and the thread that moved has no buffer
it did not have. -/
theorem MemInv.advance (hi : MemInv K s) {t : T} {th : Thread Q A} (hg : s.heap.Grows s'.heap)
    (ht : s'.thr = Function.update s.thr t th)
    (hnewest : s'.heap.snaps.size = s'.heap.current + 1)
    (hcurrent : s'.heap.snaps.Live s'.heap.current)
    (hparsed : ∀ k snap, s'.heap.snaps.val? k = some snap → (k = 0 ∧ snap = ⟨K.empty, none⟩) ∨
      ∃ e txt, snap.text = some txt ∧ K.parse e txt = .parsed snap.state)
    (hcontents : ∀ b, s'.heap.contents = some b → s'.heap.bufs.Live b)
    (hth : ThreadMem s'.heap th)
    (hown : ∀ b, th.owned = some b → (s.thr t).owned = some b)
    (hheld : ∀ b, th.held = some b → (s.thr t).held = some b)
    (hlive : ∀ u, u ≠ t → ∀ b, (s.thr u).owned = some b → s.heap.bufs.Live b →
      s'.heap.bufs.Live b)
    (hunshared : ∀ u b, (s'.thr u).owned = some b → s'.heap.contents ≠ some b) : MemInv K s' :=
  ⟨hnewest, hcurrent, hparsed, hcontents,
    forall_thr (p := fun _ x => ThreadMem s'.heap x) ht hth fun u hu =>
      (hi.threads u).mono hg (hlive u hu),
    hi.inherit ht hown hheld, hunshared⟩

theorem MemInv.read (hi : MemInv K s) {t : T} {c : Call Q} {txt : CString} {isBackup : Bool}
    (hh : s'.heap = s.heap.malloc txt)
    (ht : s'.thr = Function.update s.thr t (.run c (.parsing s.heap.bufs.size isBackup))) :
    MemInv K s' := by
  have hg := s.heap.grows_malloc txt
  have hheld : ∀ u b, (s.thr u).held = some b → b ≠ s.heap.bufs.size := fun u b hb =>
    Nat.ne_of_lt ((hi.threads u).held_lt hb)
  refine ⟨hh ▸ hi.newest, hh ▸ hi.current, hh ▸ hi.parsed, ?_, ?_, ?_, ?_⟩
  · rw [hh]
    exact fun b hb => (hi.contents b hb).alloc
  · rw [hh]
    exact forall_thr (p := fun _ x => ThreadMem (s.heap.malloc txt) x) ht
      (Arena.live_alloc_self _) fun u _ => (hi.threads u).mono hg fun b _ hb => hb.alloc
  · intro u v huv b hu hv
    rw [ht] at hu hv
    by_cases hut : u = t
    · subst hut
      rw [Function.update_self] at hu
      rw [Function.update_of_ne huv.symm] at hv
      cases hu
      exact hheld v _ hv rfl
    · rw [Function.update_of_ne hut] at hu
      by_cases hvt : v = t
      · subst hvt
        rw [Function.update_self] at hv
        cases hv
        exact hheld u _ (owned_held hu) rfl
      · rw [Function.update_of_ne hvt] at hv
        exact hi.owners u v huv b hu hv
  · rw [hh]
    refine forall_thr (p := fun _ x => ∀ b, x.owned = some b → s.heap.contents ≠ some b) ht ?_
      fun u _ => hi.unshared u
    rintro b hb hc
    cases hb
    exact Nat.lt_irrefl _ (hi.contents _ hc).lt

theorem MemInv.drop (hi : MemInv K s) {t : T} {c : Call Q} {pc : Pc A} {b : Ref} {isBackup : Bool}
    (hold : s.thr t = .run c (.parsing b isBackup)) (hpc : pc.Quiet)
    (hh : s'.heap = s.heap.free b) (ht : s'.thr = Function.update s.thr t (.run c pc)) :
    MemInv K s' := by
  obtain ⟨hown, -, -, hpcm⟩ := held_none (P := P) (show (Thread.run c pc).held = none from hpc.held)
  have howned : (s.thr t).owned = some b := by rw [hold]; rfl
  have hnone : ∀ b', (Thread.run c pc).owned = some b' → (s.thr t).owned = some b' := by
    intro b' hb'
    rw [hown] at hb'
    cases hb'
  refine hi.advance (hh ▸ s.heap.grows_free b) ht (hh ▸ hi.newest) (hh ▸ hi.current)
    (hh ▸ hi.parsed) ?_ (hpcm _) hnone (fun b' hb' => ?_) (fun u hu b' hb' hl => ?_) ?_
  · rw [hh]
    intro b' hb'
    refine (hi.contents b' hb').free ?_
    rintro rfl
    exact hi.unshared t b' howned hb'
  · rw [held_run, hpc.held] at hb'
    cases hb'
  · rw [hh]
    exact hl.free (hi.other_owner hu (owned_held howned) hb')
  · rw [hh]
    exact hi.still_unshared ht hnone

theorem MemInv.swap (hi : MemInv K s) {t : T} {c : Call Q} {b : Ref} {isBackup : Bool} {e : E}
    {txt : CString} {p : P} (hold : s.thr t = .run c (.parsing b isBackup))
    (htxt : s.heap.bufText b = some txt) (hp : K.parse e txt = .parsed p)
    (hh : s'.heap = s.heap.swap p txt)
    (ht : s'.thr = Function.update s.thr t
      (.run c (.flushing b s.heap.snaps.size s.heap.current isBackup))) : MemInv K s' := by
  have hmem := hi.threads t
  rw [hold] at hmem
  refine hi.advance (hh ▸ hi.grows_swap p txt) ht (hh ▸ Arena.size_alloc _)
    (hh ▸ Arena.live_alloc_self _) (hh ▸ hi.swap_parsed hp) (hh ▸ hi.contents) ?_
    (fun b' hb' => hold ▸ hb') (fun b' hb' => hold ▸ hb') (fun u hu b' hb' hl => hh ▸ hl) ?_
  · rw [hh]
    refine ⟨hmem, hi.sound_swap htxt p, ?_⟩
    rw [hi.newest]
    exact Nat.lt_succ_self _
  · rw [hh]
    exact hi.still_unshared ht fun b' hb' => hold ▸ hb'

theorem MemInv.swapFree (hi : MemInv K s) {t : T} {c : Call Q} {b : Ref} {isBackup : Bool} {e : E}
    {txt : CString} {p : P} (hold : s.thr t = .run c (.parsing b isBackup))
    (htxt : s.heap.bufText b = some txt) (hp : K.parse e txt = .parsed p)
    (hh : s'.heap = (s.heap.swap p txt).flush s.heap.current)
    (ht : s'.thr = Function.update s.thr t (.run c (.publishing b s.heap.snaps.size isBackup))) :
    MemInv K s' := by
  have hmem := hi.threads t
  rw [hold] at hmem
  have hg := s.heap.swap p txt |>.grows_flush s.heap.current
  have hne : s.heap.snaps.size ≠ s.heap.current := by
    rw [hi.newest]
    omega
  refine hi.advance (hh ▸ (hi.grows_swap p txt).trans hg) ht ?_ ?_ ?_ (hh ▸ hi.contents) ?_
    (fun b' hb' => hold ▸ hb') (fun b' hb' => hold ▸ hb') (fun u hu b' hb' hl => hh ▸ hl) ?_
  · rw [hh]
    exact (Arena.size_free _).trans (Arena.size_alloc _)
  · rw [hh]
    exact (Arena.live_alloc_self _).free hne
  · rw [hh]
    intro k snap hk
    exact hi.swap_parsed hp k snap ((Arena.val?_free _ _).symm.trans hk)
  · rw [hh]
    exact ⟨hmem, (hi.sound_swap htxt p).mono hg⟩
  · rw [hh]
    exact hi.still_unshared ht fun b' hb' => hold ▸ hb'

theorem MemInv.flush (hi : MemInv K s) {t : T} {c : Call Q} {b k old : Ref} {isBackup : Bool}
    (hold : s.thr t = .run c (.flushing b k old isBackup)) (hh : s'.heap = s.heap.flush old)
    (ht : s'.thr = Function.update s.thr t (.run c (.publishing b k isBackup))) : MemInv K s' := by
  have hmem := hi.threads t
  rw [hold] at hmem
  obtain ⟨hlive, hsound, hlt⟩ := hmem
  refine hi.advance (hh ▸ s.heap.grows_flush old) ht ?_ ?_ ?_ (hh ▸ hi.contents) ?_
    (fun b' hb' => hold ▸ hb') (fun b' hb' => hold ▸ hb') (fun u hu b' hb' hl => hh ▸ hl) ?_
  · rw [hh]
    exact (Arena.size_free _).trans hi.newest
  · rw [hh]
    exact hi.current.free (Nat.ne_of_gt (Nat.lt_of_lt_of_le hlt hsound.2.1))
  · rw [hh]
    intro k' snap hk'
    exact hi.parsed k' snap ((Arena.val?_free _ _).symm.trans hk')
  · rw [hh]
    exact ⟨hlive, hsound.mono (s.heap.grows_flush old)⟩
  · rw [hh]
    exact hi.still_unshared ht fun b' hb' => hold ▸ hb'

/-- A loader hands its buffer over: nobody owns it, so freeing the contents it replaces hits no
owner. -/
theorem MemInv.publish (hi : MemInv K s) {t : T} {c : Call Q} {b k : Ref} {isBackup : Bool}
    (hold : s.thr t = .run c (.publishing b k isBackup)) (hh : s'.heap = s.heap.publish b)
    (ht : s'.thr = Function.update s.thr t (.run c (cfg.published c b k isBackup))) :
    MemInv K s' := by
  have hmem := hi.threads t
  rw [hold] at hmem
  have howned : (s.thr t).owned = some b := by rw [hold]; rfl
  have hown : (Thread.run c (cfg.published c b k isBackup : Pc A)).owned = none := by
    unfold RemoteCfg.published
    split <;> rfl
  refine hi.advance (hh ▸ s.heap.grows_publish b) ht (hh ▸ hi.newest) (hh ▸ hi.current)
    (hh ▸ hi.parsed) ?_ ?_ (fun b' hb' => ?_) (fun b' hb' => ?_) (fun u hu b' hb' hl => ?_) ?_
  · rw [hh]
    rintro b' hb'
    cases hb'
    exact hmem.1.free? (hi.unshared t b howned)
  · rw [hh]
    unfold RemoteCfg.published
    split
    · exact hmem.2.mono (s.heap.grows_publish b)
    · trivial
  · rw [hown] at hb'
    cases hb'
  · rw [hold]
    unfold RemoteCfg.published at hb'
    split at hb'
    · exact hb'
    · cases hb'
  · rw [hh]
    exact hl.free? (hi.unshared u b' hb')
  · rw [hh]
    refine forall_thr (p := fun _ x => ∀ b', x.owned = some b' → some b ≠ some b') ht ?_ ?_
    · intro b' hb'
      rw [hown] at hb'
      cases hb'
    · intro u hu b' hb' e
      exact hi.other_owner hu (owned_held howned) hb' (Option.some.inj e).symm

theorem MemInv.write (hi : MemInv K s) {t : T} {c : Call Q} {b : Ref} {r : WriteResult}
    (hh : s'.heap = s.heap.write b r)
    (ht : s'.thr = Function.update s.thr t (.run c (.finishing true))) : MemInv K s' := by
  have hw : s'.heap.contents = s.heap.contents ∧ s'.heap.bufs = s.heap.bufs ∧
      s'.heap.current = s.heap.current ∧ s'.heap.snaps = s.heap.snaps := by
    rw [hh]
    cases r <;> exact ⟨rfl, rfl, rfl, rfl⟩
  obtain ⟨hc, hbufs, hcur, hsnaps⟩ := hw
  refine hi.advance (hh ▸ s.heap.grows_write b r) ht ?_ ?_ ?_ ?_ trivial
    (fun b' hb' => by cases hb') (fun b' hb' => by cases hb') (fun u hu b' hb' hl => ?_) ?_
  · rw [hsnaps, hcur]
    exact hi.newest
  · rw [hsnaps, hcur]
    exact hi.current
  · rw [hsnaps]
    exact hi.parsed
  · rw [hc, hbufs]
    exact hi.contents
  · rw [hbufs]
    exact hl
  · rw [hc]
    exact hi.still_unshared ht fun b' hb' => by cases hb'

theorem MemInv.step {a : Act T E Q A} (hi : MemInv K s) (hs : step K cfg s a = some s') :
    MemInv K s' := by
  obtain ⟨now, -, hh, ht⟩ | ⟨t, th, -, ht, htr⟩ := step_trans hs
  · exact ⟨hh ▸ hi.newest, hh ▸ hi.current, hh ▸ hi.parsed, hh ▸ hi.contents,
      ht ▸ hh ▸ hi.threads, ht ▸ hi.owners, ht ▸ hh ▸ hi.unshared⟩
  generalize hold : s.thr t = old at htr
  generalize hh : s'.heap = h' at htr
  cases htr with
  | call hth => exact hi.calm hh ht rfl
  | quiet hpc hpc' hop hsince => exact hi.calm hh ht hpc'.held
  | look hop hsnap => exact hi.calm hh ht (look_held ..)
  | copy hop => exact hi.calm hh ht rfl
  | read hpc => exact hi.read hh ht
  | drop hpc => exact hi.drop hold hpc hh ht
  | swap htxt hp hK => exact hi.swap hold htxt hp hh ht
  | swapFree htxt hp hK => exact hi.swapFree hold htxt hp hh ht
  | flush => exact hi.flush hold hh ht
  | publish => exact hi.publish hold hh ht
  | write => exact hi.write hh ht

theorem MemInv.reach {file : Option (List UInt8)} {tr : List (Act T E Q A)}
    (h : exec (Remote.step K cfg) (.init K file) tr = some s) : MemInv K s :=
  exec_inv' (fun _ _ _ hi hs => hi.step hs) (.init file) h

theorem MemInv.grows {a : Act T E Q A} (hi : MemInv K s) (hs : Remote.step K cfg s a = some s') :
    s.heap.Grows s'.heap := by
  obtain ⟨now, -, hh, -⟩ | ⟨t, th, -, -, htr⟩ := step_trans hs
  · exact hh ▸ .refl _
  generalize s.thr t = old at htr
  generalize s'.heap = h' at htr
  cases htr with
  | call | quiet | look | copy => exact .refl _
  | read => exact s.heap.grows_malloc _
  | drop => exact s.heap.grows_free _
  | swap => exact hi.grows_swap _ _
  | swapFree => exact (hi.grows_swap _ _).trans (Heap.grows_flush _ _)
  | flush => exact s.heap.grows_flush _
  | publish => exact s.heap.grows_publish _
  | write => exact s.heap.grows_write _ _

/-- The parsed state is replaced by a load that succeeds, and by nothing else. -/
theorem current_changes {a : Act T E Q A} (hs : Remote.step K cfg s a = some s') :
    s'.heap.current = s.heap.current ∨ ∃ t e c b isBackup txt p, a = .parse t e ∧
      s.thr t = .run c (.parsing b isBackup) ∧ s.heap.bufText b = some txt ∧
      K.parse e txt = .parsed p := by
  obtain ⟨now, -, hh, -⟩ | ⟨t, th, ha, -, htr⟩ := step_trans hs
  · exact .inl (hh ▸ rfl)
  generalize hold : s.thr t = old at htr
  generalize s'.heap = h' at htr
  cases htr with
  | call | quiet | look | copy | read | drop | flush | publish => exact .inl rfl
  | @write _ r c b k => exact .inl (by cases r <;> rfl)
  | swap htxt hp hK | swapFree htxt hp hK =>
    cases ha
    exact .inr ⟨t, _, _, _, _, _, _, rfl, hold, htxt, hp⟩

end VmodCfg.Remote
