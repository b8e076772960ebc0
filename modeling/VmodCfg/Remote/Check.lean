import VmodCfg.Remote.Threads

/-!
# `check_remote`, one call at a time

A call of `check_remote` by the only thread that uses the object, with the
parser (the `callback`) as a parameter. What the call gets from outside (the
contents of the location, the clock, what becomes of the write to the backup) is
its `Inputs`. `none` is a call that does not return: the callback aborted the
process, or waits for an engine.

A `Source` is a callback with what is to be known about it; `Source.load_law`
says what a load does, for every source.
-/

namespace VmodCfg.Remote

/-- The backup file, when there is one; if it is not `readable`, `fopen` or `fread` fails. -/
structure BackupFile where
  bytes : List UInt8
  readable : Bool
  deriving DecidableEq

/-- What an operation does that can be seen from outside. -/
inductive Event where
  | read
  | serve
  deriving DecidableEq, Repr

/-- `remote->state`, the state of the object (`σ`), and the backup file. `log` is bookkeeping. -/
structure ObjState (σ : Type*) where
  tst : Int
  reloading : Bool
  contents : Option CString
  object : σ
  backup : Option BackupFile
  log : List Event
  deriving DecidableEq

/-- What a call gets from outside: `claimed` says that another thread set `reloading` between the
two tests of it. -/
structure Inputs where
  location : Option (List UInt8)
  now : Int
  later : Int
  claimed : Bool
  write : WriteResult

/-- `unsigned (*callback)(VRT_CTX, void *, char *, unsigned)`: the result, the object, and the
contents as the callback leaves them. -/
abbrev Callback (σ : Type*) := σ → CString → Bool → Option (Bool × σ × CString)

section Defs

variable {σ : Type*} (cfg : RemoteCfg) (w : Inputs) (callback : Callback σ) (s : ObjState σ)

/-- Hand the contents to the callback; if it succeeds, they become `state.contents`. -/
def tryContents (isBackup : Bool) (contents : Option CString) : Option (Bool × ObjState σ) :=
  match contents with
  | none => some (false, s)
  | some c =>
    if c.bytes = [] then some (false, s)
    else
      match callback s.object c isBackup with
      | none => none
      | some (false, object, _) => some (false, { s with object := object })
      | some (true, object, c) => some (true, { s with object := object, contents := some c })

def readBackup : Option CString :=
  match s.backup with
  | some file => if file.readable then some (.ofBytes file.bytes) else none
  | none => none

def checkRemoteBackup : Option (Bool × ObjState σ) := tryContents callback s true (readBackup s)

/-- `stat(remote->backup, &st) == 0 && st.st_size > 0` -/
def backupHasSize : Bool :=
  match s.backup with
  | some file => file.bytes != []
  | none => false

/-- The update of the backup file with the contents that were just published. -/
def updateBackup (forceBackup : Bool) : ObjState σ :=
  if cfg.backup && (cfg.automatedBackups || forceBackup) then
    match w.write, s.contents with
    | .wrote n _, some c =>
      { s with backup := some ⟨c.bytes.take n, (s.backup.map BackupFile.readable).getD true⟩ }
    | _, _ => s
  else s

/-- The part of `check_remote` between the two critical sections. -/
def loadRemote (forceBackup : Bool) : Option (Bool × ObjState σ) :=
  let s := { s with log := s.log ++ [.read] }
  match tryContents callback s false (w.location.map .ofBytes) with
  | none => none
  | some (true, s) => some (true, updateBackup cfg w s forceBackup)
  | some (false, s) =>
    if cfg.backup && backupHasSize s then checkRemoteBackup callback s else some (false, s)

/-- `remote->period > 0 && now - remote->state.tst > remote->period` -/
def Expired : Prop := 0 < cfg.period ∧ (cfg.period.toNat : Int) < w.now - s.tst

instance : Decidable (Expired cfg w s) := inferInstanceAs (Decidable (_ ∧ _))

def wins (forceLoad : Bool) : Bool :=
  !forceLoad && !s.reloading && decide (Expired cfg w s) && !w.claimed

def checkRemote (forceLoad forceBackup : Bool) : Option (Bool × ObjState σ) :=
  let winner := wins cfg w s forceLoad
  if forceLoad || winner then
    match loadRemote cfg w callback { s with reloading := winner || s.reloading } forceBackup with
    | none => none
    | some (result, s) =>
      some (result,
        { s with
          tst := if result then w.later else s.tst
          reloading := if winner then false else s.reloading })
  else some (true, s)

end Defs

/-! ## Sources -/

/-- A callback that parses: `parse o c` is what the contents `c` parse to, when the object is in
state `o`. -/
structure Source (σ P : Type*) where
  callback : Callback σ
  parsed : σ → P
  parse : σ → CString → Option P
  /-- The contents are handed back as they were. -/
  keeps : ∀ {o c b r o' c'}, callback o c b = some (r, o', c') → c' = c
  /-- What parses is published, and what does not leaves the parsed state alone. -/
  publishes : ∀ {o c b r o' c'}, callback o c b = some (r, o', c') →
    match parse o c with
    | some p => r = true ∧ parsed o' = p
    | none => r = false ∧ parsed o' = parsed o

namespace Source

variable {σ P : Type*} (src : Source σ P)

/-- The contents and their parse, if there are contents and they parse. -/
def accepts (o : σ) (contents : Option CString) : Option (CString × P) :=
  match contents with
  | none => none
  | some c => if c.bytes = [] then none else (src.parse o c).map fun p => (c, p)

/-- The object after the contents of the location were tried. -/
def afterLocation (o : σ) (contents : Option CString) : σ :=
  match contents with
  | none => o
  | some c =>
    if c.bytes = [] then o
    else ((src.callback o c false).map fun x => x.2.1).getD o

structure Loaded (w : Inputs) (c : CString) (p : P) (r : Bool) (s' : ObjState σ) : Prop where
  result : r = true
  parsed : src.parsed s'.object = p
  contents : s'.contents = some c
  tst : s'.tst = w.later

structure Failed (s : ObjState σ) (r : Bool) (s' : ObjState σ) : Prop where
  result : r = false
  parsed : src.parsed s'.object = src.parsed s.object
  contents : s'.contents = s.contents
  tst : s'.tst = s.tst
  backup : s'.backup = s.backup

def fallback (cfg : RemoteCfg) (s : ObjState σ) : Option CString :=
  if cfg.backup && backupHasSize s then readBackup s else none

/-- **The transition law of loads**: the location, or else the backup, or else nothing changes. -/
def LoadLaw : Prop :=
  ∀ (cfg : RemoteCfg) (w : Inputs) (forceLoad forceBackup : Bool) (s s' : ObjState σ) (r : Bool),
    checkRemote cfg w src.callback s forceLoad forceBackup = some (r, s') →
    (forceLoad = true ∨ wins cfg w s forceLoad = true) →
      match src.accepts s.object (w.location.map .ofBytes) with
      | some (c, p) => src.Loaded w c p r s'
      | none =>
        match src.accepts (src.afterLocation s.object (w.location.map .ofBytes))
            (fallback cfg s) with
        | some (c, p) => src.Loaded w c p r s' ∧ s'.backup = s.backup
        | none => src.Failed s r s'

variable {src}

/-- Contents that are accepted are published, and others leave no trace but in the object. -/
theorem tryContents_spec {s s' : ObjState σ} {isBackup : Bool} {contents : Option CString}
    {r : Bool} (h : tryContents src.callback s isBackup contents = some (r, s')) :
    (s'.tst = s.tst ∧ s'.reloading = s.reloading ∧ s'.backup = s.backup ∧ s'.log = s.log) ∧
      match src.accepts s.object contents with
      | some (c, p) => r = true ∧ src.parsed s'.object = p ∧ s'.contents = some c
      | none =>
        r = false ∧ src.parsed s'.object = src.parsed s.object ∧ s'.contents = s.contents := by
  unfold tryContents at h
  unfold accepts
  cases contents with
  | none =>
    cases h
    exact ⟨⟨rfl, rfl, rfl, rfl⟩, rfl, rfl, rfl⟩
  | some c =>
    by_cases hc : c.bytes = []
    · simp only [hc, if_true] at h ⊢
      cases h
      exact ⟨⟨rfl, rfl, rfl, rfl⟩, rfl, rfl, rfl⟩
    · simp only [hc, if_false] at h ⊢
      rcases hcb : src.callback s.object c isBackup with _ | ⟨ok, o, c'⟩
      · simp [hcb] at h
      · have hpub := src.publishes hcb
        have hkeep := src.keeps hcb
        cases hp : src.parse s.object c with
        | none =>
          simp only [hp] at hpub
          obtain ⟨rfl, hpo⟩ := hpub
          simp only [hcb] at h
          cases h
          exact ⟨⟨rfl, rfl, rfl, rfl⟩, rfl, hpo, rfl⟩
        | some p =>
          simp only [hp] at hpub
          obtain ⟨rfl, hpo⟩ := hpub
          simp only [hcb] at h
          cases h
          exact ⟨⟨rfl, rfl, rfl, rfl⟩, rfl, hpo, congrArg some hkeep⟩

theorem tryContents_object {s s' : ObjState σ} {contents : Option CString}
    (h : tryContents src.callback s false contents = some (false, s')) :
    s'.object = src.afterLocation s.object contents := by
  unfold tryContents at h
  unfold afterLocation
  cases contents with
  | none =>
    cases h
    rfl
  | some c =>
    by_cases hc : c.bytes = []
    · simp only [hc, if_true] at h ⊢
      cases h
      rfl
    · simp only [hc, if_false] at h ⊢
      rcases hcb : src.callback s.object c false with _ | ⟨ok, o, c'⟩
      · simp [hcb] at h
      · simp only [hcb] at h
        cases ok with
        | false =>
          cases h
          rfl
        | true => cases h

theorem updateBackup_eq (cfg : RemoteCfg) (w : Inputs) (s : ObjState σ) (forceBackup : Bool) :
    ∃ file, updateBackup cfg w s forceBackup = { s with backup := file } := by
  unfold updateBackup
  split
  · split
    · exact ⟨_, rfl⟩
    · exact ⟨s.backup, rfl⟩
  · exact ⟨s.backup, rfl⟩

theorem loadRemote_spec {cfg : RemoteCfg} {w : Inputs} {forceBackup : Bool} {s s' : ObjState σ}
    {r : Bool} (h : loadRemote cfg w src.callback s forceBackup = some (r, s')) :
    s'.tst = s.tst ∧
      match src.accepts s.object (w.location.map .ofBytes) with
      | some (c, p) => r = true ∧ src.parsed s'.object = p ∧ s'.contents = some c
      | none =>
        s'.backup = s.backup ∧
          match src.accepts (src.afterLocation s.object (w.location.map .ofBytes))
              (fallback cfg s) with
          | some (c, p) => r = true ∧ src.parsed s'.object = p ∧ s'.contents = some c
          | none =>
            r = false ∧ src.parsed s'.object = src.parsed s.object ∧ s'.contents = s.contents := by
  unfold loadRemote at h
  rcases h₂ : tryContents src.callback { s with log := s.log ++ [.read] } false
      (w.location.map .ofBytes) with _ | ⟨ok, s₂⟩
  · simp [h₂] at h
  · obtain ⟨⟨htst, -, hbak, -⟩, hspec⟩ := tryContents_spec h₂
    cases hacc : src.accepts s.object (w.location.map .ofBytes) with
    | some x =>
      obtain ⟨c, p⟩ := x
      simp only [hacc] at hspec
      obtain ⟨rfl, hp, hc⟩ := hspec
      obtain ⟨file, hfile⟩ := updateBackup_eq cfg w s₂ forceBackup
      simp only [h₂, hfile] at h
      cases h
      exact ⟨htst, rfl, hp, hc⟩
    | none =>
      simp only [hacc] at hspec
      obtain ⟨rfl, hp, hc⟩ := hspec
      have hobj := tryContents_object h₂
      have hread : readBackup s₂ = readBackup s := by rw [readBackup, hbak, readBackup]
      have hsize : backupHasSize s₂ = backupHasSize s := by
        rw [backupHasSize, hbak, backupHasSize]
      simp only [h₂, hsize, checkRemoteBackup, hread] at h
      unfold fallback
      by_cases hb : (cfg.backup && backupHasSize s) = true
      · simp only [hb, if_true] at h ⊢
        obtain ⟨⟨htst₃, -, hbak₃, -⟩, hspec₃⟩ := tryContents_spec h
        refine ⟨htst₃.trans htst, hbak₃.trans hbak, ?_⟩
        rw [hobj] at hspec₃
        split
        · rename_i hacc₃
          simpa only [hacc₃] using hspec₃
        · rename_i hacc₃
          simp only [hacc₃] at hspec₃
          obtain ⟨rfl, hp₃, hc₃⟩ := hspec₃
          rw [← hobj] at hp₃
          exact ⟨rfl, hp₃.trans hp, hc₃.trans hc⟩
      · simp only [hb] at h ⊢
        cases h
        exact ⟨htst, hbak, rfl, hp, hc⟩

theorem load_law (src : Source σ P) : src.LoadLaw := by
  intro cfg w forceLoad forceBackup s s' r h hload
  have hcond : (forceLoad || wins cfg w s forceLoad) = true := by simpa using hload
  unfold checkRemote at h
  simp only [hcond, if_true] at h
  split at h
  · cases h
  · rename_i ok s₁ h₁
    cases h
    obtain ⟨htst, hspec⟩ := loadRemote_spec h₁
    have hfb : fallback cfg { s with reloading := wins cfg w s forceLoad || s.reloading } =
        fallback cfg s := rfl
    rw [hfb] at hspec
    simp only at hspec
    split
    · rename_i hacc
      simp only [hacc] at hspec
      obtain ⟨rfl, hp, hc⟩ := hspec
      exact ⟨rfl, hp, hc, rfl⟩
    · rename_i hacc
      simp only [hacc] at hspec
      obtain ⟨hbak, hspec⟩ := hspec
      split
      · rename_i hacc₃
        simp only [hacc₃] at hspec
        obtain ⟨rfl, hp, hc⟩ := hspec
        exact ⟨⟨rfl, hp, hc, rfl⟩, hbak⟩
      · rename_i hacc₃
        simp only [hacc₃] at hspec
        obtain ⟨rfl, hp, hc⟩ := hspec
        exact ⟨rfl, hp, hc, htst, hbak⟩

end Source

end VmodCfg.Remote
