import Mathlib.Data.List.TakeDrop
import VmodCfg.Remote.Sources

/-!
# The backup file

After a load from the location the contents are written to the backup file, which `fopen`
truncates first; when the location fails, the load falls back on what the file holds. `saved`
is what it holds. A process that stops during the update leaves the file as a write of the
bytes that were flushed by then does.
-/

namespace VmodCfg.Remote

section Defs

variable {σ P : Type*}

def ObjState.saved (s : ObjState σ) : Option (List UInt8) := s.backup.map BackupFile.bytes

/-- The call gets to the part between the two critical sections. -/
def Loads (cfg : RemoteCfg) (w : Inputs) (s : ObjState σ) (forceLoad : Bool) : Prop :=
  forceLoad = true ∨ wins cfg w s forceLoad = true

def Source.loaded (src : Source σ P) (w : Inputs) (s : ObjState σ) : Option (CString × P) :=
  src.accepts s.object (w.location.map .ofBytes)

def RemoteCfg.Saves (cfg : RemoteCfg) (forceBackup : Bool) : Prop :=
  cfg.backup = true ∧ (cfg.automatedBackups = true ∨ forceBackup = true)

/-- The backup holds what it held before, or the whole of the contents that were loaded. -/
def Source.Keeps (src : Source σ P) (w : Inputs) (s s' : ObjState σ) : Prop :=
  s'.saved = s.saved ∨ ∃ c p, src.loaded w s = some (c, p) ∧ s'.saved = some c.bytes

/-- Whenever the backup is updated and the file can be opened, all of the contents reach it, or just
the bytes that it held before. -/
def Source.WritesWhole (src : Source σ P) (cfg : RemoteCfg) (w : Inputs) (s : ObjState σ)
    (forceLoad forceBackup : Bool) : Prop :=
  Loads cfg w s forceLoad → cfg.Saves forceBackup → ∀ c p n junk, src.loaded w s = some (c, p) →
    w.write = .wrote n junk → c.bytes.length ≤ n ∨ s.saved = some (c.bytes.take n)

end Defs

section Law

variable {σ P : Type*} {src : Source σ P} {cfg : RemoteCfg} {w : Inputs} {s s' : ObjState σ}
variable {forceLoad forceBackup r : Bool}

/-- What a call does to the backup file: the first `n` bytes of the contents replace it, or it is
left alone. -/
inductive Update (src : Source σ P) (cfg : RemoteCfg) (w : Inputs) (s : ObjState σ)
    (forceLoad forceBackup : Bool) : Option BackupFile → Prop
  | wrote {c p n junk} (hloads : Loads cfg w s forceLoad) (hsaves : cfg.Saves forceBackup)
    (hload : src.loaded w s = some (c, p)) (hw : w.write = .wrote n junk) :
    Update src cfg w s forceLoad forceBackup
      (some ⟨c.bytes.take n, (s.backup.map BackupFile.readable).getD true⟩)
  | untouched (hno : Loads cfg w s forceLoad → cfg.Saves forceBackup → src.loaded w s = none ∨
      w.write = .openFailed) : Update src cfg w s forceLoad forceBackup s.backup

theorem updateBackup_cases {s₁ : ObjState σ} {c : CString} {p : P} (hbak : s₁.backup = s.backup)
    (hc : s₁.contents = some c) (hloads : Loads cfg w s forceLoad)
    (hload : src.loaded w s = some (c, p)) :
    Update src cfg w s forceLoad forceBackup (updateBackup cfg w s₁ forceBackup).backup := by
  unfold updateBackup
  split
  · rename_i hcond
    have hsaves : cfg.Saves forceBackup := by simpa [RemoteCfg.Saves] using hcond
    cases hw : w.write with
    | openFailed =>
      simp only [hbak]
      exact .untouched fun _ _ => .inr hw
    | wrote n junk =>
      simp only [hc, hbak]
      exact .wrote hloads hsaves hload hw
  · rename_i hcond
    rw [hbak]
    refine .untouched fun _ hsaves => ?_
    exact absurd (by simpa [RemoteCfg.Saves] using hsaves) hcond

theorem checkRemote_update
    (h : checkRemote cfg w src.callback s forceLoad forceBackup = some (r, s')) :
    Update src cfg w s forceLoad forceBackup s'.backup := by
  by_cases hloads : Loads cfg w s forceLoad
  · cases hload : src.loaded w s with
    | none =>
      have hlaw := src.load_law cfg w forceLoad forceBackup s s' r h hloads
      have hbak : s'.backup = s.backup := by
        rw [show src.accepts s.object (w.location.map .ofBytes) = none from hload] at hlaw
        simp only at hlaw
        split at hlaw
        · exact hlaw.2
        · exact hlaw.backup
      rw [hbak]
      exact .untouched fun _ _ => .inl hload
    | some x =>
      obtain ⟨c, p⟩ := x
      have hcond : (forceLoad || wins cfg w s forceLoad) = true := by simpa [Loads] using hloads
      unfold checkRemote at h
      simp only [hcond, if_true] at h
      split at h
      · cases h
      · rename_i ok s₂ h₂
        cases h
        unfold loadRemote at h₂
        simp only at h₂
        split at h₂
        · cases h₂
        · rename_i s₁ h₁
          cases h₂
          obtain ⟨⟨-, -, hbak, -⟩, hspec⟩ := Source.tryContents_spec h₁
          rw [show src.accepts _ (w.location.map .ofBytes) = some (c, p) from hload] at hspec
          exact updateBackup_cases hbak hspec.2.2 hloads hload
        · rename_i s₁ h₁
          obtain ⟨-, hspec⟩ := Source.tryContents_spec h₁
          rw [show src.accepts _ (w.location.map .ofBytes) = some (c, p) from hload] at hspec
          cases hspec.1
  · have hcond : ¬ (forceLoad || wins cfg w s forceLoad) = true := by simpa [Loads] using hloads
    unfold checkRemote at h
    simp only [hcond] at h
    cases h
    exact .untouched fun hl => absurd hl hloads

theorem readBackup_whole {c d : CString} {readable : Bool}
    (hbak : s.backup = some ⟨c.bytes, readable⟩) (h : readBackup s = some d) : d = c := by
  unfold readBackup at h
  simp only [hbak] at h
  split at h
  · cases h
    exact CString.ofBytes_bytes c
  · cases h

theorem fallback_congr (h : s'.backup = s.backup) :
    Source.fallback cfg s' = Source.fallback cfg s := by
  unfold Source.fallback backupHasSize readBackup
  rw [h]

/-- **Updates of the backup**: a call leaves the backup as it was, or holding the whole of what was
loaded, exactly if the bytes that reach the file are all of the contents or what it held; and then
a later load falls back on nothing else. -/
theorem backup_kept_iff (src : Source σ P) (cfg : RemoteCfg) (w : Inputs) (s s' : ObjState σ)
    (forceLoad forceBackup r : Bool)
    (h : checkRemote cfg w src.callback s forceLoad forceBackup = some (r, s')) :
    (src.Keeps w s s' ↔ src.WritesWhole cfg w s forceLoad forceBackup) ∧
      (src.WritesWhole cfg w s forceLoad forceBackup → ∀ d, Source.fallback cfg s' = some d →
        Source.fallback cfg s = some d ∨ ∃ p, src.loaded w s = some (d, p)) := by
  have hup := checkRemote_update h
  generalize hs' : s'.backup = file at hup
  cases hup with
  | untouched hno =>
    have hsaved : s'.saved = s.saved := by rw [ObjState.saved, hs', ObjState.saved]
    refine ⟨⟨fun _ hloads hsaves c p n junk hload hw => ?_, fun _ => .inl hsaved⟩, fun _ d hd => ?_⟩
    · rcases hno hloads hsaves with hnone | hopen
      · rw [hnone] at hload
        cases hload
      · rw [hopen] at hw
        cases hw
    · rw [fallback_congr hs'] at hd
      exact .inl hd
  | @wrote c p n junk hloads hsaves hload hw =>
    have hsaved : s'.saved = some (c.bytes.take n) := by rw [ObjState.saved, hs']; rfl
    refine ⟨⟨fun hk hl _ c' p' n' junk' hload' hw' => ?_, fun hwhole => ?_⟩, fun hwhole d hd => ?_⟩
    · rw [hload] at hload'
      cases hload'
      rw [hw] at hw'
      cases hw'
      rcases hk with hold | ⟨c₁, p₁, hload₁, hc₁⟩
      · exact .inr (hold.symm.trans hsaved)
      · rw [hload] at hload₁
        cases hload₁
        have htake : c.bytes.take n = c.bytes := Option.some.inj (hsaved.symm.trans hc₁)
        exact .inl ((List.take_eq_self_iff c.bytes).1 htake)
    · rcases hwhole hloads hsaves c p n junk hload hw with hlen | hold
      · rw [List.take_of_length_le hlen] at hsaved
        exact .inr ⟨c, p, hload, hsaved⟩
      · exact .inl (hsaved.trans hold.symm)
    · rcases hwhole hloads hsaves c p n junk hload hw with hlen | hold
      · rw [List.take_of_length_le hlen] at hs'
        refine .inr ⟨p, ?_⟩
        have hread : readBackup s' = some d := by
          unfold Source.fallback at hd
          split at hd
          · exact hd
          · cases hd
        rw [readBackup_whole hs' hread]
        exact hload
      · obtain ⟨file, hfile, hbytes⟩ := Option.map_eq_some_iff.mp hold
        have hsame : s'.backup = s.backup := by
          rw [hs', hfile, ← hbytes]
          rfl
        rw [fallback_congr hsame] at hd
        exact .inl hd

end Law

section Truncated

/-- The rules object of the runs below: every regexp compiles. -/
def anyRules : Source (List (Rules.Rule CString)) (List (Rules.Rule CString)) :=
  rulesSource fun regexp => some regexp

/-- The backup is `x->y`, and nothing was loaded yet. -/
def rulesBefore : ObjState (List (Rules.Rule CString)) :=
  ⟨0, false, none, [], some ⟨[120, 45, 62, 121], true⟩, []⟩

/-- The location is `a->b`, `c->d`, and `n` bytes of it reach the backup. -/
def twoRules (n : Nat) : Inputs :=
  ⟨some [97, 45, 62, 98, 10, 99, 45, 62, 100], 5, 5, false, .wrote n []⟩

/-- The rules were loaded, and the backup holds `n` bytes of them. -/
def rulesAfter (n : Nat) : ObjState (List (Rules.Rule CString)) :=
  ⟨5, false, some (.ofBytes [97, 45, 62, 98, 10, 99, 45, 62, 100]),
    [⟨.ofBytes [97], .ofBytes [98]⟩, ⟨.ofBytes [99], .ofBytes [100]⟩],
    some ⟨[97, 45, 62, 98, 10, 99, 45, 62, 100].take n, true⟩, [.read]⟩

theorem backup_kept_iff_whole :
    anyRules.Keeps (twoRules 9) rulesBefore (rulesAfter 9) :=
  ((backup_kept_iff anyRules ⟨true, true, 0⟩ (twoRules 9) rulesBefore (rulesAfter 9) true false
    true (by decide)).1).2 fun _ _ c p n junk hload hw => by
      cases hw
      have hc : anyRules.loaded (twoRules 9) rulesBefore = some (.ofBytes [97, 45, 62, 98, 10, 99,
        45, 62, 100], [⟨.ofBytes [97], .ofBytes [98]⟩, ⟨.ofBytes [99], .ofBytes [100]⟩]) := by decide
      rw [hc] at hload
      cases hload
      exact .inl (by decide)

/-- Four bytes reach the backup: the one that was there is gone, and when the location fails the
object is loaded with the first rule only. -/
theorem truncated_backup_loads :
    checkRemote ⟨true, true, 0⟩ (twoRules 4) anyRules.callback rulesBefore true false =
        some (true, rulesAfter 4) ∧
      ¬ anyRules.Keeps (twoRules 4) rulesBefore (rulesAfter 4) ∧
      checkRemote ⟨true, true, 0⟩ ⟨none, 9, 9, false, .openFailed⟩ anyRules.callback (rulesAfter 4)
          true false =
        some (true, ⟨9, false, some (.ofBytes [97, 45, 62, 98]), [⟨.ofBytes [97], .ofBytes [98]⟩],
          some ⟨[97, 45, 62, 98], true⟩, [.read, .read]⟩) := by
  refine ⟨by decide, ?_, by decide⟩
  rintro (hold | ⟨c, p, hload, hc⟩)
  · revert hold
    decide
  · have hsome : (anyRules.loaded (twoRules 4) rulesBefore).map Prod.fst =
        some (.ofBytes [97, 45, 62, 98, 10, 99, 45, 62, 100]) := by decide
    rw [hload] at hsome
    cases hsome
    revert hc
    decide

end Truncated

end VmodCfg.Remote
