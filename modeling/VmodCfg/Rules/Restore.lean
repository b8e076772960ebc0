import VmodCfg.Remote.Backup
import VmodCfg.Remote.Refresh
import VmodCfg.Rules.Grammar

/-!
# What a check of rules leaves behind

The contents are handed to `rules_parse`, which writes into them, and afterwards
published and backed up from the same buffer. As the parser puts every byte
back, `inspect` and the backup see the text that was read.
-/

namespace VmodCfg.Rules

open Remote

section Texts

variable {σ : Type*}

/-- After a check, the contents that `inspect` shows are those it showed before, or a text as it was
read; and what was written to the backup, if anything, is the text of the location as far as
`fputs` got. -/
structure OriginalTexts (w : Inputs) (s s' : ObjState σ) : Prop where
  shown : ∀ synth, inspectRemote s' synth = inspectRemote s synth ∨
    ∃ c, inspectRemote s' synth = (if synth then some c else none) ∧
      (w.location.map .ofBytes = some c ∨ readBackup s = some c)
  saved : s'.backup = s.backup ∨ ∃ loc n junk, w.location = some loc ∧ w.write = .wrote n junk ∧
    s'.saved = some ((CString.ofBytes loc).bytes.take n)

end Texts

theorem accepts_eq_some {σ P : Type*} {src : Source σ P} {o : σ} {contents : Option CString}
    {c : CString} {p : P} (h : src.accepts o contents = some (c, p)) : contents = some c := by
  unfold Source.accepts at h
  split at h
  · cases h
  · split at h
    · cases h
    · obtain ⟨_, _, heq⟩ := Option.map_eq_some_iff.mp h
      cases heq
      rfl

theorem fallback_eq_some {σ : Type*} {cfg : RemoteCfg} {s : ObjState σ} {c : CString}
    (h : Source.fallback cfg s = some c) : readBackup s = some c := by
  unfold Source.fallback at h
  split at h
  · exact h
  · cases h

section Check

variable {σ P : Type*} {src : Source σ P} {cfg : RemoteCfg} {w : Inputs} {s s' : ObjState σ}
variable {forceLoad forceBackup r : Bool}

/-- A check publishes the text that it hands to the callback, if the callback keeps it. -/
theorem checkRemote_contents
    (h : checkRemote cfg w src.callback s forceLoad forceBackup = some (r, s')) :
    s'.contents = s.contents ∨ ∃ c, s'.contents = some c ∧
      (w.location.map .ofBytes = some c ∨ readBackup s = some c) := by
  by_cases hloads : Loads cfg w s forceLoad
  · have hlaw := src.load_law cfg w forceLoad forceBackup s s' r h hloads
    split at hlaw
    · rename_i c p hacc
      exact .inr ⟨c, hlaw.contents, .inl (accepts_eq_some hacc)⟩
    · split at hlaw
      · rename_i c p hacc
        exact .inr ⟨c, hlaw.1.contents, .inr (fallback_eq_some (accepts_eq_some hacc))⟩
      · exact .inl hlaw.contents
  · have hcond : ¬ (forceLoad || wins cfg w s forceLoad) = true := by simpa [Loads] using hloads
    unfold checkRemote at h
    simp only [hcond] at h
    cases h
    exact .inl rfl

theorem checkRemote_saved
    (h : checkRemote cfg w src.callback s forceLoad forceBackup = some (r, s')) :
    s'.backup = s.backup ∨ ∃ loc n junk, w.location = some loc ∧ w.write = .wrote n junk ∧
      s'.saved = some ((CString.ofBytes loc).bytes.take n) := by
  have hup := checkRemote_update h
  unfold ObjState.saved
  generalize s'.backup = file at hup
  cases hup with
  | wrote _ _ hload hw =>
    obtain ⟨loc, hloc, hc⟩ := Option.map_eq_some_iff.mp (accepts_eq_some hload)
    cases hc
    exact .inr ⟨loc, _, _, hloc, hw, rfl⟩
  | untouched _ => exact .inl rfl

end Check

theorem vmodRulesGet_on {V : Type*} (vreCompile : CString → Option V)
    (reMatch : Option CString → V → Bool) (cfg : RemoteCfg) (w : Inputs)
    (s : ObjState (List (Rule V))) (value fallback : Option CString) (room : Bool) :
    vmodRulesGet vreCompile reMatch cfg w s value fallback room =
      thenServe (rulesCheck vreCompile cfg w s false false)
        fun s => vmodRulesGetOn reMatch (fun _ => room) s.object value fallback := by
  unfold vmodRulesGet
  simp only [vmodRulesGetOn_eq]

/-- **`rules_parse` puts back every byte of the contents**, for every contents and outcome, and so
every check of a rules object shows and saves the texts that were read. -/
theorem rulesParse_restores {V : Type*} (vreCompile : CString → Option V) :
    (∀ contents : Buffer, (rulesParse vreCompile contents).2 = contents) ∧
      ∀ cfg w forceLoad forceBackup s r s',
        rulesCheck vreCompile cfg w s forceLoad forceBackup = some (r, s') →
          OriginalTexts w s s' := by
  refine ⟨fun contents => rulesParse_buffer contents, ?_⟩
  intro cfg w forceLoad forceBackup s r s' h
  have h : checkRemote cfg w (rulesSource vreCompile).callback s forceLoad forceBackup =
      some (r, s') := h
  refine ⟨fun synth => ?_, checkRemote_saved h⟩
  cases synth with
  | false => exact .inl rfl
  | true => exact checkRemote_contents h

/-- Two rules are loaded, and saved whole. -/
theorem rulesParse_restores_two_rules :
    rulesCheck some ⟨true, true, 0⟩ (twoRules 9) rulesBefore true false =
        some (true, rulesAfter 9) ∧
      OriginalTexts (twoRules 9) rulesBefore (rulesAfter 9) := by
  have hcheck : rulesCheck some ⟨true, true, 0⟩ (twoRules 9) rulesBefore true false =
      some (true, rulesAfter 9) := by decide
  exact ⟨hcheck, (rulesParse_restores some).2 _ _ _ _ _ _ _ hcheck⟩

end VmodCfg.Rules
