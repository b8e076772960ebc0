import VmodCfg.Rules.Get

/-!
# Loads neither leak nor free twice

Whatever the interleaving, a contents buffer that is allocated is the published
one or belongs to one call, and a parsed state is the current one or is about to
be flushed by the one call that replaced it. So what an action frees is still
there, and between loads there is nothing but what is published.
-/

namespace VmodCfg.Remote

open Machine

section Defs

variable {T E P Q A : Type*} (K : Kind E P Q A) (s : RemoteSys T P Q A)

def freedContents : Act T E Q A → Option Ref
  | .parse t e =>
    match s.thr t with
    | .run _ (.parsing b _) =>
      match (s.heap.bufText b).map (K.parse e) with
      | some .failed => some b
      | _ => none
    | _ => none
  | .publish t =>
    match s.thr t with
    | .run _ (.publishing ..) => s.heap.contents
    | _ => none
  | _ => none

def freedState : Act T E Q A → Option Ref
  | .parse t e =>
    match s.thr t with
    | .run _ (.parsing b _) =>
      match (s.heap.bufText b).map (K.parse e) with
      | some (.parsed _) => if K.freesUnderLock then some s.heap.current else none
      | _ => none
    | _ => none
  | .flush t => (s.thr t).replaced
  | _ => none

/-- What the action frees has not been freed before, and nothing else goes. -/
structure FreesOnce [DecidableEq T] (cfg : RemoteCfg) (a : Act T E Q A) : Prop where
  contents : ∀ b ∈ freedContents K s a, s.heap.bufs.Live b
  states : ∀ k ∈ freedState K s a, s.heap.snaps.Live k
  keepsContents : ∀ s', step K cfg s a = some s' → ∀ b, s.heap.bufs.Live b →
    (s'.heap.bufs.Live b ↔ freedContents K s a ≠ some b)
  keepsStates : ∀ s', step K cfg s a = some s' → ∀ k, s.heap.snaps.Live k →
    (s'.heap.snaps.Live k ↔ freedState K s a ≠ some k)

/-- Whatever has not been freed is published, or in the hands of a thread. -/
structure Covered : Prop where
  contents : ∀ b, s.heap.bufs.Live b → s.heap.contents = some b ∨ ∃ t, (s.thr t).owned = some b
  states : ∀ k, s.heap.snaps.Live k → s.heap.current = k ∨ ∃ t, (s.thr t).replaced = some k

/-- The contents and the parsed states that exist are the published ones, and those that exactly
one thread has in hands. -/
structure Accounted : Prop where
  contents : ∀ b, s.heap.bufs.Live b ↔
    Xor (s.heap.contents = some b) (∃! t, (s.thr t).owned = some b)
  states : ∀ k, s.heap.snaps.Live k ↔
    Xor (s.heap.current = k) (∃! t, (s.thr t).replaced = some k)

end Defs

variable {T E P Q A : Type*} {K : Kind E P Q A} {cfg : RemoteCfg} {s s' : RemoteSys T P Q A}

/-! ## What was freed -/

section Freed

variable [DecidableEq T] {a : Act T E Q A} {b : Ref}

/-- Contents are freed by a parse that failed, and by publishing others. -/
theorem live_kept (hparse : ∀ t e, a ≠ .parse t e) (hpublish : ∀ t, a ≠ .publish t)
    (hs : Remote.step K cfg s a = some s') (hb : s.heap.bufs.Live b) : s'.heap.bufs.Live b := by
  obtain ⟨now, -, hh, -⟩ | ⟨t, th, -, -, htr⟩ := step_trans hs
  · exact hh ▸ hb
  generalize s.thr t = old at htr
  generalize s'.heap = h' at htr
  cases htr with
  | call | quiet | look | copy | flush => exact hb
  | read => exact hb.alloc
  | @write _ r c b k => exact (by cases r <;> exact hb)
  | drop => exact absurd rfl (hparse _ _)
  | swap | swapFree => exact hb
  | publish => exact absurd rfl (hpublish _)

/-- A parsed state is freed by the next one, and by the flush of its loader. -/
theorem state_live_kept (hparse : ∀ t e, a ≠ .parse t e) (hflush : ∀ t, a ≠ .flush t)
    (hs : Remote.step K cfg s a = some s') {k : Ref} (hk : s.heap.snaps.Live k) :
    s'.heap.snaps.Live k := by
  obtain ⟨now, -, hh, -⟩ | ⟨t, th, -, -, htr⟩ := step_trans hs
  · exact hh ▸ hk
  generalize s.thr t = old at htr
  generalize s'.heap = h' at htr
  cases htr with
  | call | quiet | look | copy | read | publish => exact hk
  | @write _ r c b k => exact (by cases r <;> exact hk)
  | drop | swap | swapFree => exact absurd rfl (hparse _ _)
  | flush => exact absurd rfl (hflush _)

theorem live_iff_not_freed (hs : Remote.step K cfg s a = some s') (hb : s.heap.bufs.Live b) :
    s'.heap.bufs.Live b ↔ freedContents K s a ≠ some b := by
  cases a with
  | parse t e =>
    simp only [Remote.step] at hs
    split at hs
    · rename_i c b' isBackup hth
      split at hs
      · cases hs
      · rename_i txt htxt
        simp only [freedContents, hth, htxt, Option.map_some]
        split at hs
        · cases hs
        · rename_i hparse
          cases hs
          simp only [hparse]
          constructor
          · intro hlive heq
            exact (Arena.Live.of_free hlive).2 (Option.some.inj heq).symm
          · exact fun hne => hb.free fun heq => hne (congrArg some heq.symm)
        · rename_i p hparse
          have hbufs : s'.heap.bufs = s.heap.bufs := by
            split at hs <;> cases hs <;> rfl
          simp only [hparse, hbufs]
          exact ⟨fun _ => by simp, fun _ => hb⟩
    · cases hs
  | publish t =>
    simp only [Remote.step] at hs
    split at hs
    · rename_i c b' k isBackup hth
      cases hs
      simp only [freedContents, hth]
      constructor
      · intro hlive heq
        simp only [Heap.publish, heq, Arena.free?] at hlive
        exact (Arena.Live.of_free hlive).2 rfl
      · exact fun hne => hb.free? hne
    · cases hs
  | _ => exact ⟨fun _ => by simp [freedContents], fun _ => live_kept (by simp) (by simp) hs hb⟩

theorem state_live_iff_not_freed (hs : Remote.step K cfg s a = some s') {k : Ref}
    (hk : s.heap.snaps.Live k) : s'.heap.snaps.Live k ↔ freedState K s a ≠ some k := by
  cases a with
  | parse t e =>
    simp only [Remote.step] at hs
    split at hs
    · rename_i c b' isBackup hth
      split at hs
      · cases hs
      · rename_i txt htxt
        simp only [freedState, hth, htxt, Option.map_some]
        split at hs
        · cases hs
        · rename_i hparse
          cases hs
          simp only [hparse]
          exact ⟨fun _ => by simp, fun _ => hk⟩
        · rename_i p hparse
          simp only [hparse]
          split at hs
          · rename_i hK
            cases hs
            rw [if_pos hK]
            constructor
            · intro hlive heq
              exact (Arena.Live.of_free hlive).2 (Option.some.inj heq).symm
            · exact fun hne => hk.alloc.free fun heq => hne (congrArg some heq.symm)
          · rename_i hK
            cases hs
            rw [if_neg hK]
            exact ⟨fun _ => by simp, fun _ => hk.alloc⟩
    · cases hs
  | flush t =>
    simp only [Remote.step] at hs
    split at hs
    · rename_i c b' k' old isBackup hth
      cases hs
      simp only [freedState, hth, Thread.replaced]
      constructor
      · intro hlive heq
        exact (Arena.Live.of_free hlive).2 (Option.some.inj heq).symm
      · exact fun hne => hk.free fun heq => hne (congrArg some heq.symm)
    · cases hs
  | _ => exact ⟨fun _ => by simp [freedState], fun _ => state_live_kept (by simp) (by simp) hs hk⟩

end Freed

/-! ## Every block is in someone's hands -/

theorem Pc.Quiet.owned {pc : Pc A} (h : pc.Quiet) : pc.owned = none := by
  cases pc <;> first | rfl | exact h.elim

theorem owned_live {h : Heap P} {th : Thread Q A} (hm : ThreadMem h th) {b : Ref}
    (hb : th.owned = some b) : h.bufs.Live b := by
  cases th with
  | idle => cases hb
  | run c pc =>
    cases pc with
    | parsing b' isBackup =>
      cases hb
      exact hm
    | flushing b' k old isBackup | publishing b' k isBackup =>
      cases hb
      exact hm.1
    | _ => cases hb

theorem live_of_free? {α : Type*} {a : Arena α} {o : Option Ref} {r : Ref}
    (h : (a.free? o).Live r) : a.Live r ∧ o ≠ some r := by
  cases o with
  | none => exact ⟨h, nofun⟩
  | some q =>
    obtain ⟨hlive, hne⟩ := Arena.Live.of_free h
    exact ⟨hlive, fun heq => hne (Option.some.inj heq).symm⟩

theorem Covered.init (file : Option (List UInt8)) :
    Covered (RemoteSys.init K file : RemoteSys T P Q A) := by
  refine ⟨fun b hb => ?_, fun k hk => .inl ?_⟩
  · cases hb
  · exact (Nat.lt_one_iff.mp hk.lt).symm

variable [DecidableEq T]

/-- A thread moved: what it had in hands it passed on. -/
theorem Covered.advance (hc : Covered s) {t : T} {th : Thread Q A}
    (ht : s'.thr = Function.update s.thr t th)
    (hcontents : ∀ b, s'.heap.bufs.Live b → s'.heap.contents = some b ∨ th.owned = some b ∨
      (s.heap.bufs.Live b ∧ s.heap.contents ≠ some b ∧ (s.thr t).owned ≠ some b))
    (hstates : ∀ k, s'.heap.snaps.Live k → s'.heap.current = k ∨ th.replaced = some k ∨
      (s.heap.snaps.Live k ∧ s.heap.current ≠ k ∧ (s.thr t).replaced ≠ some k)) :
    Covered s' := by
  have hself : s'.thr t = th := by rw [ht, Function.update_self]
  have hother : ∀ u, u ≠ t → s'.thr u = s.thr u := fun u hu => by rw [ht, Function.update_of_ne hu]
  constructor
  · intro b hb
    rcases hcontents b hb with hpub | hth | ⟨hlive, hpub, hown⟩
    · exact .inl hpub
    · exact .inr ⟨t, hself ▸ hth⟩
    · obtain ⟨u, hu⟩ := (hc.contents b hlive).resolve_left hpub
      have hut : u ≠ t := by
        rintro rfl
        exact hown hu
      exact .inr ⟨u, hother u hut ▸ hu⟩
  · intro k hk
    rcases hstates k hk with hcur | hth | ⟨hlive, hcur, hrep⟩
    · exact .inl hcur
    · exact .inr ⟨t, hself ▸ hth⟩
    · obtain ⟨u, hu⟩ := (hc.states k hlive).resolve_left hcur
      have hut : u ≠ t := by
        rintro rfl
        exact hrep hu
      exact .inr ⟨u, hother u hut ▸ hu⟩

/-- The parsed states stay, and the thread that moved had none to flush. -/
theorem Covered.contents_moved (hc : Covered s) {t : T} {th : Thread Q A}
    (ht : s'.thr = Function.update s.thr t th) (hcurrent : s'.heap.current = s.heap.current)
    (hsnaps : s'.heap.snaps = s.heap.snaps) (hold : (s.thr t).replaced = none)
    (hcontents : ∀ b, s'.heap.bufs.Live b → s'.heap.contents = some b ∨ th.owned = some b ∨
      (s.heap.bufs.Live b ∧ s.heap.contents ≠ some b ∧ (s.thr t).owned ≠ some b)) :
    Covered s' := by
  refine hc.advance ht hcontents fun k hk => ?_
  rw [hcurrent, hold]
  rw [hsnaps] at hk
  by_cases hcur : s.heap.current = k
  · exact .inl hcur
  · exact .inr (.inr ⟨hk, hcur, by simp⟩)

/-- The contents stay, and the thread that moved keeps its own ones. -/
theorem Covered.states_moved (hc : Covered s) {t : T} {th : Thread Q A}
    (ht : s'.thr = Function.update s.thr t th) (hcontents : s'.heap.contents = s.heap.contents)
    (hbufs : s'.heap.bufs = s.heap.bufs) (hown : th.owned = (s.thr t).owned)
    (hstates : ∀ k, s'.heap.snaps.Live k → s'.heap.current = k ∨ th.replaced = some k ∨
      (s.heap.snaps.Live k ∧ s.heap.current ≠ k ∧ (s.thr t).replaced ≠ some k)) :
    Covered s' := by
  refine hc.advance ht (fun b hb => ?_) hstates
  rw [hcontents, hown]
  rw [hbufs] at hb
  by_cases hpub : s.heap.contents = some b
  · exact .inl hpub
  · by_cases hmine : (s.thr t).owned = some b
    · exact .inr (.inl hmine)
    · exact .inr (.inr ⟨hb, hpub, hmine⟩)

/-- The heap stays, and the thread that moved had nothing in hands. -/
theorem Covered.calm (hc : Covered s) {t : T} {th : Thread Q A} (hh : s'.heap = s.heap)
    (ht : s'.thr = Function.update s.thr t th) (hown : (s.thr t).owned = none)
    (hrep : (s.thr t).replaced = none) : Covered s' := by
  refine hc.contents_moved ht (hh ▸ rfl) (hh ▸ rfl) hrep fun b hb => ?_
  rw [hh, hown]
  rw [hh] at hb
  by_cases hpub : s.heap.contents = some b
  · exact .inl hpub
  · exact .inr (.inr ⟨hb, hpub, by simp⟩)

theorem Covered.step {a : Act T E Q A} (hc : Covered s) (hs : Remote.step K cfg s a = some s') :
    Covered s' := by
  obtain ⟨now, -, hh, ht⟩ | ⟨t, th, -, ht, htr⟩ := step_trans hs
  · exact ⟨ht ▸ hh ▸ hc.contents, ht ▸ hh ▸ hc.states⟩
  generalize hold : s.thr t = old at htr
  generalize hh : s'.heap = h' at htr
  have hown : (s.thr t).owned = old.owned := congrArg Thread.owned hold
  have hrep : (s.thr t).replaced = old.replaced := congrArg Thread.replaced hold
  cases htr with
  | call hth =>
    rcases hth with rfl | ⟨c, ans, rfl⟩ <;> exact hc.calm hh ht hown hrep
  | quiet hpc hpc' hop hsince => exact hc.calm hh ht (hown.trans hpc.owned) (hrep.trans (hpc.replaced _))
  | look hop hsnap => exact hc.calm hh ht hown hrep
  | copy hop => exact hc.calm hh ht hown hrep
  | @read _ c pc txt isBackup hpc =>
    refine hc.contents_moved ht (hh ▸ rfl) (hh ▸ rfl) (hrep.trans (hpc.replaced _)) fun b hb => ?_
    rw [hown.trans (show (Thread.run c pc).owned = none from hpc.owned)]
    rw [hh] at hb ⊢
    have hlt : b < s.heap.bufs.size + 1 := Nat.lt_of_lt_of_eq hb.lt (Arena.size_alloc _)
    rcases Nat.lt_succ_iff_lt_or_eq.mp hlt with hlt | rfl
    · have hlive := (Arena.live_alloc_of_lt _ hlt).mp hb
      by_cases hpub : s.heap.contents = some b
      · exact .inl hpub
      · exact .inr (.inr ⟨hlive, hpub, by simp⟩)
    · exact .inr (.inl rfl)
  | @drop _ e c pc b isBackup hpc =>
    refine hc.contents_moved ht (hh ▸ rfl) (hh ▸ rfl) hrep fun b' hb' => ?_
    rw [hh] at hb' ⊢
    obtain ⟨hlive, hne⟩ := Arena.Live.of_free hb'
    by_cases hpub : s.heap.contents = some b'
    · exact .inl hpub
    · refine .inr (.inr ⟨hlive, hpub, fun hmine => hne ?_⟩)
      exact (Option.some.inj (hown.symm.trans hmine)).symm
  | @swap _ e c b isBackup txt p htxt hp hK =>
    refine hc.states_moved ht (hh ▸ rfl) (hh ▸ rfl) hown.symm fun k hk => ?_
    rw [hrep]
    rw [hh] at hk ⊢
    have hlt : k < s.heap.snaps.size + 1 := Nat.lt_of_lt_of_eq hk.lt (Arena.size_alloc _)
    rcases Nat.lt_succ_iff_lt_or_eq.mp hlt with hlt | rfl
    · have hlive := (Arena.live_alloc_of_lt _ hlt).mp hk
      by_cases hcur : s.heap.current = k
      · exact .inr (.inl (congrArg some hcur))
      · exact .inr (.inr ⟨hlive, hcur, nofun⟩)
    · exact .inl rfl
  | @swapFree _ e c b isBackup txt p htxt hp hK =>
    refine hc.states_moved ht (hh ▸ rfl) (hh ▸ rfl) hown.symm fun k hk => ?_
    rw [hrep]
    rw [hh] at hk ⊢
    obtain ⟨hk, hne⟩ := Arena.Live.of_free hk
    have hlt : k < s.heap.snaps.size + 1 := Nat.lt_of_lt_of_eq hk.lt (Arena.size_alloc _)
    rcases Nat.lt_succ_iff_lt_or_eq.mp hlt with hlt | rfl
    · exact .inr (.inr ⟨(Arena.live_alloc_of_lt _ hlt).mp hk, Ne.symm hne, nofun⟩)
    · exact .inl rfl
  | @flush _ c b k old isBackup =>
    refine hc.states_moved ht (hh ▸ rfl) (hh ▸ rfl) hown.symm fun k' hk' => ?_
    rw [hrep]
    rw [hh] at hk' ⊢
    obtain ⟨hlive, hne⟩ := Arena.Live.of_free hk'
    by_cases hcur : s.heap.current = k'
    · exact .inl hcur
    · exact .inr (.inr ⟨hlive, hcur, fun hmine => hne (Option.some.inj hmine).symm⟩)
  | @publish _ c b k isBackup =>
    refine hc.contents_moved ht (hh ▸ rfl) (hh ▸ rfl) hrep fun b' hb' => ?_
    rw [hown]
    rw [hh] at hb' ⊢
    by_cases hmine : b' = b
    · exact .inl (congrArg some hmine.symm)
    · obtain ⟨hlive, hne⟩ := live_of_free? hb'
      refine .inr (.inr ⟨hlive, hne, ?_⟩)
      exact fun heq => hmine (Option.some.inj heq).symm
  | @write _ r c b k =>
    have hw : s'.heap.contents = s.heap.contents ∧ s'.heap.bufs = s.heap.bufs ∧
        s'.heap.current = s.heap.current ∧ s'.heap.snaps = s.heap.snaps := by
      rw [hh]
      cases r <;> exact ⟨rfl, rfl, rfl, rfl⟩
    obtain ⟨hcontents, hbufs, hcur, hsnaps⟩ := hw
    refine hc.contents_moved ht hcur hsnaps hrep fun b' hb' => ?_
    rw [hcontents, hown]
    rw [hbufs] at hb'
    by_cases hpub : s.heap.contents = some b'
    · exact .inl hpub
    · exact .inr (.inr ⟨hb', hpub, nofun⟩)

/-! ## Runs -/

theorem Covered.accounted (hc : Covered s) (hi : MemInv K s) (hr : ReplacedInv s) :
    Accounted s := by
  constructor
  · intro b
    constructor
    · intro hb
      rcases hc.contents b hb with hpub | ⟨t, ht⟩
      · refine .inl ⟨hpub, ?_⟩
        rintro ⟨t, ht, -⟩
        exact hi.unshared t b ht hpub
      · refine .inr ⟨⟨t, ht, fun u hu => ?_⟩, hi.unshared t b ht⟩
        by_contra hne
        exact hi.owners t u (Ne.symm hne) b ht (owned_held hu)
    · rintro (⟨hpub, -⟩ | ⟨⟨t, ht, -⟩, -⟩)
      · exact hi.contents b hpub
      · exact owned_live (hi.threads t) ht
  · intro k
    constructor
    · intro hk
      rcases hc.states k hk with hcur | ⟨t, ht⟩
      · refine .inl ⟨hcur, ?_⟩
        rintro ⟨t, ht, -⟩
        exact absurd hcur (Nat.ne_of_gt (hr.live t k ht).2)
      · exact .inr ⟨⟨t, ht, fun u hu => hr.unique u t k hu ht⟩, Nat.ne_of_gt (hr.live t k ht).2⟩
    · rintro (⟨rfl, -⟩ | ⟨⟨t, ht, -⟩, -⟩)
      · exact hi.current
      · exact (hr.live t k ht).1

omit [DecidableEq T] in
theorem frees_live (hi : MemInv K s) (hr : ReplacedInv s) (a : Act T E Q A) :
    (∀ b ∈ freedContents K s a, s.heap.bufs.Live b) ∧
      ∀ k ∈ freedState K s a, s.heap.snaps.Live k := by
  cases a with
  | parse t e =>
    simp only [freedContents, freedState]
    split
    · rename_i c b isBackup hth
      have hmem := hi.threads t
      rw [hth] at hmem
      constructor
      · intro b' hb'
        split at hb'
        · exact Option.some.inj hb' ▸ hmem
        · cases hb'
      · intro k hk
        split at hk
        · split at hk
          · exact Option.some.inj hk ▸ hi.current
          · cases hk
        · cases hk
    · exact ⟨nofun, nofun⟩
  | publish t =>
    simp only [freedContents, freedState]
    refine ⟨fun b hb => ?_, nofun⟩
    split at hb
    · exact hi.contents b hb
    · cases hb
  | flush t => exact ⟨nofun, fun k hk => (hr.live t k hk).1⟩
  | _ => exact ⟨nofun, nofun⟩

theorem freesOnce (hi : MemInv K s) (hr : ReplacedInv s) (a : Act T E Q A) :
    FreesOnce K s cfg a where
  contents := (frees_live hi hr a).1
  states := (frees_live hi hr a).2
  keepsContents _ hs _ := live_iff_not_freed hs
  keepsStates _ hs _ := state_live_iff_not_freed hs

omit [DecidableEq T] in
theorem hands_empty {th : Thread Q A} (h : ¬ th.Loading) :
    th.owned = none ∧ th.replaced = none := by
  cases th with
  | idle => exact ⟨rfl, rfl⟩
  | run c pc => cases pc <;> first | exact ⟨rfl, rfl⟩ | exact absurd ⟨_, rfl, trivial⟩ h

/-- **Loads neither leak nor free twice**, in any interleaving; between loads, the contents and the
parsed state that are published are the only ones. -/
theorem loads_account_for_memory (file : Option (List UInt8)) (tr : List (Act T E Q A)) :
    Along (step K cfg) (fun s a => FreesOnce K s cfg a) (.init K file) tr ∧
      ∀ s, exec (step K cfg) (.init K file) tr = some s → Accounted s ∧
        ((∀ t, ¬ (s.thr t).Loading) → (∀ b, s.heap.bufs.Live b ↔ s.heap.contents = some b) ∧
          ∀ k, s.heap.snaps.Live k ↔ s.heap.current = k) := by
  have hstep : ∀ (s : RemoteSys T P Q A) a s', True →
      MemInv K s ∧ ReplacedInv s ∧ Covered s → step K cfg s a = some s' →
      MemInv K s' ∧ ReplacedInv s' ∧ Covered s' :=
    fun s a s' _ hi hs => ⟨hi.1.step hs, hi.2.1.step hi.1 hs, hi.2.2.step hs⟩
  refine ⟨along_of_inv hstep (fun s a _ hi => freesOnce hi.1 hi.2.1 a) (along_true _ tr)
    ⟨.init file, .init file, .init file⟩, fun s hex => ?_⟩
  obtain ⟨hi, hr, hc⟩ := exec_inv hstep (along_true _ tr) ⟨.init file, .init file, .init file⟩ hex
  refine ⟨hc.accounted hi hr, fun hno => ⟨fun b => ⟨fun hb => ?_, hi.contents b⟩, fun k => ?_⟩⟩
  · refine (hc.contents b hb).resolve_right ?_
    rintro ⟨t, ht⟩
    rw [(hands_empty (hno t)).1] at ht
    cases ht
  · constructor
    · intro hk
      refine (hc.states k hk).resolve_right ?_
      rintro ⟨t, ht⟩
      rw [(hands_empty (hno t)).2] at ht
      cases ht
    · rintro rfl
      exact hi.current

open Rules in
/-- Two loads of rules at once: the one that publishes last frees what the other published. -/
def loadsAtOnce : List (Act (Fin 2) Unit GetArgs CString) :=
  loadSwap 0 [97, 45, 62, 98] ++ loadSwap 1 [97, 45, 62, 99] ++ loadEnd 0 ++ loadEnd 1

open Rules in
theorem loads_account_for_memory_at_once :
    ∃ s, run2 loadsAtOnce = some s ∧ (∀ b, s.heap.bufs.Live b ↔ s.heap.contents = some b) ∧
      ∀ k, s.heap.snaps.Live k ↔ s.heap.current = k := by
  have hrun : (run2 loadsAtOnce).map (fun s => (s.thr 0, s.thr 1)) =
      some (.run ⟨.reload false, false, 0⟩ (.returned (.checked true)),
        .run ⟨.reload false, false, 1⟩ (.returned (.checked true))) := by decide
  obtain ⟨s, hs, hthr⟩ := Option.map_eq_some_iff.mp hrun
  have hno : ∀ t, ¬ (s.thr t).Loading := by
    intro t
    obtain ⟨h0, h1⟩ := Prod.ext_iff.mp hthr
    match t with
    | 0 =>
      simp only at h0
      rw [h0]
      rintro ⟨pc, hpc, hload⟩
      cases hpc
      exact hload
    | 1 =>
      simp only at h1
      rw [h1]
      rintro ⟨pc, hpc, hload⟩
      cases hpc
      exact hload
  exact ⟨s, hs, ((loads_account_for_memory none loadsAtOnce).2 s hs).2 hno⟩

end VmodCfg.Remote
