import VmodCfg.Remote.Backup
import VmodCfg.Remote.Refresh
import VmodCfg.Script.Globals

/-!
# Loading from the backup what was loaded from the location

The contents that were loaded, and written to the backup as a whole, load again from the backup
when the location fails. For files and rules nothing else matters. The code of a script is compiled
again, in whatever engine is free: it does provided that the engines of the object can still
compile it, which the scripts that ran in them decide.
-/

namespace VmodCfg.Remote

universe u

open Machine

section Defs

variable {σ P : Type*}

/-- The contents of the location do not load: there are none, or they are empty, or the callback
refuses them. -/
def Source.LocationFails (src : Source σ P) (w : Inputs) (o : σ) : Prop :=
  ∀ d, w.location.map CString.ofBytes = some d →
    d.bytes = [] ∨ ∃ o' d', src.callback o d false = some (false, o', d')

/-- A call loads the contents `c` from the location, and all of them reach the backup. -/
structure Source.Saves (src : Source σ P) (cfg : RemoteCfg) (w : Inputs) (s : ObjState σ)
    (c : CString) (s' : ObjState σ) : Prop where
  call : ∃ forceLoad forceBackup r,
    checkRemote cfg w src.callback s forceLoad forceBackup = some (r, s') ∧
      Loads cfg w s forceLoad ∧ cfg.Saves forceBackup
  loaded : ∃ p, src.loaded w s = some (c, p)
  written : ∃ n junk, w.write = .wrote n junk ∧ c.bytes.length ≤ n

/-- **The round trip**: after any calls, a call saves `c`; after any more calls that leave the
backup file as it is, a call whose location fails loads what was loaded then. `src` gives the
callback for what the task of a call brings along, and `Can` says in which states of the object, and
from which backup files, the contents can be loaded again. -/
def RoundTrip {ι α : Type*} (src : ι → Source σ P) (cfg : RemoteCfg)
    (step : ObjState σ → α → Option (ObjState σ)) (Init : σ → Prop)
    (Can : CString → σ → Option BackupFile → Prop) : Prop :=
  ∀ (i j : ι) (w w' : Inputs) (s s₀ s₁ s₂ : ObjState σ) (before after : List α) (c : CString)
    (forceLoad forceBackup : Bool),
    Init s.object → exec step s before = some s₀ → (src i).Saves cfg w s₀ c s₁ →
    exec step s₁ after = some s₂ → s₂.backup = s₁.backup →
    Loads cfg w' s₂ forceLoad → (src j).LocationFails w' s₂.object →
    Can c ((src j).afterLocation s₂.object (w'.location.map .ofBytes)) s₂.backup →
    ∃ s₃, checkRemote cfg w' (src j).callback s₂ forceLoad forceBackup = some (true, s₃) ∧
      (src j).parsed s₃.object = (src i).parsed s₁.object ∧ s₃.contents = s₁.contents

/-- `fopen` and `fread` do not fail. -/
def Readable (backup : Option BackupFile) : Prop := ∀ file ∈ backup, file.readable = true

end Defs

/-! ## The two loads -/

section Loads

variable {σ P : Type*} {src : Source σ P} {cfg : RemoteCfg} {w : Inputs} {s s' : ObjState σ}
variable {forceLoad forceBackup r : Bool} {c : CString}

theorem Source.Saves.spec (h : src.Saves cfg w s c s') :
    s'.contents = some c ∧ src.parse s.object c = some (src.parsed s'.object) ∧ c.bytes ≠ [] ∧
      ∃ readable, s'.backup = some ⟨c.bytes, readable⟩ := by
  obtain ⟨forceLoad, forceBackup, r, hcall, hloads, hsaves⟩ := h.call
  obtain ⟨p, hload⟩ := h.loaded
  obtain ⟨n, junk, hw, hn⟩ := h.written
  have hlaw := src.load_law cfg w forceLoad forceBackup s s' r hcall hloads
  have hacc : src.accepts s.object (w.location.map .ofBytes) = some (c, p) := hload
  simp only [hacc] at hlaw
  have hparse : c.bytes ≠ [] ∧ src.parse s.object c = some p := by
    unfold Source.accepts at hacc
    split at hacc
    · cases hacc
    · split at hacc
      · cases hacc
      · rename_i hne
        obtain ⟨p', hp', hcp⟩ := Option.map_eq_some_iff.mp hacc
        cases hcp
        exact ⟨hne, hp'⟩
  refine ⟨hlaw.contents, by rw [hlaw.parsed, hparse.2], hparse.1, ?_⟩
  have hup := checkRemote_update hcall
  generalize hs' : s'.backup = file at hup
  cases hup with
  | wrote _ _ hload' hw' =>
    rw [hload] at hload'
    cases hload'
    rw [hw] at hw'
    cases hw'
    rw [List.take_of_length_le hn]
    exact ⟨_, rfl⟩
  | untouched hno =>
    rcases hno hloads hsaves with hnone | hopen
    · rw [hload] at hnone
      cases hnone
    · rw [hw] at hopen
      cases hopen

theorem tryContents_fails (hfail : src.LocationFails w s.object) :
    tryContents src.callback s false (w.location.map .ofBytes) =
      some (false, { s with object := src.afterLocation s.object (w.location.map .ofBytes) }) := by
  unfold tryContents Source.afterLocation
  cases hloc : w.location.map CString.ofBytes with
  | none => rfl
  | some d =>
    by_cases hd : d.bytes = []
    · simp only [hd, if_true]
    · rcases hfail d hloc with hnil | ⟨o', d', hcb⟩
      · exact absurd hnil hd
      · simp only [hd, if_false, hcb]
        rfl

theorem checkRemote_falls_back (forceBackup : Bool) (hcfg : cfg.backup = true)
    (hloads : Loads cfg w s forceLoad) (hfail : src.LocationFails w s.object)
    (hbak : s.backup = some ⟨c.bytes, true⟩) (hc : c.bytes ≠ []) {o : σ}
    (hcb : src.callback (src.afterLocation s.object (w.location.map .ofBytes)) c true =
      some (true, o, c)) :
    ∃ s', checkRemote cfg w src.callback s forceLoad forceBackup = some (true, s') ∧
      s'.object = o ∧ s'.contents = some c := by
  have hcond : (forceLoad || wins cfg w s forceLoad) = true := by simpa [Loads] using hloads
  unfold checkRemote
  simp only [hcond, if_true]
  unfold loadRemote
  simp only
  rw [tryContents_fails (s := { s with
    reloading := wins cfg w s forceLoad || s.reloading, log := s.log ++ [.read] }) hfail]
  simp only [hcfg, backupHasSize, hbak, Bool.true_and]
  rw [if_pos (by simpa using hc)]
  unfold checkRemoteBackup readBackup tryContents
  simp only [if_true, CString.ofBytes_bytes, hc, if_false, hcb]
  exact ⟨_, rfl, rfl, rfl⟩

theorem callback_returned (hcall : checkRemote cfg w src.callback s forceLoad forceBackup =
      some (r, s')) (hloads : Loads cfg w s forceLoad) {p : P}
    (hload : src.loaded w s = some (c, p)) : ∃ x, src.callback s.object c false = some x := by
  have hcond : (forceLoad || wins cfg w s forceLoad) = true := by simpa [Loads] using hloads
  have hloc : w.location.map CString.ofBytes = some c ∧ c.bytes ≠ [] := by
    unfold Source.loaded Source.accepts at hload
    split at hload
    · cases hload
    · rename_i d hd
      split at hload
      · cases hload
      · rename_i hne
        obtain ⟨p', -, hcp⟩ := Option.map_eq_some_iff.mp hload
        cases hcp
        exact ⟨hd, hne⟩
  cases hcb : src.callback s.object c false with
  | some x => exact ⟨x, rfl⟩
  | none =>
    unfold checkRemote loadRemote tryContents at hcall
    simp [hcond, hloc.1, hloc.2, hcb] at hcall

theorem tryContents_kept {Ok : σ → Prop} {callback : Callback σ}
    (hcb : ∀ o c b r o' c', Ok o → callback o c b = some (r, o', c') → Ok o') {b : Bool}
    {contents : Option CString} (h : tryContents callback s b contents = some (r, s'))
    (hok : Ok s.object) : Ok s'.object := by
  unfold tryContents at h
  split at h
  · cases h
    exact hok
  · split at h
    · cases h
      exact hok
    · split at h
      · cases h
      · rename_i hx
        cases h
        exact hcb _ _ _ _ _ _ hok hx
      · rename_i hx
        cases h
        exact hcb _ _ _ _ _ _ hok hx

theorem checkRemote_kept (Ok : σ → Prop) {callback : Callback σ}
    (hcb : ∀ o c b r o' c', Ok o → callback o c b = some (r, o', c') → Ok o')
    (h : checkRemote cfg w callback s forceLoad forceBackup = some (r, s'))
    (hok : Ok s.object) : Ok s'.object := by
  unfold checkRemote at h
  simp only at h
  split at h
  · split at h
    · cases h
    · rename_i s₁ hload
      cases h
      unfold loadRemote at hload
      simp only at hload
      split at hload
      · cases hload
      · rename_i s₂ h₂
        have hok₂ := tryContents_kept hcb h₂ hok
        obtain ⟨file, hfile⟩ := Source.updateBackup_eq cfg w s₂ forceBackup
        rw [hfile] at hload
        cases hload
        exact hok₂
      · rename_i s₂ h₂
        have hok₂ := tryContents_kept hcb h₂ hok
        split at hload
        · have hok₁ := tryContents_kept hcb hload hok₂
          exact hok₁
        · cases hload
          exact hok₂
  · cases h
    exact hok

end Loads

section Law

variable {σ P ι α : Type*} {src : ι → Source σ P} {cfg : RemoteCfg}
variable {step : ObjState σ → α → Option (ObjState σ)} {Init : σ → Prop}
variable {Can : CString → σ → Option BackupFile → Prop}

/-- The round trip follows from an invariant `Ok` of the object, under which contents that were
parsed once are parsed to the same in every state in which they can be loaded. -/
theorem roundTrip_of (Ok : σ → Prop) (hinit : ∀ o, Init o → Ok o)
    (hstep : ∀ s x s', Ok s.object → step s x = some s' → Ok s'.object)
    (hkeeps : ∀ i o c b r o' c', Ok o → (src i).callback o c b = some (r, o', c') → Ok o')
    (hread : ∀ c o b, Can c o b → Readable b)
    (hagain : ∀ i j o o' c p x b, Ok o → (src i).callback o c false = some x →
      (src i).parse o c = some p → Ok o' → Can c o' b →
      ∃ o'', (src j).callback o' c true = some (true, o'', c) ∧ (src j).parsed o'' = p) :
    RoundTrip src cfg step Init Can := by
  intro i j w w' s s₀ s₁ s₂ before after c forceLoad forceBackup hi hbefore hsaves hafter hbak hloads
    hfail hcan
  obtain ⟨hcontents, hparse, hne, readable, hbak₁⟩ := hsaves.spec
  obtain ⟨force₁, back₁, r₁, hcall, hloads₁, hsaves₁⟩ := hsaves.call
  obtain ⟨p, hload⟩ := hsaves.loaded
  obtain ⟨x, hx⟩ := callback_returned hcall hloads₁ hload
  have hok₀ : Ok s₀.object := exec_inv' (I := fun s => Ok s.object) hstep (hinit _ hi) hbefore
  have hok₁ : Ok s₁.object := checkRemote_kept Ok (hkeeps i) hcall hok₀
  have hok₂ : Ok s₂.object := exec_inv' (I := fun s => Ok s.object) hstep hok₁ hafter
  -- the failing try of the location keeps the invariant too
  have hok₃ : Ok ((src j).afterLocation s₂.object (w'.location.map .ofBytes)) := by
    unfold Source.afterLocation
    cases hloc : w'.location.map CString.ofBytes with
    | none => exact hok₂
    | some d =>
      by_cases hd : d.bytes = []
      · simpa only [hd, if_true] using hok₂
      · rcases hfail d hloc with hnil | ⟨o', d', hcb⟩
        · exact absurd hnil hd
        · simp only [hd, if_false, hcb]
          exact hkeeps j _ _ _ _ _ _ hok₂ hcb
  obtain ⟨o, ho, hpo⟩ := hagain i j s₀.object _ c _ x _ hok₀ hx hparse hok₃ hcan
  have hbak₂ : s₂.backup = some ⟨c.bytes, true⟩ := by
    rw [hbak, hbak₁]
    have hr : readable = true := hread _ _ _ hcan ⟨c.bytes, readable⟩ (by rw [hbak, hbak₁]; rfl)
    rw [hr]
  obtain ⟨s₃, hs₃, hobj, hc₃⟩ :=
    checkRemote_falls_back forceBackup hsaves₁.1 hloads hfail hbak₂ hne ho
  exact ⟨s₃, hs₃, by rw [hobj, hpo], hc₃.trans hcontents.symm⟩

end Law

/-! ## Files and rules -/

section Pure

/-- The parser of a file does not look at the object. -/
theorem file_roundTrip (parse : CString → Parsed File.Variables)
    (dumpVariables : File.Variables → Bool → Option CString → Option CString) (cfg : RemoteCfg) :
    RoundTrip (fun _ : Unit => fileSource parse) cfg (fileStep parse dumpVariables cfg)
      (fun _ => True) fun _ _ => Readable := by
  refine roundTrip_of (fun _ => True) (fun _ _ => trivial) (fun _ _ _ _ _ => trivial)
    (fun _ _ _ _ _ _ _ _ _ => trivial) (fun _ _ _ hb => hb) ?_
  intro i j o o' c p x b _ _ hp _ _
  have hparsed : parse c = .parsed p := by
    have hp' : (parse c).toOption = some p := hp
    cases hpc : parse c with
    | panic => simp [hpc, Parsed.toOption] at hp'
    | failed => simp [hpc, Parsed.toOption] at hp'
    | parsed q =>
      rw [hpc] at hp'
      cases hp'
      rfl
  exact ⟨p, by simp [fileSource, fileCheckCallback, hparsed], rfl⟩

theorem rules_roundTrip {V : Type*} (vreCompile : CString → Option V)
    (reMatch : Option CString → V → Bool) (cfg : RemoteCfg) :
    RoundTrip (fun _ : Unit => rulesSource vreCompile) cfg (rulesStep vreCompile reMatch cfg)
      (fun _ => True) fun _ _ => Readable := by
  refine roundTrip_of (fun _ => True) (fun _ _ => trivial) (fun _ _ _ _ _ => trivial)
    (fun _ _ _ _ _ _ _ _ _ => trivial) (fun _ _ _ hb => hb) ?_
  intro i j o o' c p x b _ _ hp _ _
  have hbuf : CString.ofBytes (Rules.rulesParse vreCompile c.bytes).2 = c := by
    rw [Rules.rulesParse_buffer, CString.ofBytes_bytes]
  have hparsed : (Rules.rulesParse vreCompile c.bytes).1 = .ok p := by
    have hp' : (Rules.rulesParse vreCompile c.bytes).1.toOption = some p := hp
    cases hpc : (Rules.rulesParse vreCompile c.bytes).1 with
    | error e => simp [hpc, Except.toOption] at hp'
    | ok q =>
      rw [hpc] at hp'
      cases hp'
      rfl
  exact ⟨p, by simp [rulesSource, rulesCheckCallback, hparsed, hbuf], rfl⟩

end Pure

end VmodCfg.Remote

/-! ## Scripts -/

namespace VmodCfg.Script

universe u

open Machine

section Engines

variable {D G E V : Type u} {I : Interp G E V} {cfg : ScriptCfg} {exec : Exec D G E V}
variable {P : G → Prop} {p q : Pool (Vm G V)}

/-- All engines of a pool are free, and `P` holds of their globals. -/
structure Engines (cfg : PoolCfg) (P : G → Prop) (p : Pool (Vm G V)) : Prop where
  pool : PoolOk cfg p
  busy : p.busy = []
  globals : ∀ e x, p.heap e = some x → P x.ctx.globals

theorem Engines.init {cfg : PoolCfg} : Engines cfg P (Pool.init : Pool (Vm G V)) :=
  ⟨PoolOk.init, rfl, fun _ _ hx => by cases hx⟩

/-- An engine is there for the only thread that wants one, and it is given back. -/
theorem Engines.execute (hexec : exec.Obeys I) (hI : I.Closed P) (h : Engines cfg.pool P p)
    {code : CString} {name : Option CString} {job : Option (List CString × Result D)} {env : E}
    {gcCollect : Bool} {x : Executed D G E V}
    (hx : apiExecute I cfg exec p code name job env gcCollect = .returned (x, q)) :
    Engines cfg.pool P q := by
  unfold apiExecute at hx
  have hcases : LockCase cfg.pool p (lockEngine cfg.pool p (Vm.init I) (I.memory I.new)) :=
    lockEngine_cases h.pool.nodup _ _
  have hheap : ∀ e y, (lockEngine cfg.pool p (Vm.init I) (I.memory I.new)).2.heap e = some y →
      P y.ctx.globals := by
    intro e y hy
    rcases lockEngine_heap h.pool.nodup hy with hold | ⟨-, rfl⟩
    · exact h.globals e y hold
    · exact hI.new
  rcases hlock : lockEngine cfg.pool p (Vm.init I) (I.memory I.new) with ⟨_ | e, p₁⟩
  · simp only [hlock] at hx
    cases hx
  · rw [hlock] at hcases hheap
    simp only [hlock, executeOn_eq] at hx
    have hbusy : p₁.busy = [e] := by
      have hb : p₁.busy = p.busy ++ [e] := hcases.busy
      rw [hb, h.busy]
      rfl
    cases hrun : runOn I cfg exec p₁ e code (name.getD (cfg.functionName code)) job env
        gcCollect with
    | blocked => simp [hrun, Ends.map] at hx
    | aborted => simp [hrun, Ends.map] at hx
    | returned y =>
      obtain ⟨x₁, p₂⟩ := y
      simp only [hrun, Ends.map] at hx
      cases hx
      obtain ⟨engine, gc, vm, heng, hexe, hgc, rfl⟩ := runOn_spec hrun
      have hok : PoolOk cfg.pool p₁ := hcases.ok h.pool
      have hP : P x.vm.globals := ran_closed hI (hexec hexe) (hheap e engine heng)
      refine ⟨unlockEngine_ok (cycleEngine_ok (countExecution_ok hok _ _ _) e _) ?_ _, ?_, ?_⟩
      · show e ∈ p₁.busy
        rw [hbusy]
        exact List.mem_singleton_self e
      · show p₁.busy.erase e = []
        rw [hbusy]
        simp
      · intro e₁ y hy
        by_cases he : e₁ = e
        · subst he
          simp only [unlockEngine, cycleEngine, Function.update_self, heng, Option.map_some,
            Option.some.injEq] at hy
          rw [← hy]
          exact callCollector_closed hI hgc hP
        · simp only [unlockEngine, cycleEngine, Function.update_of_ne he] at hy
          exact hheap e₁ y hy

theorem Engines.max_pos (h : Engines cfg.pool P p) {code : CString} {name : Option CString}
    {job : Option (List CString × Result D)} {env : E} {x : Executed D G E V × Pool (Vm G V)}
    (hx : apiExecute I cfg exec p code name job env false = .returned x) :
    0 < cfg.pool.maxEngines ∧ cfg.minGcCycles ≠ 0 := by
  have hcases : LockCase cfg.pool p (lockEngine cfg.pool p (Vm.init I) (I.memory I.new)) :=
    lockEngine_cases h.pool.nodup _ _
  have hcount := h.pool.count
  have hbound := h.pool.bound
  unfold apiExecute at hx
  rcases hlock : lockEngine cfg.pool p (Vm.init I) (I.memory I.new) with ⟨_ | e, p₁⟩
  · simp only [hlock] at hx
    cases hx
  · simp only [hlock] at hx
    rw [hlock] at hcases
    have hcap := hcases.capacity_some h.pool rfl
    simp only [Pool.capacity] at hcap
    refine ⟨by omega, fun hgc => ?_⟩
    unfold executeOn at hx
    split at hx
    · cases hx
    · split at hx
      · cases hx
      · rw [callCollector, if_pos ⟨rfl, hgc⟩] at hx
        cases hx

variable (I cfg) in
/-- The code compiles in an engine with globals `g`, which let an execution pass, and the collection
after that returns. -/
def CompilesIn (code : CString) (g : G) (ncycles : UInt32) : Prop :=
  ∃ g', I.prepare g (cfg.functionName code) code = some (true, g') ∧
    Finalizes I cfg ncycles false g'

variable (I cfg) in
/-- The code compiles in every engine of the object, and in a new one. -/
def Compilable (code : CString) (o : ScriptState G V) : Prop :=
  CompilesIn I cfg code I.new 0 ∧
    ∀ e x, o.pool.heap e = some x → CompilesIn I cfg code x.ctx.globals x.ncycles

theorem Engines.compiles (hexec : exec.Checks I) {o : ScriptState G V}
    (h : Engines cfg.pool P o.pool) (hmax : 0 < cfg.pool.maxEngines) (hgc : cfg.minGcCycles ≠ 0)
    {code : CString} (hcan : Compilable I cfg code o) (env : E) :
    ∃ x q, apiExecute I cfg exec o.pool code none none env false = .returned (x, q) ∧
      x.success = true := by
  have hcases : LockCase cfg.pool o.pool
      (lockEngine cfg.pool o.pool (Vm.init I) (I.memory I.new)) :=
    lockEngine_cases h.pool.nodup _ _
  have hcount := h.pool.count
  have hbound := h.pool.bound
  unfold apiExecute
  rcases hlock : lockEngine cfg.pool o.pool (Vm.init I) (I.memory I.new) with ⟨_ | e, p₁⟩
  · -- there is room for an engine, as none is busy
    rw [hlock] at hcases
    have hcap := (hcases.capacity_none h.pool rfl).1
    simp only [Pool.capacity] at hcap
    rw [h.busy, List.length_nil] at hcount
    omega
  · rw [hlock] at hcases
    have hlive : (p₁.heap e).isSome := by
      rw [(hcases.ok h.pool).live, hcases.busy]
      simp
    obtain ⟨engine, heng⟩ := Option.isSome_iff_exists.mp hlive
    have hready : CompilesIn I cfg code engine.ctx.globals engine.ncycles := by
      rcases lockEngine_heap (e := e) (x := engine) h.pool.nodup (by rw [hlock]; exact heng)
        with hold | ⟨-, rfl⟩
      · exact hcan.2 e engine hold
      · exact hcan.1
    obtain ⟨g, hprepare, hfinal⟩ := hready
    obtain ⟨x, hx, hs, hg⟩ := hexec.returns hprepare env
    have hcollect : (callCollector I cfg engine.ncycles false x.vm).isSome := by
      rw [callCollector_isSome_iff, hg]
      exact ⟨.inr hgc, hfinal⟩
    obtain ⟨⟨gc, vm⟩, hc⟩ := Option.isSome_iff_exists.mp hcollect
    unfold executeOn
    simp only [heng, Option.getD_none, hx, hc]
    exact ⟨x, _, rfl, hs⟩

end Engines

section Object

variable {D G E S V : Type u} {I : Interp G (E × S) V} {scfg : ScriptCfg}
variable {exec : Exec D G (E × S) V} {P : G → Prop} {cfg : Remote.RemoteCfg}

theorem scriptCheckCallback_kept (hexec : exec.Obeys I) (hI : I.Closed P) (env : E × S)
    (o : ScriptState G V) (c : CString) (b r : Bool) (o' : ScriptState G V) (c' : CString)
    (h : Engines scfg.pool P o.pool)
    (hcb : scriptCheckCallback I scfg exec env o c b = some (r, o', c')) :
    Engines scfg.pool P o'.pool := by
  unfold scriptCheckCallback at hcb
  split at hcb
  · rename_i x p hx
    have hp := h.execute hexec hI hx
    split at hcb
    · cases hcb
      exact hp
    · cases hcb
      exact hp
  · cases hcb
  · cases hcb

theorem scriptStep_kept (hexec : exec.Obeys I) (hI : I.Closed P)
    (s : Remote.ObjState (ScriptState G V)) (x : Remote.Inputs × Remote.ScriptCall D E S)
    (s' : Remote.ObjState (ScriptState G V)) (h : Engines scfg.pool P s.object.pool)
    (hs : Remote.scriptStep I scfg exec cfg s x = some s') :
    Engines scfg.pool P s'.object.pool := by
  have hcheck : ∀ {w s₁ r forceLoad forceBackup env},
      Remote.scriptCheck I scfg exec cfg w s env forceLoad forceBackup = some (r, s₁) →
      Engines scfg.pool P s₁.object.pool := fun hc =>
    Remote.checkRemote_kept (fun o => Engines scfg.pool P o.pool)
      (scriptCheckCallback_kept hexec hI _) hc h
  obtain ⟨w, c⟩ := x
  cases c with
  | reload env forceBackup =>
    obtain ⟨⟨r, s₁⟩, h₁, rfl⟩ := Option.map_eq_some_iff.mp hs
    exact hcheck h₁
  | inspect st env synth =>
    obtain ⟨⟨a, s₁⟩, h₁, rfl⟩ := Option.map_eq_some_iff.mp hs
    unfold Remote.vmodScriptInspect at h₁
    split at h₁
    · cases h₁
      exact h
    · rename_i heq
      cases heq
      obtain ⟨⟨r, s₂⟩, h₂, heq⟩ := Option.map_eq_some_iff.mp h₁
      cases heq
      have hok := hcheck h₂
      exact hok
    · rename_i heq
      cases heq
  | execute st env gcCollect =>
    unfold Remote.scriptStep Remote.scriptExecute at hs
    simp only at hs
    cases hx : vmodScriptExecute I scfg exec s.object st env gcCollect with
    | blocked => simp [hx, Ends.map] at hs
    | aborted => simp [hx, Ends.map] at hs
    | returned y =>
      obtain ⟨st', object, env'⟩ := y
      simp only [hx, Ends.map] at hs
      cases hs
      have hobj : Engines scfg.pool P object.pool := by
        unfold vmodScriptExecute at hx
        split at hx
        · cases hx
          exact h
        · cases hx
          exact h
        · cases hx
          exact h
        · rename_i args code name env₁ hsel
          cases hapi : apiExecute I scfg exec s.object.pool code name
              (some (args, st.execution.result)) env₁ gcCollect with
          | blocked => simp [hapi, Ends.map] at hx
          | aborted => simp [hapi, Ends.map] at hx
          | returned y =>
            simp only [hapi, Ends.map] at hx
            cases hx
            exact h.execute hexec hI hapi
      split
      · exact hobj
      · exact hobj

variable (scfg) in
/-- All engines are free, and whatever the interpreter keeps holds of their globals. -/
def Quiet (I : Interp G (E × S) V) (o : ScriptState G V) : Prop :=
  ∀ P : G → Prop, I.Closed P → Engines scfg.pool P o.pool

/-- Code that was compiled once is compiled again, where it compiles. -/
theorem Quiet.again (hexec : exec.Checks I) {o o' : ScriptState G V} (ho : Quiet scfg I o)
    (ho' : Quiet scfg I o') {env env' : E × S} {code : CString}
    {p : Option (CString × CString)} {x : Bool × ScriptState G V × CString}
    (hx : scriptCheckCallback I scfg exec env o code false = some x)
    (hp : scriptParse I scfg o code = some p) (hcan : Compilable I scfg code o') :
    ∃ o'', scriptCheckCallback I scfg exec env' o' code true = some (true, o'', code) ∧
      o''.function = p := by
  have htrue : I.Closed fun _ => True :=
    ⟨trivial, fun _ _ _ _ _ _ _ => trivial, fun _ _ _ _ _ _ _ _ _ => trivial,
      fun _ _ _ _ => trivial⟩
  have hmax : 0 < scfg.pool.maxEngines ∧ scfg.minGcCycles ≠ 0 := by
    unfold scriptCheckCallback at hx
    split at hx
    · rename_i y q hy
      exact (ho _ htrue).max_pos hy
    · cases hx
    · cases hx
  have hpeq : p = some (code, scfg.functionName code) := by
    unfold scriptParse at hp
    split at hp
    · cases hp
    · split at hp
      · cases hp
      · split at hp
        · exact (Option.some.inj hp).symm
        · cases hp
  obtain ⟨y, q, hy, hs⟩ := (ho' _ htrue).compiles hexec hmax.1 hmax.2 hcan env'
  refine ⟨⟨q, some (code, scfg.functionName code)⟩, ?_, hpeq.symm⟩
  unfold scriptCheckCallback
  simp only [hy, hs, if_true]

theorem script_roundTrip {Can : CString → ScriptState G V → Prop}
    (hcan : ∀ c o, Quiet scfg I o → Can c o → Compilable I scfg c o)
    (hobeys : exec.Obeys I) (hchecks : exec.Checks I) :
    Remote.RoundTrip (fun env => scriptSource I scfg exec env hchecks) cfg
      (Remote.scriptStep I scfg exec cfg) (fun o => o = ⟨.init, none⟩)
      fun c o backup => Remote.Readable backup ∧ Can c o := by
  refine Remote.roundTrip_of (Quiet scfg I) ?_ ?_ ?_ (fun _ _ _ hc => hc.1) ?_
  · rintro _ rfl P _
    exact Engines.init
  · intro s x s' hs hstep P hP
    exact scriptStep_kept hobeys hP s x s' (hs P hP) hstep
  · intro env o c b r o' c' ho hcb P hP
    exact scriptCheckCallback_kept hobeys hP env o c b r o' c' (ho P hP) hcb
  · intro env env' o o' c p x b ho hx hp ho' hc
    exact ho.again hchecks ho' hx hp (hcan c o' ho' hc.2)

/-- Where no load and no call makes it impossible to compile a code, and no finalizer raises an error,
nothing else matters. -/
theorem lua_roundTrip_undisturbed (I : Interp G (E × S) (LuaValue D)) (scfg : ScriptCfg)
    (cfg : Remote.RemoteCfg) (hgc : ∀ g, (I.gc g).isSome) :
    Remote.RoundTrip (luaSource I scfg) cfg
      (Remote.scriptStep (D := D) (S := S) I scfg (executeLua I) cfg)
      (fun o => o = ⟨.init, none⟩) fun c _ backup => Remote.Readable backup ∧
        I.Closed fun g => I.readies g (scfg.functionName c) c = true := by
  refine script_roundTrip (fun c o ho hc => ?_) (executeLua_ran I) (executeLua_checks I)
  have hcompiles : ∀ g ncycles, I.readies g (scfg.functionName c) c = true →
      CompilesIn I scfg c g ncycles := fun g ncycles hg => by
    obtain ⟨g', hp⟩ := readies_iff.1 hg
    exact ⟨g', hp, fun _ => hgc g'⟩
  exact ⟨hcompiles _ _ hc.new, fun e x hx => hcompiles _ _ ((ho _ hc).globals e x hx)⟩

end Object

end VmodCfg.Script

/-! ## Every kind of object -/

namespace VmodCfg.Remote

universe u

open Machine

/-- **The backup round trip**, for INI files, JSON files, rules, and scripts in Lua and in
JavaScript: provided that the backup file can be read, and for a script, that its engines can
compile the code again. -/
theorem backup_round_trip {D G E S V : Type u} (file : File.FileCfg) (lib : File.JsonLib D)
    (dumpVariables : File.Variables → Bool → Option CString → Option CString)
    (vreCompile : CString → Option V) (reMatch : Option CString → V → Bool)
    (scfg : Script.ScriptCfg) (I : Script.Interp G (E × S) (Script.LuaValue D))
    (J : Script.Interp G (E × S) (Script.JsValue D)) (cfg : RemoteCfg) :
    RoundTrip (fun _ : Unit => iniSource file) cfg
        (fileStep (File.fileParseIni file) dumpVariables cfg) (fun _ => True) (fun _ _ => Readable) ∧
      RoundTrip (fun _ : Unit => jsonSource lib file) cfg
        (fileStep (File.fileParseJson lib file) dumpVariables cfg) (fun _ => True)
        (fun _ _ => Readable) ∧
      RoundTrip (fun _ : Unit => rulesSource vreCompile) cfg (rulesStep vreCompile reMatch cfg)
        (fun _ => True) (fun _ _ => Readable) ∧
      RoundTrip (Script.luaSource I scfg) cfg
        (scriptStep (D := D) (S := S) I scfg (Script.executeLua I) cfg)
        (fun o => o = ⟨.init, none⟩)
        (fun c o backup => Readable backup ∧ Script.Compilable I scfg c o) ∧
      RoundTrip (Script.jsSource J scfg) cfg
        (scriptStep (D := D) (S := S) J scfg (Script.executeJavascript J) cfg)
        (fun o => o = ⟨.init, none⟩)
        (fun c o backup => Readable backup ∧ Script.Compilable J scfg c o) :=
  ⟨file_roundTrip _ dumpVariables cfg, file_roundTrip _ dumpVariables cfg,
    rules_roundTrip vreCompile reMatch cfg,
    Script.script_roundTrip (fun _ _ _ hc => hc) (Script.executeLua_ran I)
      (Script.executeLua_checks I),
    Script.script_roundTrip (fun _ _ _ hc => hc) (Script.executeJavascript_ran J)
      (Script.executeJavascript_checks J)⟩

section Restored

def noJson : File.JsonLib Nat := ⟨fun _ => none, fun _ => true, fun _ => .empty⟩

/-- A JavaScript library in which every chunk defines a function that returns 7. -/
def jsSeven : Script.Interp Bool (Unit × Unit) (Script.JsValue Nat) where
  new := false
  varnish _ := true
  lookup g _ := some g
  load _ _ _ := some (true, true)
  stores _ x _ _ := x.isVarnish
  argv _ _ := true
  call g _ _ env := some (some (.number 7), g, env)
  gc := some
  memory _ := 0
  wsCopy env _ := (true, env)

/-- Rules that were saved are there again after the location was lost. -/
theorem backup_round_trip_rules : ∃ s,
    checkRemote ⟨true, true, 0⟩ ⟨none, 9, 9, false, .openFailed⟩ anyRules.callback (rulesAfter 9)
      true false = some (true, s) ∧
    s.object = (rulesAfter 9).object ∧ s.contents = (rulesAfter 9).contents :=
  (backup_round_trip (D := Nat) (G := Bool) (E := Unit) (S := Unit) ⟨.empty, .empty⟩ noJson
      (fun _ _ _ => none) (fun regexp => some regexp) (fun _ _ => true) sevenCfg luaSeven jsSeven
      ⟨true, true, 0⟩).2.2.1 () () (twoRules 9) ⟨none, 9, 9, false, .openFailed⟩ rulesBefore
    rulesBefore (rulesAfter 9) (rulesAfter 9) [] []
    (.ofBytes [97, 45, 62, 98, 10, 99, 45, 62, 100]) true false trivial rfl
    ⟨⟨true, false, true, by decide, .inl rfl, rfl, .inl rfl⟩, ⟨_, by rfl⟩, ⟨9, [], rfl, by decide⟩⟩
    rfl rfl (.inl rfl) (fun d hd => by cases hd) (fun file hfile => by cases hfile; rfl)

end Restored

section Sealed

/-- A Lua library: the globals are the functions that are defined, and whether the code `s` was
called. It stands for a script that sets a metatable of `_G` whose `__newindex` raises an error: no
chunk can define a function in that engine any more. -/
def luaSealing : Script.Interp (List CString × Bool) (Unit × Unit) (Script.LuaValue Nat) where
  new := ([], false)
  varnish _ := true
  lookup g name := some (g.1.contains name)
  load g name _ := if g.2 then some (false, g) else some (true, (name :: g.1, g.2))
  stores _ x _ _ := x.isVarnish
  argv _ _ := true
  call g name _ env := some (some (.number 7), (g.1, g.2 || name == .ofBytes [115]), env)
  gc := some
  memory _ := 0
  wsCopy env _ := (true, env)

/-- One engine, which is dropped after two executions. -/
def sealingCfg : Script.ScriptCfg := ⟨⟨1, 2⟩, 1, fun code => code⟩

/-- A task whose inline code is `s` executes it. -/
def sealingCall : Inputs × ScriptCall Nat Unit Unit :=
  (⟨none, 1, 1, false, .openFailed⟩,
    .execute (Script.vmodScriptInit ⟨(), .init⟩ (some (.ofBytes [115]))) () false)

/-- Both provisos are needed. The rules are loaded, and saved to a backup file that can only be
written: nothing is loaded from it when the location fails. The code `7` is loaded and saved; the
engine is used up by one execution of `s`, and a second one seals the next engine: then `7` does not
load from the backup, which can be read. -/
theorem sealed_engine_refuses_backup :
    ¬ RoundTrip (fun _ : Unit => anyRules) ⟨true, true, 0⟩
        (rulesStep (fun regexp : CString => some regexp) (fun _ _ => true) ⟨true, true, 0⟩)
        (fun _ => True) (fun _ _ _ => True) ∧
      ¬ RoundTrip (Script.luaSource luaSealing sealingCfg) ⟨true, true, 0⟩
        (scriptStep (D := Nat) (S := Unit) luaSealing sealingCfg (Script.executeLua luaSealing)
          ⟨true, true, 0⟩)
        (fun o => o = ⟨.init, none⟩) fun _ _ => Readable := by
  constructor
  · intro h
    obtain ⟨s, hs, -, -⟩ := h () () (twoRules 9) ⟨none, 9, 9, false, .openFailed⟩
      { rulesBefore with backup := some ⟨[], false⟩ } _ _ _ [] []
      (.ofBytes [97, 45, 62, 98, 10, 99, 45, 62, 100]) true false trivial rfl
      ⟨⟨true, false, true, rfl, .inl rfl, rfl, .inl rfl⟩, ⟨_, by rfl⟩, ⟨9, [], rfl, by decide⟩⟩
      rfl rfl (.inl rfl) (fun d hd => by cases hd) trivial
    have hfails : some false = some true := congrArg (Option.map Prod.fst) hs
    cases hfails
  · intro h
    obtain ⟨s, hs, -, -⟩ := h ((), ()) ((), ()) ⟨some [55], 1, 1, false, .wrote 1 []⟩
      ⟨none, 1, 1, false, .openFailed⟩ ⟨0, false, none, ⟨.init, none⟩, none, []⟩ _ _ _ []
      [sealingCall, sealingCall] (.ofBytes [55]) true false rfl rfl
      ⟨⟨true, false, true, rfl, .inl rfl, rfl, .inl rfl⟩, ⟨_, rfl⟩, ⟨1, [], rfl, by decide⟩⟩ rfl rfl
      (.inl rfl) (fun d hd => by cases hd) (fun file hfile => by cases hfile; rfl)
    have hfails : some false = some true := congrArg (Option.map Prod.fst) hs
    cases hfails

end Sealed

end VmodCfg.Remote
