import VmodCfg.Lib.Accounting
import VmodCfg.Script.LockOrder

/-!
# What `stats()` and `counter()` count

The counters of executions and of workers are updated under the mutex, in
sections of their own, and the numbers of regexps and of variables together with
the trees. Whatever the threads do, no update is lost.
-/

namespace VmodCfg.Shared

open Locking Machine Script

inductive Counter where
  | total
  | unknown
  | failed
  | blocked
  deriving DecidableEq

abbrev Tally := Counter → Nat

def one (c : Counter) : Tally := Pi.single c 1

def counterOf (s : Stats) : Counter → UInt64
  | .total => s.executionsTotal
  | .unknown => s.executionsUnknown
  | .failed => s.executionsFailed
  | .blocked => s.workersBlocked

/-- The counters of the object show the tally, and the numbers of variables and regexps are those of
the trees. -/
structure Counts {R : Type} (o : Object R) (n : Tally) : Prop where
  stats : ∀ c, counterOf o.pool.stats c = UInt64.ofNat (n c)
  vars : o.vars.n = UInt32.ofNat o.vars.list.size
  regexps : o.regexps.n = UInt32.ofNat o.regexps.list.size

section Pieces

variable {R A : Type} {cfg : ScriptCfg} {m : Tally}

/-- The code adds nothing. -/
abbrev Plain (p : Proc R A) : Prop := p.Adds Counts 0

theorem plain_modify {f : Object R × Local → Object R × Local}
    (hf : ∀ x n, Counts x.1 n → Counts (f x).1 n) : Plain (modify f) :=
  adds_modify fun x n h => by
    rw [add_zero]
    exact hf x n h

theorem plain_runIf {c : Prop} [Decidable c] {p : Proc R Unit} (hp : Plain p) :
    Plain (runIf c p) :=
  .ite hp (adds_pure ())

theorem plain_withKey {key : Option CString} {a : A} {p : CString → Proc R A}
    (hp : ∀ key, Plain (p key)) : Plain (withKey key a p) := by
  cases key with
  | none => exact adds_pure a
  | some key => exact .ite (hp key) (adds_pure a)

theorem plain_withVars {b : Bool} {mode : Mode} {p : Proc R A} (hp : Plain p) :
    Plain (withVars b mode p) :=
  .ite hp hp.guarded

/-! ## The commands -/

section Sizes

variable {V : Type} {t : Std.ExtTreeMap CString V CString.strcmp} {key : CString}

theorem ofNat_size_insert (h : t[key]? = none) (v : V) :
    UInt32.ofNat (t.insert key v).size = UInt32.ofNat t.size + 1 := by
  rw [Std.ExtTreeMap.size_insert, Std.ExtTreeMap.contains_eq_isSome_getElem?, h]
  exact UInt32.ofNat_add ..

theorem size_insert_of_mem (h : t[key]?.isSome) (v : V) : (t.insert key v).size = t.size := by
  rw [Std.ExtTreeMap.size_insert, Std.ExtTreeMap.contains_eq_isSome_getElem?, if_pos h]

theorem ofNat_size_erase (h : t[key]?.isSome) :
    UInt32.ofNat (t.erase key).size = UInt32.ofNat t.size - 1 := by
  have hpos : 1 ≤ t.size := by
    rw [Nat.one_le_iff_ne_zero, ne_eq, ← Std.ExtTreeMap.eq_empty_iff_size_eq_zero]
    rintro rfl
    simp at h
  rw [Std.ExtTreeMap.size_erase, Std.ExtTreeMap.contains_eq_isSome_getElem?, if_pos h]
  exact UInt32.ofNat_sub hpos

end Sizes

theorem size_globalSet {vars : GlobalVariables} (h : vars.n = UInt32.ofNat vars.list.size)
    (key value : CString) :
    (globalSet vars key value).n = UInt32.ofNat (globalSet vars key value).list.size := by
  unfold globalSet
  split
  · rename_i hnone
    show vars.n + 1 = UInt32.ofNat (vars.list.insert key value).size
    rw [ofNat_size_insert hnone, h]
  · rename_i old hsome
    show vars.n = UInt32.ofNat (vars.list.insert key value).size
    rw [size_insert_of_mem (Option.isSome_of_eq_some hsome), h]

theorem size_globalUnset {vars : GlobalVariables} (h : vars.n = UInt32.ofNat vars.list.size)
    (key : CString) : (globalUnset vars key).n = UInt32.ofNat (globalUnset vars key).list.size := by
  unfold globalUnset
  split
  · exact h
  · rename_i old hsome
    show vars.n - 1 = UInt32.ofNat (vars.list.erase key).size
    rw [ofNat_size_erase (Option.isSome_of_eq_some hsome), h]

theorem size_cacheRegexp {regexps : Regexps R} (h : regexps.n = UInt32.ofNat regexps.list.size)
    (text : CString) (re : R) :
    (cacheRegexp regexps text re).2.n = UInt32.ofNat (cacheRegexp regexps text re).2.list.size := by
  unfold cacheRegexp
  split
  · exact h
  · rename_i hnone
    show regexps.n + 1 = UInt32.ofNat (regexps.list.insert text re).size
    rw [ofNat_size_insert hnone, h]

theorem plain_sharedGet (key scope : Option CString) (room : Bool) :
    Plain (sharedGet (R := R) key scope room) := by
  refine plain_withKey fun key => adds_peek.then fun isLocked => ?_
  refine .ite (Prog.Adds.then (.ite adds_peek (adds_pure none)) fun found => ?_) (adds_pure none)
  cases found with
  | some value => exact adds_pure _
  | none => exact .ite (plain_withVars adds_peek) (adds_pure none)

theorem plain_sharedSet (key value scope : Option CString) (room : Room) :
    Plain (sharedSet (R := R) key value scope room) := by
  refine plain_withKey fun key => ?_
  cases value with
  | none => exact adds_pure ()
  | some value =>
    refine adds_peek.then fun isLocked => .ite (plain_modify fun x n h => h) (plain_runIf ?_)
    exact plain_withVars (plain_modify fun x n h => ⟨h.stats, size_globalSet h.vars key value, h.regexps⟩)

theorem plain_sharedUnset (key scope : Option CString) :
    Plain (sharedUnset (R := R) key scope) := by
  refine plain_withKey fun key => adds_peek.then fun isLocked => ?_
  refine Prog.Adds.then (plain_runIf (plain_modify fun x n h => h)) fun _ => plain_runIf ?_
  exact plain_withVars (plain_modify fun x n h => ⟨h.stats, size_globalUnset h.vars key, h.regexps⟩)

theorem plain_initRegexp (X : Vre R) (regexp : CString) (cache : Bool) :
    Plain (initRegexp X regexp cache) := by
  refine Prog.Adds.then (.ite adds_peek.guarded (adds_pure none)) fun found => ?_
  cases found with
  | some re => exact adds_pure _
  | none =>
    cases X.compile regexp with
    | none => exact adds_pure none
    | some re =>
      refine .ite (Prog.Adds.guarded (adds_peek.then fun cached => ?_)) (adds_pure _)
      refine Prog.Adds.then (plain_modify fun x n h => ?_) fun _ => adds_pure _
      exact ⟨h.stats, h.vars, size_cacheRegexp h.regexps regexp re⟩

theorem plain_regmatch (X : Vre R) (string regexp : Option CString) (cache room : Bool) :
    Plain (regmatch X string regexp cache room) := by
  unfold regmatch
  split
  · exact (plain_initRegexp X _ cache).then fun re => adds_pure _
  · exact adds_pure _

theorem plain_regsub (X : Vre R) (string regexp sub : Option CString) (cache all room : Bool) :
    Plain (regsub X string regexp sub cache all room) := by
  unfold regsub
  split
  · exact (plain_initRegexp X _ cache).then fun re => adds_pure _
  · exact adds_pure _

theorem Counts.putIsLocked {o : Object R} {l : Local} {n : Tally} (h : Counts o n) (b : Bool) :
    Counts (putIsLocked b (o, l)).1 n := by
  unfold Shared.putIsLocked
  split
  · exact ⟨h.stats, h.vars, h.regexps⟩
  · exact h

theorem plain_enterEval : Plain (enterEval (R := R)) := by
  refine adds_peek.then fun isLocked => Prog.Adds.then (plain_runIf ?_) fun _ => adds_pure isLocked
  refine ⟨0, 0, (add_zero 0).symm, fun x => ⟨fun n h => ?_, rfl⟩⟩
  rw [add_zero]
  exact h.putIsLocked true

theorem plain_leaveEval (isLocked : Bool) : Plain (leaveEval (R := R) isLocked) := by
  refine plain_runIf ⟨0, 0, (add_zero 0).symm, fun x => ⟨fun n h => ?_, rfl⟩⟩
  rw [add_zero]
  exact h.putIsLocked false

/-! ## The sections of an execution -/

theorem Counts.pool {o : Object R} {n : Tally} (h : Counts o n) {p : Pool Context}
    (hp : ∀ c, counterOf p.stats c = counterOf o.pool.stats c) : Counts { o with pool := p } n :=
  ⟨fun c => (hp c).trans (h.stats c), h.vars, h.regexps⟩

/-- What the search for a free engine counts are engines. -/
theorem counterOf_extractFree (cfg : PoolCfg) (free : List EngineId) (p : Pool Context)
    (c : Counter) : counterOf (extractFree cfg free p).2.stats c = counterOf p.stats c := by
  induction free generalizing p with
  | nil => rfl
  | cons e rest ih =>
    unfold extractFree isValidEngine
    split
    · rename_i q heq
      rw [ih]
      split at heq
      · cases heq
        cases c <;> rfl
      · cases heq
    · rename_i q heq
      split at heq
      · cases heq
      · cases heq
        rfl

theorem counterOf_lockEngine (cfg : PoolCfg) (p : Pool Context) (ctx : Context) (memory : Int)
    (c : Counter) : counterOf (Script.lockEngine cfg p ctx memory).2.stats c =
      counterOf p.stats c := by
  have h := counterOf_extractFree cfg p.free p c
  unfold Script.lockEngine
  split
  · rename_i e q heq
    rwa [heq] at h
  · rename_i q heq
    rw [heq] at h
    split
    · exact h
    · cases c <;> exact h

theorem adds_updateStats {f : Stats → Stats}
    (hf : ∀ s c, counterOf (f s) c = counterOf s c + UInt64.ofNat (m c)) :
    (updateStats (R := R) f).Adds Counts m := by
  refine Prog.Adds.guarded (adds_modify fun x n h => ⟨fun c => ?_, h.vars, h.regexps⟩)
  rw [hf, h.stats, Pi.add_apply, UInt64.ofNat_add]

theorem adds_lockEngineSection (waited : Bool) (memory : Int) :
    (lockEngineSection (R := R) cfg waited memory).Adds Counts
      (if waited then one .blocked else 0) := by
  have h : (underMutex (modify fun x : Object R × Local =>
      let r := Script.lockEngine cfg.pool (if waited then countBlocked x.1.pool else x.1.pool)
        ⟨false⟩ memory
      ({ x.1 with pool := r.2 }, { x.2 with engine := r.1 }))).Adds Counts
      (if waited then one .blocked else 0) := by
    refine Prog.Adds.guarded (adds_modify fun x n h => ⟨fun c => ?_, h.vars, h.regexps⟩)
    rw [counterOf_lockEngine]
    cases waited with
    | false =>
      rw [Pi.add_apply]
      exact h.stats c
    | true =>
      rw [Pi.add_apply, UInt64.ofNat_add, ← h.stats]
      cases c <;> simp [counterOf, countBlocked, one]
  have hengine : Plain (peek fun (_ : Object R) l => l.engine) := adds_peek
  have hall := h.bind fun _ => hengine
  rwa [add_zero] at hall

theorem plain_underMutex_modify {f : Object R × Local → Object R × Local}
    (hf : ∀ x n, Counts x.1 n → Counts (f x).1 n) : Plain (underMutex (modify f)) :=
  (plain_modify hf).guarded

theorem plain_unlockEngineSection (memory : Int) :
    Plain (unlockEngineSection (R := R) memory) := by
  refine plain_underMutex_modify fun x n h => ?_
  split
  · exact h.pool fun c => rfl
  · exact h

theorem plain_cycleSection (gcCollect : Bool) : Plain (cycleSection (R := R) cfg gcCollect) := by
  refine Prog.Adds.then (plain_modify fun x n h => ?_) fun _ => adds_peek
  split
  · exact h.pool fun c => rfl
  · exact h

/-- The end of an execution counts it, and counts it again when it failed. -/
theorem adds_endExecution (success gcCollect : Bool) (memory : Int) :
    (endExecution (R := R) cfg success gcCollect memory).Adds Counts
      (one .total + if success then 0 else one .failed) := by
  have hend : (updateStats (R := R) fun s => { s with
      executionsTotal := s.executionsTotal + 1
      executionsFailed := if success then s.executionsFailed else s.executionsFailed + 1 }).Adds
      Counts (one .total + if success then 0 else one .failed) := by
    refine adds_updateStats fun s c => ?_
    cases c <;> cases success <;> simp [counterOf, one]
  have hgc : Plain (updateStats (R := R) fun s => { s with executionsGc := s.executionsGc + 1 }) := by
    refine adds_updateStats fun s c => ?_
    cases c <;> simp [counterOf]
  have hcycle : Plain (cycleSection (R := R) cfg gcCollect) := plain_cycleSection gcCollect
  have hall := hend.bind fun _ => hcycle.then fun gc =>
    (plain_runIf (c := gc = true) hgc).then fun _ => plain_unlockEngineSection (R := R) memory
  rwa [add_zero] at hall

end Pieces

/-! ## Control points -/

section Points

variable {K D V R : Type} {cfg : ScriptCfg} {X : Vre R} {L : Lang K D V} {j : Job}

def worth : Ctl K V → Event → Tally
  | .sleeping _, .wake _ => one .blocked
  | .ready _, .lookup known => if known then 0 else one .unknown
  | .finished _ success, .finish _ => one .total + if success then 0 else one .failed
  | _, _ => 0

theorem adds_lockEngine (waited : Bool) (memory : Int) :
    (lockEngine (R := R) (K := K) (V := V) cfg j waited memory).Adds Counts
      (if waited then one .blocked else 0) := by
  have hsection : (lockEngineSection (R := R) cfg waited memory).Adds Counts
      (if waited then one .blocked else 0) := adds_lockEngineSection waited memory
  rw [← add_zero (if waited then one .blocked else 0)]
  refine hsection.bind fun engine => ?_
  cases engine <;> exact adds_pure _

theorem plain_vmodScriptExecute (code : Option CString) (gcCollect room : Bool) (memory : Int) :
    Plain (vmodScriptExecute (R := R) (K := K) (V := V) cfg code gcCollect room memory) := by
  cases code with
  | some code => exact adds_lockEngine false memory
  | none =>
    refine adds_peek.guarded.then fun function => ?_
    cases function with
    | none => exact adds_pure _
    | some f => exact .ite (adds_lockEngine false memory) (adds_pure _)

theorem plain_leaveFrame (isLocked : Bool) (a : Ctl K V) :
    Plain (do leaveEval isLocked; pure a : Proc R (Ctl K V)) :=
  (plain_leaveEval isLocked).then fun _ => adds_pure a

theorem plain_return (v : V) (stack : List (Frame K V)) :
    Plain (return_ (R := R) L j v stack) := by
  cases stack with
  | nil => exact adds_pure _
  | cons frame stack =>
    cases frame with
    | eval isLocked next => exact plain_leaveFrame isLocked _
    | protect next => exact adds_pure _
    | accessor rest => exact adds_pure _

theorem plain_raise {e : V} {stack : List (Frame K V)} {p : Proc R (Ctl K V)}
    (hp : raise j e stack = some p) : Plain p := by
  cases stack with
  | nil =>
    cases hp
    exact adds_pure _
  | cons frame stack =>
    cases frame with
    | eval isLocked next =>
      cases hp
      exact plain_leaveFrame isLocked _
    | protect next =>
      cases hp
      exact adds_pure _
    | accessor rest => cases hp

theorem plain_interpret {c : Code K V} {stack : List (Frame K V)} {room : Room}
    {p : Proc R (Ctl K V)} (hp : interpret X L j stack room c = some p) : Plain p := by
  cases c with
  | jump k =>
    cases hp
    exact adds_pure _
  | ret v =>
    cases hp
    exact plain_return v stack
  | raise e => exact plain_raise hp
  | get key scope next =>
    cases hp
    exact (plain_sharedGet key scope room.value).then fun _ => adds_pure _
  | set key value scope next =>
    cases hp
    exact (plain_sharedSet key value scope room).then fun _ => adds_pure _
  | unset key scope next =>
    cases hp
    exact (plain_sharedUnset key scope).then fun _ => adds_pure _
  | regmatch string regexp cache next =>
    cases hp
    exact (plain_regmatch X string regexp cache room.value).then fun _ => adds_pure _
  | regsub string regexp sub cache all next =>
    cases hp
    exact (plain_regsub X string regexp sub cache all room.value).then fun _ => adds_pure _
  | eval body next =>
    cases hp
    exact plain_enterEval.then fun _ => adds_pure _
  | protect body next =>
    cases hp
    exact adds_pure _

theorem plain_vmodScriptCounter (name : CString) : Plain (vmodScriptCounter (R := R) name) := by
  unfold vmodScriptCounter
  repeat' first
    | exact adds_pure _
    | exact adds_peek
    | exact adds_peek.guarded
    | refine .ite ?_ ?_

theorem adds_lookup (known : Bool) :
    (lookup (R := R) L j known).Adds Counts (if known then 0 else one .unknown) := by
  cases known with
  | true => exact adds_pure _
  | false =>
    have hunknown : (updateStats (R := R) fun s => { s with
        executionsUnknown := s.executionsUnknown + 1 }).Adds Counts (one .unknown) := by
      refine adds_updateStats fun s c => ?_
      cases c <;> simp [counterOf, one]
    have hcall : Plain (pure (call L j) : Proc R (Ctl K V)) := adds_pure _
    have hall := hunknown.bind fun _ => hcall
    rwa [add_zero] at hall

theorem adds_finish (success : Bool) (memory : Int) :
    (finish (R := R) (K := K) (V := V) cfg j success memory).Adds Counts
      (one .total + if success then 0 else one .failed) := by
  have hpublish : Plain (publishFunction (R := R) j.code j.name) :=
    plain_underMutex_modify fun x n h => ⟨h.stats, h.vars, h.regexps⟩
  have hend : (endExecution (R := R) cfg success j.gcCollect memory).Adds Counts
      (one .total + if success then 0 else one .failed) :=
    adds_endExecution success j.gcCollect memory
  have hidle : Plain (pure .idle : Proc R (Ctl K V)) := adds_pure _
  have hall := hend.bind fun _ =>
    (plain_runIf (c := success ∧ j.full = false) hpublish).then fun _ => hidle
  rwa [add_zero] at hall

/-- **Every piece of code between two control points** adds what it is worth. -/
theorem adds_resume {a : Ctl K V} {ev : Event} {p : Proc R (Ctl K V)}
    (hp : resume cfg X L a ev = some p) : p.Adds Counts (worth a ev) := by
  unfold resume at hp
  split at hp
  · -- `newTask`
    cases hp
    exact (plain_modify fun x n h => h).then fun _ => adds_pure _
  · -- `stats`
    cases hp
    exact adds_peek.guarded.guarded.guarded.then fun _ => adds_pure _
  · -- `counter`
    cases hp
    exact (plain_vmodScriptCounter _).then fun _ => adds_pure _
  · -- `execute`
    cases hp
    exact plain_vmodScriptExecute ..
  · -- `check`
    cases hp
    exact adds_lockEngine false _
  · -- `wake`
    cases hp
    exact adds_lockEngine true _
  · -- `lookup`
    cases hp
    exact adds_lookup _
  · -- `run`
    exact plain_interpret hp
  · -- `read`
    cases hp
    exact adds_pure _
  · -- `store`
    cases hp
    exact adds_pure _
  · -- `finish`
    cases hp
    exact adds_finish ..
  · cases hp

end Points

/-! ## Runs -/

section Runs

variable {T K D V R : Type} [Fintype T]

theorem balanced_init : Locking.Balanced Counts (System.init : System T K V R) 0 := by
  refine ⟨0, 0, ⟨fun c => ?_, rfl, rfl⟩, fun t => rfl, by simp⟩
  cases c <;> rfl

variable [DecidableEq T] (cfg : ScriptCfg) (X : Vre R) (L : Lang K D V) {s : System T K V R}

def filling : Code Empty Unit :=
  .set (some scopeAll) (some scopeAll) (some scopeGlobal)
    (.regmatch (some scopeAll) (some scopeAll) true fun _ => .ret ())

def fillingLang : Lang Empty Unit Unit where
  numbers := nestedLang.numbers
  parse _ := some filling
  defs := Empty.elim
  value _ := ()
  error _ := ()
  typeName _ := .empty
  accessors _ := []

def fillingVre : Vre Unit := ⟨fun _ => some (), fun _ _ => true, fun _ _ _ _ => none⟩

/-- A thread compiles the script and executes it, from the start to the end. -/
def fillingTrace : List (Locking.Act Unit Event) :=
  let run := .input () (.run ⟨true, true, true⟩)
  .input () (.execute (some .empty) false true 0) :: List.replicate 4 (.op ()) ++
    .input () (.lookup false) :: List.replicate 3 (.op ()) ++
    run :: List.replicate 4 (.op ()) ++ run :: List.replicate 7 (.op ()) ++
    run :: .input () (.store true) :: .input () (.finish 0) :: List.replicate 11 (.op ())

theorem fillingTrace_runs :
    (exec (Locking.step (resume nestedCfg fillingVre fillingLang)) System.init
      fillingTrace).isSome := by
  decide +kernel

def fillingState : System Unit Empty Unit Unit :=
  (exec (Locking.step (resume nestedCfg fillingVre fillingLang)) System.init fillingTrace).get
    fillingTrace_runs

/-- **The trees are as large as their counters say**, in every state that is reached. -/
theorem sizes_exact {tr : List (Locking.Act T Event)}
    (hex : exec (Locking.step (resume cfg X L)) System.init tr = some s) :
    s.shared.vars.n = UInt32.ofNat s.shared.vars.list.size ∧
      s.shared.regexps.n = UInt32.ofNat s.shared.regexps.list.size := by
  obtain ⟨n, owed, hn, -⟩ := balanced_init.reach adds_resume hex
  exact ⟨hn.vars, hn.regexps⟩

theorem sizes_exact_filling :
    (fillingState.shared.vars.n = UInt32.ofNat fillingState.shared.vars.list.size ∧
      fillingState.shared.regexps.n = UInt32.ofNat fillingState.shared.regexps.list.size) ∧
    fillingState.shared.vars.n = 1 ∧ fillingState.shared.regexps.n = 1 :=
  ⟨sizes_exact nestedCfg fillingVre fillingLang (Option.some_get fillingTrace_runs).symm,
    by decide +kernel, by decide +kernel⟩

/-- **No count is lost**: when no thread is in the code of the module, every counter is the number
of executions that ended, that had to compile, that failed, or of times that a worker woke up. -/
theorem counters_exact {tr : List (Locking.Act T Event)}
    (hex : exec (Locking.step (resume cfg X L)) System.init tr = some s)
    (hdone : ∀ t, ∃ a, s.prog t = .done a) (c : Counter) :
    counterOf s.shared.pool.stats c = UInt64.ofNat
      ((trace (Locking.step (resume cfg X L)) (Sys.worth worth) System.init tr).sum c) := by
  have h := (balanced_init.reach adds_resume hex).counts hdone
  rw [zero_add] at h
  exact h.stats c

theorem counters_exact_filling : counterOf fillingState.shared.pool.stats .unknown = 1 :=
  (counters_exact nestedCfg fillingVre fillingLang (Option.some_get fillingTrace_runs).symm
    (fun _ => ⟨.idle, rfl⟩) .unknown).trans (by decide +kernel)

end Runs

end VmodCfg.Shared
