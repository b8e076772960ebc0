import Mathlib.Algebra.Ring.Int.Defs
import VmodCfg.Remote.Threads
import VmodCfg.Script.Globals
import VmodCfg.Script.PoolThreads

/-!
# `vmod_script__init`

The arguments are 64-bit and signed, the fields they are stored in are
`unsigned`. The checks are made before the conversion and bound the arguments
from below only; the uses (a modulus, the capacity of the pool, two tests for
expiry) read the fields.
-/

namespace VmodCfg.Script

open Machine Remote

/-- A `VCL_INT` stored in an `unsigned`. -/
def toUnsigned (x : Int64) : UInt32 := x.toUInt64.toUInt32

theorem toNat_toUnsigned (x : Int64) : ((toUnsigned x).toNat : Int) = x.toInt % 2 ^ 32 := by
  have hbit : x.toUInt64.toNat = x.toBitVec.toNat := rfl
  have hint : x.toInt = x.toBitVec.toInt := rfl
  have hnat : (toUnsigned x).toNat = x.toBitVec.toNat % 2 ^ 32 := by
    rw [toUnsigned, UInt64.toNat_toUInt32, hbit]
  rw [hnat, hint, BitVec.toInt_eq_toNat_cond]
  split <;> omega

theorem toUnsigned_eq_iff {x : Int64} (h : 0 ≤ x) :
    ((toUnsigned x).toNat : Int) = x.toInt ↔ x.toInt < 2 ^ 32 := by
  have hx : (0 : Int) ≤ x.toInt := by simpa [Int64.le_iff_toInt_le] using h
  rw [toNat_toUnsigned]
  omega

theorem toUnsigned_ne_zero_iff (x : Int64) : toUnsigned x ≠ 0 ↔ ¬ (2 ^ 32 : Int) ∣ x.toInt := by
  have hzero : toUnsigned x = 0 ↔ (toUnsigned x).toNat = 0 := UInt32.toNat_inj.symm
  have hnat := toNat_toUnsigned x
  rw [ne_eq, hzero]
  omega

/-! ## The arguments, and what becomes of them -/

inductive EngineType where
  | lua
  | javascript
  deriving DecidableEq, Repr

/-- The arguments of `vmod_script__init` that it checks, converts or branches on. -/
structure InitArgs where
  location : Option CString
  backup : Option CString
  automatedBackups : Bool
  period : Int64
  ignoreLoadFailures : Bool
  type : EngineType
  maxEngines : Int64
  maxCycles : Int64
  minGcCycles : Int64
  luaGcStepSize : Int64
  curlConnectionTimeout : Int64
  curlTransferTimeout : Int64
  deriving DecidableEq

inductive EngineCfg where
  | lua (gcStepSize : UInt32)
  | javascript
  deriving DecidableEq, Repr

structure RemoteObject where
  location : CString
  cfg : RemoteCfg
  connectionTimeout : UInt32
  transferTimeout : UInt32

structure ScriptObject where
  remote : Option RemoteObject
  type : EngineType
  cfg : ScriptCfg
  engineCfg : EngineCfg

def isGiven (s : Option CString) : Bool := s.any fun s => s.bytes != []

/-- `new_remote`: its parameters are `unsigned` already. -/
def newRemote (location : CString) (backup : Option CString) (automatedBackups : Bool)
    (period connectionTimeout transferTimeout : UInt32) : RemoteObject where
  location := location
  cfg := ⟨isGiven backup, automatedBackups, period⟩
  connectionTimeout := connectionTimeout
  transferTimeout := transferTimeout

def InitArgs.Admitted (a : InitArgs) : Prop :=
  0 ≤ a.period ∧ 0 < a.maxEngines ∧ 0 ≤ a.maxCycles ∧ 0 < a.minGcCycles ∧
    0 < a.luaGcStepSize ∧ 0 ≤ a.curlConnectionTimeout ∧ 0 ≤ a.curlTransferTimeout

instance (a : InitArgs) : Decidable a.Admitted := inferInstanceAs (Decidable (_ ∧ _))

section Defs

variable (functionName : CString → CString) (check : ScriptObject → Bool) (a : InitArgs)

/-- `instance`, before the first load. -/
def newScript : ScriptObject where
  remote :=
    if isGiven a.location then
      a.location.map fun location =>
        newRemote location a.backup a.automatedBackups (toUnsigned a.period)
          (toUnsigned a.curlConnectionTimeout) (toUnsigned a.curlTransferTimeout)
    else none
  type := a.type
  cfg :=
    { pool := ⟨(toUnsigned a.maxEngines).toNat, toUnsigned a.maxCycles⟩
      minGcCycles := toUnsigned a.minGcCycles
      functionName := functionName }
  engineCfg :=
    match a.type with
    | .lua => .lua (toUnsigned a.luaGcStepSize)
    | .javascript => .javascript

/-- `vmod_script__init`. `check` is the outcome of `check_remote` with `force_load`; without a
remote `script_check` succeeds. -/
def ScriptObject.vmodScriptInit : Option ScriptObject :=
  if a.Admitted then
    let script := newScript functionName a
    if (script.remote.isNone || check script) || a.ignoreLoadFailures then some script else none
  else none

end Defs

/-- The fields hold the values of the arguments. -/
structure ScriptObject.Stores (s : ScriptObject) (a : InitArgs) : Prop where
  maxEngines : (s.cfg.pool.maxEngines : Int) = a.maxEngines.toInt
  maxCycles : (s.cfg.pool.maxCycles.toNat : Int) = a.maxCycles.toInt
  minGcCycles : (s.cfg.minGcCycles.toNat : Int) = a.minGcCycles.toInt
  period : ∀ r ∈ s.remote, (r.cfg.period.toNat : Int) = a.period.toInt

/-- An execution does not trap: if the interpreter returns, from the call and from collections,
`execute_lua` and `execute_javascript` do. -/
def NoTrap (cfg : ScriptCfg) : Prop :=
  ∀ {D G E V : Type} (I : Interp G E V) (exec : Exec D G E V) (p : Pool (Vm G V)) (e : EngineId)
    (engine : Engine (Vm G V)) (code name : CString) (job : Option (List CString × Result D))
    (env : E) (gcCollect : Bool), p.heap e = some engine →
    (exec engine.ctx code name job env).isSome → (∀ g, (I.gc g).isSome) →
    ∃ x, executeOn I cfg exec p e code name job env gcCollect = .returned x

/-- Whenever there is no engine, a thread that asks for one gets a new one. -/
def CreatesEngine (cfg : PoolCfg) : Prop :=
  ∀ {T C : Type} [DecidableEq T] [Fintype T] (tr : List (Act T C)) (s : PoolSys T C) (ctx : C)
    (memory : Int), exec (step cfg) .init tr = some s → s.pool.n = 0 →
    ∃ e q, lockEngine cfg s.pool ctx memory = (some e, q) ∧ q.n = 1

/-- What the checks are there for. -/
structure ScriptObject.RunsSafely (s : ScriptObject) (a : InitArgs) : Prop where
  noTrap : NoTrap s.cfg
  createsEngine : CreatesEngine s.cfg.pool
  maxCycles : 0 < a.maxCycles → 0 < s.cfg.pool.maxCycles
  period : ∀ r ∈ s.remote, 0 < a.period → 0 < r.cfg.period

/-- What is stored fits an `unsigned`; the period is stored only if there is a remote. -/
structure InitArgs.Fits (a : InitArgs) : Prop where
  maxEngines : a.maxEngines.toInt < 2 ^ 32
  maxCycles : a.maxCycles.toInt < 2 ^ 32
  minGcCycles : a.minGcCycles.toInt < 2 ^ 32
  period : isGiven a.location = true → a.period.toInt < 2 ^ 32

/-! ## What the fields are needed for -/

theorem noTrap_iff (cfg : ScriptCfg) : NoTrap cfg ↔ cfg.minGcCycles ≠ 0 := by
  constructor
  · -- an interpreter that does nothing, in an engine of its own
    intro h hzero
    let I : Interp Unit Unit Unit :=
      { new := (), varnish _ := true, lookup _ _ := some true, load _ _ _ := some (true, ())
        stores _ _ _ _ := true, argv _ _ := true, call _ _ _ _ := some (none, (), ())
        gc := some, memory _ := 0, wsCopy _ _ := (true, ()) }
    let run : Exec Unit Unit Unit Unit := fun vm _ _ _ _ => some ⟨true, vm, none, (), false⟩
    let engine : Engine (Vm Unit Unit) := ⟨Vm.init I, 0, 0⟩
    let p : Pool (Vm Unit Unit) := { (Pool.init : Pool (Vm Unit Unit)) with
      heap := fun _ => some engine }
    obtain ⟨x, hx⟩ := h I run p 0 engine .empty .empty none () false rfl rfl
      fun _ => rfl
    have htrap : callCollector I cfg engine.ncycles false engine.ctx = none :=
      if_pos ⟨rfl, hzero⟩
    have habort : executeOn I cfg run p 0 .empty .empty none () false = .aborted := by
      simp only [executeOn, p, run, htrap]
    rw [habort] at hx
    cases hx
  · intro h D G E V I run p e engine code name job env gcCollect he hrun hgc
    obtain ⟨x, hx⟩ := Option.isSome_iff_exists.mp hrun
    have hreturns : (callCollector I cfg engine.ncycles gcCollect x.vm).isSome :=
      callCollector_isSome_iff.2 ⟨.inr h, fun _ => hgc _⟩
    obtain ⟨⟨gc, vm⟩, hc⟩ := Option.isSome_iff_exists.mp hreturns
    unfold executeOn
    simp only [he, hx, hc]
    exact ⟨_, rfl⟩

theorem createsEngine_iff (cfg : PoolCfg) : CreatesEngine cfg ↔ 0 < cfg.maxEngines := by
  constructor
  · intro h
    obtain ⟨e, q, hlock, -⟩ := @h (Fin 1) Unit _ _ [] .init () 0 rfl rfl
    by_contra hzero
    have hle : cfg.maxEngines ≤ 0 := by omega
    have hwait : lockEngine cfg (.init : Pool Unit) () 0 = (none, .init) := if_pos hle
    exact absurd (hwait.symm.trans hlock) (by simp)
  · intro h T C _ _ tr s ctx memory hs hn
    have hcount := (Inv.reach hs).pool.count
    have hfree : s.pool.free = [] := by
      apply List.eq_nil_of_length_eq_zero
      omega
    have hroom : ¬ cfg.maxEngines ≤ s.pool.n := by omega
    refine ⟨s.pool.fresh, (createEngine s.pool ctx memory).2, ?_, ?_⟩
    · unfold lockEngine
      rw [hfree]
      exact if_neg hroom
    · show s.pool.n + 1 = 1
      omega

/-! ## What is created -/

section Init

variable {functionName : CString → CString} {check : ScriptObject → Bool} {a : InitArgs}
  {s : ScriptObject}

theorem ScriptObject.vmodScriptInit_eq_some (h : ScriptObject.vmodScriptInit functionName check a = some s) :
    a.Admitted ∧ s = newScript functionName a := by
  unfold ScriptObject.vmodScriptInit at h
  split at h
  · rename_i hadmitted
    simp only at h
    split at h
    · exact ⟨hadmitted, (Option.some.inj h).symm⟩
    · cases h
  · cases h

theorem newScript_remote {P : UInt32 → Prop} :
    (∀ r ∈ (newScript functionName a).remote, P r.cfg.period) ↔
      (isGiven a.location = true → P (toUnsigned a.period)) := by
  unfold newScript
  cases hlocation : a.location with
  | none => simp [isGiven]
  | some location =>
    by_cases hgiven : isGiven (some location) = true
    · simp [hgiven, newRemote]
    · simp [hgiven]

theorem newScript_stores_iff (h : a.Admitted) : (newScript functionName a).Stores a ↔ a.Fits := by
  obtain ⟨hperiod, hengines, hcycles, hgc, -⟩ := h
  have hremote := @newScript_remote functionName a fun p => (p.toNat : Int) = a.period.toInt
  rw [toUnsigned_eq_iff hperiod] at hremote
  have hengines := toUnsigned_eq_iff (Int64.le_of_lt hengines)
  have hcycles := toUnsigned_eq_iff hcycles
  have hgc := toUnsigned_eq_iff (Int64.le_of_lt hgc)
  constructor
  · intro hstores
    exact ⟨hengines.mp hstores.maxEngines, hcycles.mp hstores.maxCycles,
      hgc.mp hstores.minGcCycles, hremote.mp hstores.period⟩
  · intro hfits
    exact ⟨hengines.mpr hfits.maxEngines, hcycles.mpr hfits.maxCycles,
      hgc.mpr hfits.minGcCycles, hremote.mpr hfits.period⟩

/-- What goes wrong at run time, and for which arguments: a multiple of 2^32 is stored as 0. -/
theorem newScript_runsSafely_iff : (newScript functionName a).RunsSafely a ↔
    ¬ (2 ^ 32 : Int) ∣ a.minGcCycles.toInt ∧ ¬ (2 ^ 32 : Int) ∣ a.maxEngines.toInt ∧
    (0 < a.maxCycles → ¬ (2 ^ 32 : Int) ∣ a.maxCycles.toInt) ∧
    (isGiven a.location = true → 0 < a.period → ¬ (2 ^ 32 : Int) ∣ a.period.toInt) := by
  have hpositive : ∀ x : UInt32, 0 < x ↔ x ≠ 0 := fun x => UInt32.pos_iff_ne_zero
  have hengines : 0 < (newScript functionName a).cfg.pool.maxEngines ↔
      ¬ (2 ^ 32 : Int) ∣ a.maxEngines.toInt := by
    rw [← toUnsigned_ne_zero_iff, ← hpositive]
    rfl
  have hremote := @newScript_remote functionName a fun p => 0 < a.period → 0 < p
  rw [← hengines, ← toUnsigned_ne_zero_iff, ← toUnsigned_ne_zero_iff, ← toUnsigned_ne_zero_iff]
  constructor
  · intro hsafe
    refine ⟨(noTrap_iff _).mp hsafe.noTrap, (createsEngine_iff _).mp hsafe.createsEngine,
      fun hpos => (hpositive _).mp (hsafe.maxCycles hpos), fun hgiven hpos => ?_⟩
    exact (hpositive _).mp (hremote.mp hsafe.period hgiven hpos)
  · rintro ⟨hgc, hmax, hcycles, hperiod⟩
    refine ⟨(noTrap_iff _).mpr hgc, (createsEngine_iff _).mpr hmax,
      fun hpos => (hpositive _).mpr (hcycles hpos), hremote.mpr fun hgiven hpos => ?_⟩
    exact (hpositive _).mpr (hperiod hgiven hpos)

theorem InitArgs.Fits.runsSafely (hfits : a.Fits) (h : a.Admitted) :
    (newScript functionName a).RunsSafely a := by
  have hmultiple : ∀ x : Int64, 0 < x → x.toInt < 2 ^ 32 → ¬ (2 ^ 32 : Int) ∣ x.toInt := by
    intro x hpos hlt
    have hpos : (0 : Int) < x.toInt := by simpa [Int64.lt_iff_toInt_lt] using hpos
    omega
  rw [newScript_runsSafely_iff]
  obtain ⟨-, hengines, -, hgc, -⟩ := h
  exact ⟨hmultiple _ hgc hfits.minGcCycles, hmultiple _ hengines hfits.maxEngines,
    fun hpos => hmultiple _ hpos hfits.maxCycles,
    fun hgiven hpos => hmultiple _ hpos (hfits.period hgiven)⟩

/-- **Accepted parameters are stored and safe at run time** exactly if they fit an `unsigned`. -/
theorem accepted_parameters_safe_iff (h : ScriptObject.vmodScriptInit functionName check a = some s) :
    s.Stores a ∧ s.RunsSafely a ↔ a.Fits := by
  obtain ⟨hadmitted, rfl⟩ := ScriptObject.vmodScriptInit_eq_some h
  constructor
  · intro hsafe
    exact (newScript_stores_iff hadmitted).mp hsafe.1
  · intro hfits
    exact ⟨(newScript_stores_iff hadmitted).mpr hfits, hfits.runsSafely hadmitted⟩

end Init

/-- The defaults, with a garbage collection every `minGcCycles` executions. -/
abbrev defaultArgs (minGcCycles : Int64) : InitArgs :=
  ⟨some .empty, some .empty, true, 60, true, .lua, 128, 0, minGcCycles, 100, 0, 0⟩

theorem accepted_parameters_safe_iff_defaults :
    (newScript id (defaultArgs 100)).Stores (defaultArgs 100) ∧
      (newScript id (defaultArgs 100)).RunsSafely (defaultArgs 100) :=
  (@accepted_parameters_safe_iff id (fun _ => true) (defaultArgs 100) _ rfl).mpr
    ⟨by decide, by decide, by decide, by decide⟩

/-- `min_gc_cycles=4294967296` passes the checks, and is stored as 0: the first execution divides
by it. -/
theorem accepted_parameters_trap :
    ScriptObject.vmodScriptInit id (fun _ => true) (defaultArgs 4294967296) =
        some (newScript id (defaultArgs 4294967296)) ∧
      ¬ (newScript id (defaultArgs 4294967296)).Stores (defaultArgs 4294967296) ∧
      ¬ (newScript id (defaultArgs 4294967296)).RunsSafely (defaultArgs 4294967296) := by
  refine ⟨rfl, fun hstores => ?_, fun hsafe => ?_⟩
  · exact absurd hstores.minGcCycles (by decide)
  · exact (noTrap_iff _).mp hsafe.noTrap rfl

end VmodCfg.Script
