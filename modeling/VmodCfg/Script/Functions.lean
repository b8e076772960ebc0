import Mathlib.Data.Set.Function
import VmodCfg.Lib.Machine
import VmodCfg.Script.Globals

/-!
# The code that is executed

Threads load code into a script object and execute inline code or the published code, in the
engines of one pool. A load compiles its contents in an engine and then publishes them with their
name; an execution chooses its code (under the mutex, if it is the published one) before it has an
engine, and looks the function up by name when it has one. An action is one critical section, or
one execution, which touches only the engine its thread holds.

`Notes` is bookkeeping: what was chosen, published, compiled and called.
-/

namespace VmodCfg.Script.Functions

universe u

open Machine

/-- What an engine is wanted for: `run` is `none` for a load, else the arguments and the result
register of an execution. -/
structure Job (D : Type*) where
  code : CString
  name : Option CString
  run : Option (List CString × Result D)

/-- `*name` in `execute_lua` and `execute_javascript`. -/
def Job.function {D : Type*} (cfg : ScriptCfg) (j : Job D) : CString :=
  j.name.getD (cfg.functionName j.code)

inductive Pc (D : Type*) where
  | idle
  | locking (j : Job D)
  | waiting (j : Job D)
  | locked (e : EngineId) (j : Job D)
  | ran (e : EngineId) (j : Job D) (success : Bool)
  | publishing (j : Job D)

def Pc.engine {D : Type*} : Pc D → Option EngineId
  | .locked e _ | .ran e _ _ => some e
  | _ => none

def Pc.job {D : Type*} : Pc D → Option (Job D)
  | .idle => none
  | .locking j | .waiting j | .locked _ j | .ran _ j _ | .publishing j => some j

structure Sys (T D G V : Type u) where
  script : ScriptState G V
  pc : T → Pc D

inductive Act (T D E : Type*) where
  | load (t : T) (code : CString)
  | select (t : T) (x : Execution D) (env : E)
  | lock (t : T)
  | run (t : T) (env : E) (gcCollect : Bool)
  | unlock (t : T)
  | publish (t : T)

def Act.code {T D E : Type*} : Act T D E → Option CString
  | .load _ code => some code
  | .select _ x _ => x.code
  | _ => none

inductive Choice where
  | inline (code : CString)
  | published (code : CString)
  deriving DecidableEq

def Choice.code : Choice → CString
  | .inline code | .published code => code

/-- What is noted of a run: `called` has, for each execution that succeeded, what its task had
chosen, and the source of the function that was called. -/
structure Notes (T : Type*) where
  chosen : T → Option Choice
  published : List CString
  compiled : List (EngineId × CString)
  called : List (Option Choice × Option CString)

section Defs

variable {T D G E S V : Type u} [DecidableEq T] (I : Interp G (E × S) V) (cfg : ScriptCfg)
variable (exec : Exec D G (E × S) V) (functionOf : G → CString → Option CString)

def Sys.init : Sys T D G V := ⟨⟨.init, none⟩, fun _ => .idle⟩

def Notes.init : Notes T := ⟨fun _ => none, [], [], []⟩

/-- The thread leaves the section of `lock_engine` with an engine, or waits in it. -/
def Sys.leave (s : Sys T D G V) (t : T) (j : Job D) (r : Option EngineId × Pool (Vm G V)) :
    Sys T D G V :=
  { script := { s.script with pool := r.2 }
    pc := Function.update s.pc t (match r.1 with
      | some e => .locked e j
      | none => .waiting j) }

/-- Where a thread goes after `unlock_engine`: a load that compiled is published. -/
def Job.done (j : Job D) (success : Bool) : Pc D :=
  if success && j.run.isNone then .publishing j else .idle

def step (s : Sys T D G V) : Act T D (E × S) → Option (Sys T D G V)
  | .load t code =>
    match s.pc t with
    | .idle => some { s with pc := Function.update s.pc t (.locking ⟨code, none, none⟩) }
    | _ => none
  | .select t x env =>
    match s.pc t with
    | .idle =>
      match selectCode I s.script x env with
      | .code args code name _ =>
        some { s with
          pc := Function.update s.pc t (.locking ⟨code, name, some (args, x.result)⟩) }
      | _ => some s
    | _ => none
  | .lock t =>
    match s.pc t with
    | .locking j =>
      some (s.leave t j (lockEngine cfg.pool s.script.pool (Vm.init I) (I.memory I.new)))
    | .waiting j =>
      some (s.leave t j
        (lockEngine cfg.pool (countBlocked s.script.pool) (Vm.init I) (I.memory I.new)))
    | _ => none
  | .run t env gcCollect =>
    match s.pc t with
    | .locked e j =>
      match runOn I cfg exec s.script.pool e j.code (j.function cfg) j.run env gcCollect with
      | .returned (x, p) =>
        some ⟨{ s.script with pool := p }, Function.update s.pc t (.ran e j x.success)⟩
      | _ => none
    | _ => none
  | .unlock t =>
    match s.pc t with
    | .ran e j success =>
      let p := s.script.pool
      some ⟨{ s.script with pool := unlockEngine p e (usedMemory I p e) },
        Function.update s.pc t (j.done success)⟩
    | _ => none
  | .publish t =>
    match s.pc t with
    | .publishing j =>
      some ⟨{ s.script with function := some (j.code, j.function cfg) },
        Function.update s.pc t .idle⟩
    | _ => none

def choice (s : Sys T D G V) (x : Execution D) : Option Choice :=
  match x.code with
  | some code => some (.inline code)
  | none => s.script.function.map fun f => .published f.1

def compiles (g : G) (name code : CString) : Bool :=
  match I.lookup g name, I.load g name code with
  | some false, some (ok, _) => ok
  | _, _ => false

/-- What is noted of an execution of `j` in an engine with globals `g`. -/
def Notes.run (w : Notes T) (t : T) (e : EngineId) (g : G) (j : Job D) (success : Bool) :
    Notes T :=
  { w with
    compiled :=
      if compiles I g (j.function cfg) j.code then w.compiled ++ [(e, j.code)] else w.compiled
    called :=
      if success && j.run.isSome then
        w.called ++ [(w.chosen t, (I.prepare g (j.function cfg) j.code).bind fun (_, g) =>
          functionOf g (j.function cfg))]
      else w.called }

def note (s : Sys T D G V) (a : Act T D (E × S)) (w : Notes T) : Notes T :=
  match a with
  | .select t x _ => { w with chosen := Function.update w.chosen t (choice s x) }
  | .run t env gcCollect =>
    match s.pc t with
    | .locked e j =>
      match s.script.pool.heap e,
        runOn I cfg exec s.script.pool e j.code (j.function cfg) j.run env gcCollect with
      | some engine, .returned (x, _) =>
        w.run I cfg functionOf t e engine.ctx.globals j x.success
      | _, _ => w
    | _ => w
  | .publish t =>
    match s.pc t with
    | .publishing j => { w with published := w.published ++ [j.code] }
    | _ => w
  | _ => w

/-- Loading a chunk defines the function of the given name and no other, and scripts do not touch
the functions that loads define: `functionOf` gives the source of such a function. -/
structure Defines (names : Set CString) : Prop where
  lookup : ∀ g, ∀ n ∈ names, I.lookup g n = some true ↔ (functionOf g n).isSome
  new : ∀ n ∈ names, functionOf I.new n = none
  load : ∀ g, ∀ n ∈ names, ∀ code g', I.load g n code = some (true, g') → ∀ m ∈ names,
    functionOf g' m = if m = n then some code else functionOf g m
  load_failed : ∀ g, ∀ n ∈ names, ∀ code g', I.load g n code = some (false, g') → ∀ m ∈ names,
    functionOf g' m = functionOf g m
  call : ∀ g f args env v g' env', I.call g f args env = some (v, g', env') → ∀ m ∈ names,
    functionOf g' m = functionOf g m
  gc : ∀ g g', I.gc g = some g' → ∀ m ∈ names, functionOf g' m = functionOf g m

end Defs

/-! ## The functions of an engine -/

section Functions

variable {D G E S V : Type u} {I : Interp G (E × S) V} {cfg : ScriptCfg}
variable {functionOf : G → CString → Option CString} {names : Set CString}

/-- The functions of an engine that was made ready, or in which the code did not compile. -/
theorem prepare_functions (F : Defines I functionOf names) {g g₁ : G} {code n : CString} {ok : Bool}
    (hn : n ∈ names) (hp : I.prepare g n code = some (ok, g₁)) :
    ∀ m ∈ names, functionOf g₁ m =
      if compiles I g n code = true ∧ m = n then some code else functionOf g m := by
  intro m hm
  unfold Interp.prepare at hp
  unfold compiles
  split at hp
  · rcases hl : I.lookup g n with _ | _ | _
    · simp [hl] at hp
    · rcases hload : I.load g n code with _ | ⟨_ | _, g₂⟩
      · simp [hl, hload] at hp
      · simp only [hl, hload] at hp
        cases hp
        simp [F.load_failed g n hn code _ hload m hm]
      · simp only [hl, hload] at hp
        split at hp
        · cases hp
          simp [F.load g n hn code _ hload m hm]
        · cases hp
    · simp only [hl] at hp
      cases hp
      simp
  · cases hp

theorem ran_functions (F : Defines I functionOf names) {g : G} {code n : CString}
    {job : Option (List CString × Result D)} {env : E × S} {x : Executed D G (E × S) V}
    (hn : n ∈ names) (h : Ran I g code n job env x) :
    ∀ m ∈ names, functionOf x.vm.globals m =
      if compiles I g n code = true ∧ m = n then some code else functionOf g m := by
  intro m hm
  cases h with
  | broken hp hs hg =>
    rw [hg]
    exact prepare_functions F hn hp m hm
  | compiled hp hjob hs hg =>
    rw [hg]
    exact prepare_functions F hn hp m hm
  | called hp hjob hc hs hg =>
    rw [hg, F.call _ _ _ _ _ _ _ hc m hm]
    exact prepare_functions F hn hp m hm

variable (cfg functionOf) in
/-- What holds of the engines of a pool: a function with the name of a code is that code, the
engines still know what they compiled, and none compiled a code twice. -/
structure EnginesOk (codes : Set CString) (p : Pool (Vm G V))
    (compiled : List (EngineId × CString)) : Prop where
  named : ∀ e x, p.heap e = some x → ∀ c ∈ codes, ∀ d,
    functionOf x.ctx.globals (cfg.functionName c) = some d → d = c
  old : ∀ y ∈ compiled, y.2 ∈ codes ∧ y.1 < p.fresh
  known : ∀ y ∈ compiled, ∀ x, p.heap y.1 = some x →
    (functionOf x.ctx.globals (cfg.functionName y.2)).isSome
  once : compiled.Nodup

variable {codes : Set CString} {p q : Pool (Vm G V)} {compiled : List (EngineId × CString)}

theorem EnginesOk.init : EnginesOk cfg functionOf codes (Pool.init : Pool (Vm G V)) [] := by
  refine ⟨fun e x hx => ?_, fun y hy => ?_, fun y hy => ?_, List.nodup_nil⟩
  · cases hx
  · cases hy
  · cases hy

theorem EnginesOk.inherit (h : EnginesOk cfg functionOf codes p compiled)
    (hfresh : p.fresh ≤ q.fresh)
    (hold : ∀ e x, q.heap e = some x → (∃ y, p.heap e = some y ∧ ∀ c ∈ codes,
      functionOf x.ctx.globals (cfg.functionName c) =
        functionOf y.ctx.globals (cfg.functionName c)) ∨
      (p.fresh ≤ e ∧ ∀ c ∈ codes, functionOf x.ctx.globals (cfg.functionName c) = none)) :
    EnginesOk cfg functionOf codes q compiled := by
  refine ⟨fun e x hx c hc d hd => ?_, fun y hy => ?_, fun y hy x hx => ?_, h.once⟩
  · rcases hold e x hx with ⟨x₀, hx₀, hsame⟩ | ⟨-, hnone⟩
    · rw [hsame c hc] at hd
      exact h.named e x₀ hx₀ c hc d hd
    · rw [hnone c hc] at hd
      cases hd
  · obtain ⟨hc, hlt⟩ := h.old y hy
    exact ⟨hc, Nat.lt_of_lt_of_le hlt hfresh⟩
  · obtain ⟨hc, hlt⟩ := h.old y hy
    rcases hold y.1 x hx with ⟨x₀, hx₀, hsame⟩ | ⟨hge, -⟩
    · rw [hsame y.2 hc]
      exact h.known y hy x₀ hx₀
    · exact absurd hlt (Nat.not_lt_of_le hge)

theorem EnginesOk.lock (F : Defines I functionOf (Set.range cfg.functionName))
    (h : EnginesOk cfg functionOf codes p compiled) (hp : PoolOk cfg.pool p) (memory : Int) :
    EnginesOk cfg functionOf codes (lockEngine cfg.pool p (Vm.init I) memory).2 compiled := by
  refine h.inherit (lockEngine_cases hp.nodup _ _).fresh fun e x hx => ?_
  rcases lockEngine_heap hp.nodup hx with hold | ⟨rfl, rfl⟩
  · exact .inl ⟨x, hold, fun _ _ => rfl⟩
  · exact .inr ⟨Nat.le_refl _, fun c _ => F.new _ ⟨c, rfl⟩⟩

theorem EnginesOk.unlock (h : EnginesOk cfg functionOf codes p compiled) (e : EngineId)
    (memory : Int) : EnginesOk cfg functionOf codes (unlockEngine p e memory) compiled := by
  refine h.inherit (Nat.le_refl _) fun e₁ x hx => .inl ?_
  by_cases he : e₁ = e
  · subst he
    simp only [unlockEngine, Function.update_self] at hx
    obtain ⟨y, hy, rfl⟩ := Option.map_eq_some_iff.mp hx
    exact ⟨y, hy, fun _ _ => rfl⟩
  · simp only [unlockEngine, Function.update_of_ne he] at hx
    exact ⟨x, hx, fun _ _ => rfl⟩

/-- An execution that compiles a code does it in an engine that did not know the code. -/
theorem EnginesOk.run (F : Defines I functionOf (Set.range cfg.functionName))
    (hinj : Set.InjOn cfg.functionName codes) (h : EnginesOk cfg functionOf codes p compiled)
    {e : EngineId} {engine : Engine (Vm G V)} {code : CString} (hcode : code ∈ codes)
    (he : p.heap e = some engine) (hlt : e < p.fresh) {vm : Vm G V}
    (hvm : ∀ m ∈ Set.range cfg.functionName, functionOf vm.globals m =
      if compiles I engine.ctx.globals (cfg.functionName code) code = true ∧
        m = cfg.functionName code then some code else functionOf engine.ctx.globals m)
    (stats : Stats) :
    EnginesOk cfg functionOf codes (cycleEngine { p with stats := stats } e vm)
      (if compiles I engine.ctx.globals (cfg.functionName code) code = true then
        compiled ++ [(e, code)] else compiled) := by
  have hheap : ∀ e₁ x, (cycleEngine { p with stats := stats } e vm).heap e₁ = some x →
      if e₁ = e then x.ctx = vm else p.heap e₁ = some x := by
    intro e₁ x hx
    by_cases hee : e₁ = e
    · subst hee
      simp only [cycleEngine, Function.update_self, he, Option.map_some, Option.some.injEq] at hx
      rw [if_pos rfl, ← hx]
    · simp only [cycleEngine, Function.update_of_ne hee] at hx
      rw [if_neg hee]
      exact hx
  -- the functions of the engine `e`, afterwards
  have hafter : ∀ c ∈ codes, functionOf vm.globals (cfg.functionName c) =
      if compiles I engine.ctx.globals (cfg.functionName code) code = true ∧ c = code then some code
      else functionOf engine.ctx.globals (cfg.functionName c) := by
    intro c hc
    rw [hvm _ ⟨c, rfl⟩]
    simp only [hinj.eq_iff hc hcode]
  have hsome : ∀ c ∈ codes, (functionOf engine.ctx.globals (cfg.functionName c)).isSome →
      (functionOf vm.globals (cfg.functionName c)).isSome := by
    intro c hc hs
    rw [hafter c hc]
    split
    · rfl
    · exact hs
  have hknown : ∀ y ∈ compiled, ∀ x,
      (cycleEngine { p with stats := stats } e vm).heap y.1 = some x →
      (functionOf x.ctx.globals (cfg.functionName y.2)).isSome := by
    intro y hy x hx
    have hx' := hheap y.1 x hx
    split at hx'
    · rename_i hye
      rw [hx']
      exact hsome y.2 (h.old y hy).1 (h.known y hy engine (by rw [hye, he]))
    · exact h.known y hy x hx'
  refine ⟨fun e₁ x hx c hc d hd => ?_, ?_, ?_, ?_⟩
  · have hx' := hheap e₁ x hx
    split at hx'
    · rw [hx', hafter c hc] at hd
      split at hd
      · rename_i hcc
        cases hd
        exact hcc.2.symm
      · exact h.named e engine he c hc d hd
    · exact h.named e₁ x hx' c hc d hd
  · split
    · intro y hy
      rcases List.mem_append.mp hy with hy | hy
      · exact h.old y hy
      · rw [List.mem_singleton.mp hy]
        exact ⟨hcode, hlt⟩
    · exact h.old
  · split
    · rename_i hcomp
      intro y hy x hx
      rcases List.mem_append.mp hy with hy | hy
      · exact hknown y hy x hx
      · rw [List.mem_singleton.mp hy] at hx ⊢
        have hx' := hheap e x hx
        rw [if_pos rfl] at hx'
        rw [hx', hafter code hcode, if_pos ⟨hcomp, rfl⟩]
        rfl
    · exact hknown
  · split
    · rename_i hcomp
      refine List.nodup_append.mpr ⟨h.once, List.nodup_singleton _, ?_⟩
      intro y hy z hz hyz
      rw [List.mem_singleton.mp hz] at hyz
      subst hyz
      have hs := h.known _ hy engine he
      have hf := (F.lookup engine.ctx.globals _ ⟨code, rfl⟩).2 hs
      simp [compiles, hf] at hcomp
    · exact h.once

end Functions

/-! ## The invariant -/

section Inv

variable {T D G E S V : Type u} {I : Interp G (E × S) V} {cfg : ScriptCfg}
variable {exec : Exec D G (E × S) V} {functionOf : G → CString → Option CString}
variable {codes : Set CString} {s s' : Sys T D G V} {w w' : Notes T}

/-- The code of a job goes by its own name, and if the job is an execution, then it is what was
chosen. -/
structure JobOk (cfg : ScriptCfg) (codes : Set CString) (published : List CString)
    (chosen : Option Choice) (j : Job D) : Prop where
  code : j.code ∈ codes
  name : j.function cfg = cfg.functionName j.code
  chosen : j.run.isSome → ∃ c, chosen = some c ∧ c.code = j.code ∧
    ∀ d, c = .published d → d ∈ published

/-- What holds between any two actions. -/
structure Inv (cfg : ScriptCfg) (functionOf : G → CString → Option CString) (codes : Set CString)
    (s : Sys T D G V) (w : Notes T) : Prop where
  holders : Holders cfg.pool s.script.pool fun t => (s.pc t).engine
  engines : EnginesOk cfg functionOf codes s.script.pool w.compiled
  published : ∀ code name, s.script.function = some (code, name) →
    name = cfg.functionName code ∧ code ∈ codes ∧ code ∈ w.published
  jobs : ∀ t j, (s.pc t).job = some j → JobOk cfg codes w.published (w.chosen t) j
  called : ∀ y ∈ w.called, ∃ c, y = (some c, some c.code) ∧
    ∀ d, c = .published d → d ∈ w.published

theorem Inv.init : Inv cfg functionOf codes (Sys.init : Sys T D G V) Notes.init := by
  refine ⟨⟨PoolOk.init, fun e => ?_, fun t u e ht => ?_⟩, EnginesOk.init, fun c n h => ?_,
    fun t j h => ?_, fun y hy => ?_⟩
  · simp [Sys.init, Pool.init, Pc.engine]
  · cases ht
  · cases h
  · cases h
  · cases hy

theorem JobOk.mono {published published' : List CString} {chosen : Option Choice} {j : Job D}
    (h : JobOk cfg codes published chosen j) (hsub : ∀ d ∈ published, d ∈ published') :
    JobOk cfg codes published' chosen j := by
  refine ⟨h.code, h.name, fun hr => ?_⟩
  obtain ⟨c, hc, hcode, hpub⟩ := h.chosen hr
  exact ⟨c, hc, hcode, fun d hd => hsub d (hpub d hd)⟩

theorem selectCode_choice {x : Execution D} {env env' : E × S} {args : List CString}
    {code : CString} {name : Option CString}
    (hsel : selectCode I s.script x env = .code args code name env') :
    (x.code = some code ∧ name = none) ∨
      (x.code = none ∧ ∃ n, s.script.function = some (code, n) ∧ name = some n) := by
  unfold selectCode at hsel
  split at hsel
  · cases hsel
  · rename_i hcode
    cases hsel
    exact .inl ⟨hcode, rfl⟩
  · cases hsel
  · rename_i hcode hfun
    simp only at hsel
    split at hsel
    · cases hsel
      exact .inr ⟨hcode, _, hfun, rfl⟩
    · cases hsel

/-- An execution that succeeds calls the function that its code was compiled to. -/
theorem Inv.call (F : Defines I functionOf (Set.range cfg.functionName))
    (h : Inv cfg functionOf codes s w) {e : EngineId} {engine : Engine (Vm G V)}
    (heng : s.script.pool.heap e = some engine) {code : CString} (hcode : code ∈ codes) {g₁ : G}
    (hp : I.prepare engine.ctx.globals (cfg.functionName code) code = some (true, g₁)) :
    functionOf g₁ (cfg.functionName code) = some code := by
  have hfun := prepare_functions F ⟨code, rfl⟩ hp (cfg.functionName code) ⟨code, rfl⟩
  split at hfun
  · exact hfun
  · obtain ⟨d, hd⟩ := Option.isSome_iff_exists.mp
      ((F.lookup g₁ _ ⟨code, rfl⟩).1 (prepare_lookup hp))
    have hdc := h.engines.named e engine heng code hcode d (by rw [← hfun, hd])
    rw [hd, hdc]

variable [DecidableEq T]

theorem pc_engine_update (pc : T → Pc D) (t : T) (pc' : Pc D) :
    (fun u => (Function.update pc t pc' u).engine) =
      Function.update (fun u => (pc u).engine) t pc'.engine := by
  funext u
  by_cases hu : u = t
  · subst hu
    simp
  · simp [hu]

theorem Inv.jobs_update (h : Inv cfg functionOf codes s w) (t : T) (pc' : Pc D)
    (hpc : ∀ j, pc'.job = some j → JobOk cfg codes w.published (w.chosen t) j) :
    ∀ u j, (Function.update s.pc t pc' u).job = some j →
      JobOk cfg codes w.published (w.chosen u) j := by
  intro u j hj
  by_cases hu : u = t
  · subst hu
    rw [Function.update_self] at hj
    exact hpc j hj
  · rw [Function.update_of_ne hu] at hj
    exact h.jobs u j hj

theorem Inv.same_engine (h : Inv cfg functionOf codes s w) (t : T) (pc' : Pc D)
    (hpc : pc'.engine = (s.pc t).engine) :
    Holders cfg.pool s.script.pool fun u => (Function.update s.pc t pc' u).engine := by
  rw [pc_engine_update, hpc]
  have hself : Function.update (fun u => (s.pc u).engine) t (s.pc t).engine =
      fun u => (s.pc u).engine := Function.update_eq_self t fun u => (s.pc u).engine
  rw [hself]
  exact h.holders

theorem Inv.load (h : Inv cfg functionOf codes s w) {t : T} (ht : s.pc t = .idle) {code : CString}
    (hcode : code ∈ codes) :
    Inv cfg functionOf codes
      { s with pc := Function.update s.pc t (.locking ⟨code, none, none⟩) } w := by
  refine ⟨h.same_engine _ _ (by rw [ht]; rfl), h.engines, h.published, h.jobs_update _ _ ?_, h.called⟩
  intro j hj
  cases hj
  refine ⟨hcode, rfl, fun hr => ?_⟩
  cases hr

theorem Inv.choose (h : Inv cfg functionOf codes s w) {t : T} (ht : s.pc t = .idle)
    (choice : Option Choice) :
    Inv cfg functionOf codes s { w with chosen := Function.update w.chosen t choice } := by
  refine ⟨h.holders, h.engines, h.published, fun u j hj => ?_, h.called⟩
  have hu : u ≠ t := by
    rintro rfl
    rw [ht] at hj
    cases hj
  simp only [Function.update_of_ne hu]
  exact h.jobs u j hj

theorem Inv.select (h : Inv cfg functionOf codes s w) {t : T} (ht : s.pc t = .idle)
    {x : Execution D} (hx : ∀ code, x.code = some code → code ∈ codes) {env env' : E × S}
    {args : List CString} {code : CString} {name : Option CString}
    (hsel : selectCode I s.script x env = .code args code name env') :
    Inv cfg functionOf codes
      { s with pc := Function.update s.pc t (.locking ⟨code, name, some (args, x.result)⟩) }
      { w with chosen := Function.update w.chosen t (choice s x) } := by
  have h' := h.choose ht (choice s x)
  refine ⟨h'.same_engine _ _ (by rw [ht]; rfl), h.engines, h.published, h'.jobs_update _ _ ?_, h.called⟩
  intro j hj
  cases hj
  have hchosen : Function.update w.chosen t (choice s x) t = choice s x := Function.update_self ..
  rcases selectCode_choice hsel with ⟨hcode, rfl⟩ | ⟨hcode, n, hfun, rfl⟩
  · refine ⟨hx code hcode, rfl, fun _ => ⟨.inline code, ?_, rfl, fun d hd => ?_⟩⟩
    · exact hchosen.trans (by rw [choice, hcode])
    · cases hd
  · obtain ⟨hn, hc, hpub⟩ := h.published code n hfun
    refine ⟨hc, hn, fun _ => ⟨.published code, ?_, rfl, fun d hd => ?_⟩⟩
    · exact hchosen.trans (by rw [choice, hcode, hfun]; rfl)
    · cases hd
      exact hpub

theorem Inv.lock (F : Defines I functionOf (Set.range cfg.functionName))
    (h : Inv cfg functionOf codes s w) {t : T} {j : Job D} (ht : (s.pc t).engine = none)
    (hj : (s.pc t).job = some j) {p : Pool (Vm G V)} (hp : PoolOk cfg.pool p)
    (hbusy : p.busy = s.script.pool.busy) (hheap : p.heap = s.script.pool.heap)
    (hfresh : p.fresh = s.script.pool.fresh) (memory : Int) :
    Inv cfg functionOf codes (s.leave t j (lockEngine cfg.pool p (Vm.init I) memory)) w := by
  have hcases : LockCase cfg.pool p (lockEngine cfg.pool p (Vm.init I) memory) :=
    lockEngine_cases hp.nodup _ _
  have heng : EnginesOk cfg functionOf codes p w.compiled :=
    h.engines.inherit (by rw [hfresh]) fun e x hx => .inl ⟨x, by rw [← hheap, hx], fun _ _ => rfl⟩
  refine ⟨?_, heng.lock F hp memory, h.published, h.jobs_update _ _ fun j' hj' => ?_, h.called⟩
  · have htake := (h.holders.same hp hbusy).take ht hcases
    unfold Sys.leave
    rw [pc_engine_update]
    rcases hr : (lockEngine cfg.pool p (Vm.init I) memory).1 with _ | e
    · rw [hr] at htake
      exact htake
    · rw [hr] at htake
      exact htake
  · have hjj : j' = j := by
      split at hj'
      · exact (Option.some.inj hj').symm
      · exact (Option.some.inj hj').symm
    rw [hjj]
    exact h.jobs t j hj

theorem Inv.run (F : Defines I functionOf (Set.range cfg.functionName))
    (hinj : Set.InjOn cfg.functionName codes) (hexec : exec.Obeys I)
    (h : Inv cfg functionOf codes s w) {t : T} {e : EngineId} {j : Job D}
    (ht : s.pc t = .locked e j) {engine : Engine (Vm G V)}
    (heng : s.script.pool.heap e = some engine) {env : E × S} {gcCollect : Bool}
    {x : Executed D G (E × S) V} {p : Pool (Vm G V)}
    (hrun : runOn I cfg exec s.script.pool e j.code (j.function cfg) j.run env gcCollect =
      .returned (x, p)) :
    Inv cfg functionOf codes
      ⟨{ s.script with pool := p }, Function.update s.pc t (.ran e j x.success)⟩
      (w.run I cfg functionOf t e engine.ctx.globals j x.success) := by
  have hjob := h.jobs t j (by rw [ht]; rfl)
  have hpool := h.holders.pool
  obtain ⟨engine', gc, vm, heng', hx, hgc, rfl⟩ := runOn_spec hrun
  rw [heng] at heng'
  cases heng'
  have hran := hexec hx
  rw [hjob.name] at hran
  have hvm : ∀ m ∈ Set.range cfg.functionName, functionOf vm.globals m =
      if compiles I engine.ctx.globals (cfg.functionName j.code) j.code = true ∧
        m = cfg.functionName j.code then some j.code else functionOf engine.ctx.globals m := by
    intro m hm
    rw [← ran_functions F ⟨j.code, rfl⟩ hran m hm]
    obtain ⟨-, heq | hcollect⟩ := callCollector_spec hgc
    · rw [heq]
    · exact F.gc _ _ hcollect m hm
  have hlt : e < s.script.pool.fresh := by
    apply hpool.old
    rw [← hpool.live, heng]
    rfl
  have heok := h.engines.run F hinj hjob.code heng hlt hvm
    (countExecution s.script.pool.stats x.unknown x.success gc)
  rw [← hjob.name] at heok
  refine ⟨?_, heok, h.published, h.jobs_update _ _ ?_, ?_⟩
  · have hhold := h.same_engine t (.ran e j x.success) (by rw [ht]; rfl)
    exact hhold.same (cycleEngine_ok (countExecution_ok hpool _ _ _) e _) rfl
  · intro j' hj'
    cases hj'
    exact hjob
  · intro y hy
    unfold Notes.run at hy
    simp only at hy
    split at hy
    · rename_i hcond
      obtain ⟨hs, hr⟩ := Bool.and_eq_true_iff.mp hcond
      rcases List.mem_append.mp hy with hy | hy
      · exact h.called y hy
      · obtain ⟨c, hc, hcode, hpub⟩ := hjob.chosen hr
        refine ⟨c, ?_, hpub⟩
        cases hran with
        | broken hp hns hg => rw [hns] at hs; cases hs
        | compiled hp hnone hs' hg => rw [hnone] at hr; cases hr
        | called hp hsome hcall hs' hg =>
          rw [List.mem_singleton.mp hy, hc, hjob.name, hp, hcode]
          exact congrArg (Prod.mk (some c)) (h.call F heng hjob.code hp)
    · exact h.called y hy

theorem Inv.unlock (h : Inv cfg functionOf codes s w) {t : T} {e : EngineId} {j : Job D}
    {success : Bool} (ht : s.pc t = .ran e j success) (memory : Int) :
    Inv cfg functionOf codes
      ⟨{ s.script with pool := unlockEngine s.script.pool e memory },
        Function.update s.pc t (j.done success)⟩ w := by
  have hjob := h.jobs t j (by rw [ht]; rfl)
  refine ⟨?_, h.engines.unlock e memory, h.published, h.jobs_update _ _ fun j' hj' => ?_, h.called⟩
  · have hnone : (j.done success).engine = none := by
      unfold Job.done
      split <;> rfl
    rw [pc_engine_update, hnone]
    exact h.holders.give (by rw [ht]; rfl) memory
  · have hjj : j' = j := by
      unfold Job.done at hj'
      split at hj'
      · exact (Option.some.inj hj').symm
      · cases hj'
    rw [hjj]
    exact hjob

theorem Inv.publish (h : Inv cfg functionOf codes s w) {t : T} {j : Job D}
    (ht : s.pc t = .publishing j) :
    Inv cfg functionOf codes
      ⟨{ s.script with function := some (j.code, j.function cfg) }, Function.update s.pc t .idle⟩
      { w with published := w.published ++ [j.code] } := by
  have hjob := h.jobs t j (by rw [ht]; rfl)
  refine ⟨h.same_engine _ _ (by rw [ht]; rfl), h.engines, fun c n hcn => ?_, fun u j' hj' => ?_,
    fun y hy => ?_⟩
  · cases hcn
    exact ⟨hjob.name, hjob.code, by simp⟩
  · refine (h.jobs_update t .idle (fun _ hj => by cases hj) u j' hj').mono ?_
    exact fun d hd => List.mem_append_left _ hd
  · obtain ⟨c, hc, hpub⟩ := h.called y hy
    exact ⟨c, hc, fun d hd => List.mem_append_left _ (hpub d hd)⟩

theorem Inv.step (F : Defines I functionOf (Set.range cfg.functionName))
    (hinj : Set.InjOn cfg.functionName codes) (hexec : exec.Obeys I)
    {a : Act T D (E × S)} (ha : ∀ code, a.code = some code → code ∈ codes)
    (h : Inv cfg functionOf codes s w) (hs : Functions.step I cfg exec s a = some s') :
    Inv cfg functionOf codes s' (note I cfg exec functionOf s a w) := by
  cases a with
  | load t code =>
    simp only [Functions.step] at hs
    split at hs
    · rename_i ht
      cases hs
      exact h.load ht (ha code rfl)
    · cases hs
  | select t x env =>
    simp only [Functions.step] at hs
    split at hs
    · rename_i ht
      split at hs
      · rename_i hsel
        cases hs
        exact h.select ht ha hsel
      · cases hs
        exact h.choose ht _
    · cases hs
  | lock t =>
    simp only [Functions.step] at hs
    have hpool := h.holders.pool
    split at hs
    · rename_i j ht
      cases hs
      exact h.lock F (by rw [ht]; rfl) (by rw [ht]; rfl) hpool rfl rfl rfl _
    · rename_i j ht
      cases hs
      exact h.lock F (by rw [ht]; rfl) (by rw [ht]; rfl) (countBlocked_ok hpool) rfl rfl rfl _
    · cases hs
  | run t env gcCollect =>
    simp only [Functions.step] at hs
    split at hs
    · rename_i e j ht
      split at hs
      · rename_i x p hrun
        cases hs
        obtain ⟨engine, gc, vm, heng, -⟩ := runOn_spec hrun
        simp only [note, ht, heng, hrun]
        exact h.run F hinj hexec ht heng hrun
      · cases hs
    · cases hs
  | unlock t =>
    simp only [Functions.step] at hs
    split at hs
    · rename_i e j success ht
      cases hs
      exact h.unlock ht _
    · cases hs
  | publish t =>
    simp only [Functions.step] at hs
    split at hs
    · rename_i j ht
      cases hs
      simp only [note, ht]
      exact h.publish ht
    · cases hs

end Inv

/-! ## The property -/

section Requested

variable {T D G E S V : Type u} [DecidableEq T]

/-- Every execution that succeeded called the function compiled from the code that was chosen for
it, the inline code of the task or a published one; the published code goes by its own name; and no
engine compiled a code twice. -/
def Requested (cfg : ScriptCfg) (s : Sys T D G V) (w : Notes T) : Prop :=
  (∀ y ∈ w.called, ∃ c, y = (some c, some c.code) ∧ ∀ d, c = .published d → d ∈ w.published) ∧
    (∀ code name, s.script.function = some (code, name) →
      name = cfg.functionName code ∧ code ∈ w.published) ∧
    w.compiled.Nodup

/-- No two codes of the run have the same hash. -/
def NoCollision {E : Type u} (cfg : ScriptCfg) (tr : List (Act T D E)) : Prop :=
  Set.InjOn cfg.functionName {code | ∃ a ∈ tr, a.code = some code}

theorem requested_of_run {I : Interp G (E × S) V} {cfg : ScriptCfg} {exec : Exec D G (E × S) V}
    {functionOf : G → CString → Option CString} (hexec : exec.Obeys I)
    (F : Defines I functionOf (Set.range cfg.functionName)) {tr : List (Act T D (E × S))}
    (hinj : NoCollision cfg tr) {s : Sys T D G V} {w : Notes T}
    (h : Machine.exec (watched (step I cfg exec) (note I cfg exec functionOf))
      (Sys.init, Notes.init) tr = some (s, w)) : Requested cfg s w := by
  let codes : Set CString := {code | ∃ a ∈ tr, a.code = some code}
  have hok : Along (watched (step I cfg exec) (note I cfg exec functionOf))
      (fun _ a => ∀ code, a.code = some code → code ∈ codes) (Sys.init, Notes.init) tr :=
    along_of_forall fun a ha code hc => ⟨a, ha, hc⟩
  have hinv : Inv cfg functionOf codes s w := by
    refine exec_inv (I := fun x => Inv cfg functionOf codes x.1 x.2) ?_ hok Inv.init h
    rintro ⟨s₁, w₁⟩ a ⟨s₂, w₂⟩ ha hi hs
    obtain ⟨hstep, rfl⟩ := watched_some.1 hs
    exact hi.step F hinj hexec ha hstep
  exact ⟨hinv.called, fun c n hcn => ⟨(hinv.published c n hcn).1, (hinv.published c n hcn).2.2⟩,
    hinv.engines.once⟩

section Published

/-- A Lua library that keeps, for each global function, the code it was compiled from; a call
returns 7. -/
def luaTable : Interp (List (CString × CString)) (Unit × Unit) (LuaValue Nat) where
  new := []
  varnish _ := true
  lookup g n := some (g.lookup n).isSome
  load g n code := some (true, (n, code) :: g)
  stores _ x _ _ := x.isVarnish
  argv _ _ := true
  call g _ _ env := some (some (.number 7), g, env)
  gc := some
  memory g := g.length
  wsCopy env _ := (true, env)

def tableCfg : ScriptCfg := ⟨⟨1, 0⟩, 1, fun code => code⟩

theorem luaTable_defines :
    Defines luaTable (fun g n => g.lookup n) (Set.range tableCfg.functionName) where
  lookup g n _ := by simp [luaTable]
  new n _ := rfl
  load g n _ code g' hl m _ := by
    cases hl
    show ((n, code) :: g).lookup m = _
    by_cases hm : m = n
    · subst hm
      simp
    · have hbeq : (m == n) = false := by simpa using hm
      rw [if_neg hm, List.lookup_cons, hbeq]
  load_failed g n _ code g' hl := by cases hl
  call g f args env v g' env' hc m _ := by
    cases hc
    rfl
  gc g g' hg m _ := by
    cases hg
    rfl

/-- A load of `7`, an execution of what it published, and one of the inline code `8`. -/
def publishedRun : List (Act Bool Nat (Unit × Unit)) :=
  [.load true (.ofBytes [55]), .lock true, .run true ((), ()) true, .unlock true, .publish true,
    .select false ⟨none, some [], .init⟩ ((), ()),
    .select true ⟨some (.ofBytes [56]), some [], .init⟩ ((), ()),
    .lock false, .lock true, .run false ((), ()) true, .unlock false, .lock true,
    .run true ((), ()) true, .unlock true]

end Published

end Requested

end VmodCfg.Script.Functions
