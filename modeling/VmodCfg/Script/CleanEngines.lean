import VmodCfg.Script.Globals
import VmodCfg.Script.PoolThreads
import VmodCfg.Script.Register

/-!
# Engines are returned as they were locked

An execution should leave the interpreter stack at the height it found, and the
fields of `varnish` cleared. The elements of a table are pushed one at a time,
and `FAIL_WS` leaves the loop with one of them on the stack: the clean-up, which
counts slots from the top, then misses `varnish`. `CleansUp` is when that does
not happen, and over the threads of a pool every engine is clean as long as the
executions meet it.
-/

namespace VmodCfg.Script

open Machine

universe u

section Defs

variable {D G E V : Type u}

/-- No field of `varnish` holds a pointer. -/
def Vm.Cleared (L : Vm G V) : Prop := ∀ f, L.set f = false

/-- An engine as `new_context` leaves it, the globals apart. -/
structure Vm.Clean (L : Vm G V) : Prop where
  empty : L.stack.length = 0
  cleared : L.Cleared
  stray : L.stray = 0

/-- The engine is released with the stack at the height it had and the fields cleared, and nothing
was stored through a slot but that of `varnish`. -/
def ReturnsClean (I : Interp G E V) (cfg : ScriptCfg) (exec : Exec D G E V) (engine : Engine (Vm G V))
    (code name : CString) (job : Option (List CString × Result D)) (env : E) (gcCollect : Bool) :
    Prop :=
  ∃ x gc L, exec engine.ctx code name job env = some x ∧
    callCollector I cfg engine.ncycles gcCollect x.vm = some (gc, L) ∧
    L.stack.length = engine.ctx.stack.length ∧ L.Cleared ∧ L.stray = engine.ctx.stray

/-- The elements of a table that are stored can be read, and their strings copied. -/
def luaCopied (I : Interp G E (LuaValue D)) : LuaValue D → E → Prop
  | .table elems, env => (collect I (luaNext elems) maxResultValues 0 env).isSome
  | _, _ => True

/-- So can those of an array, and its length be read. -/
def jsCopied (I : Interp G E (JsValue D)) : JsValue D → E → Prop
  | .array none _, _ => False
  | .array (some length) elems, env =>
    (collect I (jsNext length elems) maxResultValues 0 env).isSome
  | _, _ => True

/-- When a script lets the execution clean up: `varnish` takes the nulls after the call, and what was
returned can be stored. Where no script is called the fields stay as they are. -/
def Outcome.CleansUp (I : Interp G E V) (copied : V → E → Prop) (L : Vm G V) :
    Outcome G E V → Prop
  | .aborts => False
  | .compileError _ _ => L.Cleared
  | .runtimeError g _ => I.takes g .varnish false = true
  | .value v g env => I.takes g .varnish false = true ∧ copied v env

/-- When an execution cleans up: the globals let it pass, its outcome does, and the collection after
it returns. -/
def CleansUp (I : Interp G E V) (cfg : ScriptCfg) (copied : V → E → Prop) (engine : Engine (Vm G V))
    (code name : CString) (job : Option (List CString × Result D)) (env : E) (gcCollect : Bool) :
    Prop :=
  match job with
  | none =>
    match I.prepare engine.ctx.globals name code with
    | none => False
    | some (_, g) => engine.ctx.Cleared ∧ Collects I cfg engine.ncycles gcCollect g
  | some (args, _) =>
    (I.outcome engine.ctx.globals code name args env).CleansUp I copied engine.ctx ∧
      ∀ g, (I.outcome engine.ctx.globals code name args env).globals = some g →
        Collects I cfg engine.ncycles gcCollect g

end Defs

variable {D G E : Type u}

/-! ## One execution -/

section Execute

variable {V : Type u} {I : Interp G E V} {cfg : ScriptCfg} {post : Result D → E → V → Marshal D E}
  {missed : V → Slot V} {copied : V → E → Prop}

/-- The fields after the call, set before it and cleared after it. -/
theorem fields_cleared (set : Field → Bool) (f : Field) :
    Function.update (Function.update (Function.update (Function.update
      (Function.update (Function.update set .ctx true) .script true) .state true)
      .ctx false) .script false) .state false f = false := by
  cases f <;> rfl

theorem callCollector_clean {ncycles : UInt32} {gcCollect : Bool} {L : Vm G V} {n k : Nat} :
    (∃ gc L', callCollector I cfg ncycles gcCollect L = some (gc, L') ∧ L'.stack.length = n ∧
        L'.Cleared ∧ L'.stray = k) ↔
      Collects I cfg ncycles gcCollect L.globals ∧ L.stack.length = n ∧ L.Cleared ∧ L.stray = k := by
  rw [← callCollector_isSome_iff]
  rcases hc : callCollector I cfg ncycles gcCollect L with _ | ⟨gc, L'⟩
  · simp
  · obtain ⟨heq, -⟩ := callCollector_spec hc
    rw [heq]
    simp [Vm.Cleared]

/-- `post_execute` leaves nothing above a value that can be stored, and else leaves an element, or
does not return. -/
def LeavesElement (post : Result D → E → V → Marshal D E) (copied : V → E → Prop) : Prop :=
  ∀ r env v, (copied v env ∧ ∃ ok r' env', post r env v = .done ok r' env' 0) ∨
    (¬ copied v env ∧ ∀ ok r' env', post r env v ≠ .done ok r' env' 0)

/-- The engine after the execution, given the outcome of the script; `P` holds of the globals. -/
theorem finish_clean_iff (hpost : LeavesElement post copied) (L : Vm G V) (r : Result D)
    (unknown : Bool) (o : Outcome G E V) (P : G → Prop) :
    (∃ x, I.finish post missed L r unknown o = some x ∧ P x.vm.globals ∧
        x.vm.stack.length = L.stack.length ∧ x.vm.Cleared ∧ x.vm.stray = L.stray) ↔
      o.CleansUp I copied L ∧ ∀ g, o.globals = some g → P g := by
  cases o with
  | aborts =>
    refine iff_of_false ?_ fun h => h.1
    rintro ⟨x, hx, -⟩
    cases hx
  | compileError g env =>
    simp only [Outcome.globals, Option.some.injEq, forall_eq']
    constructor
    · rintro ⟨x, hx, hP, -, hclear, -⟩
      cases hx
      exact ⟨hclear, hP⟩
    · rintro ⟨hclear, hP⟩
      exact ⟨_, rfl, hP, rfl, hclear, rfl⟩
  | runtimeError g env =>
    simp only [Outcome.globals, Option.some.injEq, forall_eq']
    constructor
    · rintro ⟨x, hx, hP, -⟩
      cases finish_finishes hx with
      | runtimeError hc hs hvm hr henv =>
        rw [hvm] at hP
        exact ⟨hc, hP⟩
    · rintro ⟨hc, hP⟩
      exact ⟨_, if_pos hc, hP, rfl, fun _ => rfl, rfl⟩
  | value v g env =>
    simp only [Outcome.globals, Option.some.injEq, forall_eq']
    constructor
    · rintro ⟨x, hx, hP, hlen, -⟩
      cases finish_finishes hx with
      | value hp hs hvm hc hr henv =>
        rename_i ok r' env' left
        by_cases hleft : left = 0
        · subst hleft
          rw [hvm] at hP
          obtain ⟨hcopied, -⟩ | ⟨-, hno⟩ := hpost r env v
          · exact ⟨⟨hc rfl, hcopied⟩, hP⟩
          · exact absurd hp (hno _ _ _)
        · -- `varnish` is still on the stack
          rw [hvm, if_neg hleft] at hlen
          exact absurd hlen (Nat.succ_ne_self _)
    · rintro ⟨⟨hc, hcopied⟩, hP⟩
      obtain ⟨-, ok, r', env', hp⟩ | ⟨hno, -⟩ := hpost r env v
      · refine ⟨⟨ok, L.left g, some (if ok then r' else r'.set 0 .error), env', unknown⟩, ?_, hP,
          rfl, fun _ => rfl, rfl⟩
        simp only [Interp.finish, hp, hc, if_true]
      · exact absurd hcopied hno

/-- **An execution returns its engine clean exactly when it cleans up.** -/
theorem execute_clean_iff (hpost : LeavesElement post copied) (engine : Engine (Vm G V))
    (code name : CString) (job : Option (List CString × Result D)) (env : E) (gcCollect : Bool) :
    ReturnsClean I cfg (I.execute post missed) engine code name job env gcCollect ↔
      CleansUp I cfg copied engine code name job env gcCollect := by
  have hsplit : ReturnsClean I cfg (I.execute post missed) engine code name job env gcCollect ↔
      ∃ x, I.execute post missed engine.ctx code name job env = some x ∧
        Collects I cfg engine.ncycles gcCollect x.vm.globals ∧
        x.vm.stack.length = engine.ctx.stack.length ∧ x.vm.Cleared ∧
        x.vm.stray = engine.ctx.stray := by
    unfold ReturnsClean
    refine exists_congr fun x => ?_
    simp only [exists_and_left, callCollector_clean]
  rw [hsplit]
  unfold CleansUp Interp.execute
  cases job with
  | none =>
    rcases I.prepare engine.ctx.globals name code with _ | ⟨ok, g⟩
    · simp
    · simp [Vm.Cleared, and_comm]
  | some j => exact finish_clean_iff hpost ..

end Execute

theorem storeElems_leaves {V : Type u} {I : Interp G E V} (next : Nat → Option (Elem D))
    (r : Result D) (env : E) :
    ((collect I next maxResultValues 0 env).isSome ∧ ∃ ok r' env',
      storeElems I next maxResultValues 0 { r with nvalues := 0 } env = .done ok r' env' 0) ∨
    (¬ (collect I next maxResultValues 0 env).isSome ∧ ∀ ok r' env',
      storeElems I next maxResultValues 0 { r with nvalues := 0 } env ≠ .done ok r' env' 0) := by
  obtain ⟨vs, r', env', hc, hs, -⟩ | ⟨hc, hs⟩ :=
    storeElems_spec (I := I) next maxResultValues 0 { r with nvalues := 0 } env (Nat.le_refl _) rfl
  · exact .inl ⟨by rw [hc]; rfl, true, r', env', hs⟩
  · refine .inr ⟨by simp [hc], fun ok r₁ env₁ h => ?_⟩
    obtain hs | ⟨r', env', hs, -⟩ := hs
    · rw [hs] at h
      cases h
    · rw [hs] at h
      cases h

theorem luaPostExecute_leaves (I : Interp G E (LuaValue D)) :
    LeavesElement (luaPostExecute (D := D) I) (luaCopied I) := by
  intro r env v
  cases v with
  | table elems => exact storeElems_leaves ..
  | _ => exact .inl ⟨trivial, _, _, _, rfl⟩

theorem jsPostExecute_leaves (I : Interp G E (JsValue D)) :
    LeavesElement (jsPostExecute (D := D) I) (jsCopied I) := by
  intro r env v
  cases v with
  | array length elems =>
    cases length with
    | none => exact .inr ⟨id, fun _ _ _ h => by cases h⟩
    | some length => exact storeElems_leaves ..
  | _ => exact .inl ⟨trivial, _, _, _, rfl⟩

theorem executeLua_clean_iff (I : Interp G E (LuaValue D)) (cfg : ScriptCfg)
    (engine : Engine (Vm G (LuaValue D))) (code name : CString)
    (job : Option (List CString × Result D)) (env : E) (gcCollect : Bool) :
    ReturnsClean I cfg (executeLua I) engine code name job env gcCollect ↔
      CleansUp I cfg (luaCopied I) engine code name job env gcCollect := by
  rw [executeLua_eq]
  exact execute_clean_iff (luaPostExecute_leaves I) ..

theorem executeJavascript_clean_iff (I : Interp G E (JsValue D)) (cfg : ScriptCfg)
    (engine : Engine (Vm G (JsValue D))) (code name : CString)
    (job : Option (List CString × Result D)) (env : E) (gcCollect : Bool) :
    ReturnsClean I cfg (executeJavascript I) engine code name job env gcCollect ↔
      CleansUp I cfg (jsCopied I) engine code name job env gcCollect := by
  rw [executeJavascript_eq]
  exact execute_clean_iff (jsPostExecute_leaves I) ..

/-! ## The engines of a pool -/

section Pool

variable {V : Type u} {I : Interp G E V} {T : Type*} {cfg : ScriptCfg}

def Pool.Clean (p : Pool (Vm G V)) : Prop := ∀ e x, p.heap e = some x → x.ctx.Clean

/-- New engines are those of `new_context`, and what a thread makes of its engine is an execution
that meets `cleans`. -/
def Executes (I : Interp G E V) (cfg : ScriptCfg) (exec : Exec D G E V)
    (cleans : Engine (Vm G V) → CString → CString → Option (List CString × Result D) → E → Bool →
      Prop) (s : PoolSys T (Vm G V)) : Act T (Vm G V) → Prop
  | .lock _ ctx _ | .relock _ ctx _ => ctx = .init I
  | .cycle t ctx => ∀ e engine, s.pc t = .executing e → s.pool.heap e = some engine →
      ∃ code name job env gcCollect x gc, exec engine.ctx code name job env = some x ∧
        callCollector I cfg engine.ncycles gcCollect x.vm = some (gc, ctx) ∧
        cleans engine code name job env gcCollect
  | _ => True

theorem lockEngine_clean {p : Pool (Vm G V)} (hnd : (p.free ++ p.busy).Nodup) (h : p.Clean)
    (memory : Int) : (lockEngine cfg.pool p (Vm.init I) memory).2.Clean := by
  intro e x hx
  obtain hx | ⟨-, rfl⟩ := lockEngine_heap hnd hx
  · exact h e x hx
  · exact ⟨rfl, fun _ => rfl, rfl⟩

theorem Pool.Clean.update {p p' : Pool (Vm G V)} (h : p.Clean) {e : Nat}
    {f : Engine (Vm G V) → Engine (Vm G V)}
    (hheap : p'.heap = Function.update p.heap e ((p.heap e).map f))
    (hf : ∀ engine, p.heap e = some engine → (f engine).ctx.Clean) : p'.Clean := by
  intro e' x hx
  rw [hheap] at hx
  by_cases he : e' = e
  · subst he
    rw [Function.update_self] at hx
    obtain ⟨engine, heng, rfl⟩ := Option.map_eq_some_iff.mp hx
    exact hf engine heng
  · rw [Function.update_of_ne he] at hx
    exact h e' x hx

variable [DecidableEq T] [Fintype T] {exec : Exec D G E V}
  {cleans : Engine (Vm G V) → CString → CString → Option (List CString × Result D) → E → Bool → Prop}
  {s s' : PoolSys T (Vm G V)}

theorem Pool.Clean.step (h : s.pool.Clean) (hi : Inv cfg.pool s)
    (hspec : ∀ engine code name job env gcCollect, cleans engine code name job env gcCollect →
      ReturnsClean I cfg exec engine code name job env gcCollect)
    {a : Act T (Vm G V)} (hok : Executes I cfg exec cleans s a)
    (hs : Script.step cfg.pool s a = some s') : s'.pool.Clean := by
  cases a with
  | lock t ctx memory =>
    simp only [Script.step] at hs
    split at hs
    · cases hs
      cases hok
      exact lockEngine_clean hi.pool.nodup h memory
    · cases hs
  | relock t ctx memory =>
    simp only [Script.step] at hs
    split at hs
    · cases hs
      cases hok
      exact lockEngine_clean (p := countBlocked s.pool) hi.pool.nodup h memory
    · cases hs
  | spurious t =>
    simp only [Script.step] at hs
    split at hs
    · cases hs
      exact h
    · cases hs
  | execute t =>
    simp only [Script.step] at hs
    split at hs
    · cases hs
      exact h
    · cases hs
  | cycle t ctx =>
    simp only [Script.step] at hs
    split at hs
    · rename_i e ht
      cases hs
      apply h.update rfl
      intro engine heng
      obtain ⟨code, name, job, env, gcCollect, x, gc, hx, hctx, hc⟩ := hok e engine ht heng
      obtain ⟨x', gc', L, hx', hL, hlen, hset, hstray⟩ := hspec _ _ _ _ _ _ hc
      rw [hx] at hx'
      cases hx'
      rw [hctx] at hL
      cases hL
      have hclean := h e engine heng
      exact ⟨hlen.trans hclean.empty, hset, hstray.trans hclean.stray⟩
    · cases hs
  | unlock t memory W =>
    simp only [Script.step] at hs
    split at hs
    · rename_i e ht
      split at hs
      · cases hs
        apply h.update rfl
        intro engine heng
        exact h e engine heng
      · cases hs
    · cases hs

theorem Pool.Clean.reach
    (hspec : ∀ engine code name job env gcCollect, cleans engine code name job env gcCollect →
      ReturnsClean I cfg exec engine code name job env gcCollect)
    {tr : List (Act T (Vm G V))}
    (hok : Along (Script.step cfg.pool) (Executes I cfg exec cleans) .init tr)
    (hex : Machine.exec (Script.step cfg.pool) .init tr = some s) : s.pool.Clean :=
  (exec_inv (I := fun s => Inv cfg.pool s ∧ s.pool.Clean)
    (fun _ _ _ hok hi hs => ⟨hi.1.step hs, hi.2.step hi.1 hspec hok hs⟩) hok
    ⟨Inv.init, fun _ _ h => by cases h⟩ hex).2

end Pool

/-- **Engines are returned clean exactly by the executions that clean up**: from every state of the
engine, for every code, outcome and amount of workspace. Where all executions over the threads of a
pool do, every engine stays clean. -/
theorem engines_returned_clean {T : Type} [DecidableEq T] [Fintype T] (cfg : ScriptCfg) :
    (∀ I : Interp G E (LuaValue D),
      (∀ engine code name job env gcCollect,
        ReturnsClean (D := D) I cfg (executeLua I) engine code name job env gcCollect ↔
          CleansUp I cfg (luaCopied I) engine code name job env gcCollect) ∧
      ∀ (tr : List (Act T (Vm G (LuaValue D)))) (s : PoolSys T (Vm G (LuaValue D))),
        Along (step cfg.pool)
            (Executes I (D := D) cfg (executeLua I) (CleansUp I cfg (luaCopied I))) .init tr →
          exec (step cfg.pool) .init tr = some s → s.pool.Clean) ∧
    (∀ I : Interp G E (JsValue D),
      (∀ engine code name job env gcCollect,
        ReturnsClean (D := D) I cfg (executeJavascript I) engine code name job env gcCollect ↔
          CleansUp I cfg (jsCopied I) engine code name job env gcCollect) ∧
      ∀ (tr : List (Act T (Vm G (JsValue D)))) (s : PoolSys T (Vm G (JsValue D))),
        Along (step cfg.pool)
            (Executes I (D := D) cfg (executeJavascript I) (CleansUp I cfg (jsCopied I))) .init tr →
          exec (step cfg.pool) .init tr = some s → s.pool.Clean) := by
  refine ⟨fun I => ⟨executeLua_clean_iff I cfg, fun tr s hok hex => ?_⟩,
    fun I => ⟨executeJavascript_clean_iff I cfg, fun tr s hok hex => ?_⟩⟩
  · exact Pool.Clean.reach
      (fun engine code name job env gcCollect => (executeLua_clean_iff ..).2) hok hex
  · exact Pool.Clean.reach
      (fun engine code name job env gcCollect => (executeJavascript_clean_iff ..).2) hok hex

/-- The engine after a script that returned 7. -/
def sevenTrace : List (Act (Fin 1) (Vm Bool (LuaValue Nat))) :=
  [.lock 0 (.init luaTwice) 0, .execute 0, .cycle 0 ⟨true, [], fun _ => false, 0⟩, .unlock 0 0 ∅]

theorem engines_returned_clean_seven :
    ∃ s, exec (step ⟨1, 0⟩) .init sevenTrace = some s ∧ s.pool.Clean := by
  refine ⟨_, rfl, ((engines_returned_clean twiceCfg).1 luaTwice).2 sevenTrace _ ?_ rfl⟩
  refine ⟨rfl, trivial, fun e engine hpc heng => ?_, trivial, trivial⟩
  cases hpc
  cases heng
  refine ⟨.empty, .empty, some ([], .init), (1, ()), true, _, true, rfl, ?_, ⟨rfl, trivial⟩,
    fun g hg => ⟨.inl rfl, fun _ => rfl⟩⟩
  have hset := funext (fields_cleared fun _ => false)
  exact congrArg (fun set => some (true, (⟨true, [], set, 0⟩ : Vm Bool (LuaValue Nat)))) hset

/-- A library whose script returns the array `["a"]`, and a workspace with no room for a string. -/
def jsFull : Interp Unit Unit (JsValue Nat) where
  new := ()
  varnish _ := true
  lookup _ _ := some true
  load _ _ _ := some (true, ())
  stores _ x _ _ :=
    match x with
    | .varnish | .value (.array ..) | .value .object => true
    | _ => false
  argv _ _ := true
  call _ _ _ _ := some (some (.array (some 1) fun _ => .string [97]), (), ())
  gc := some
  memory _ := 0
  wsCopy _ _ := (false, ())

/-- The same in Lua: `{"a"}`. -/
def luaFull : Interp Unit Unit (LuaValue Nat) where
  new := ()
  varnish _ := true
  lookup _ _ := some true
  load _ _ _ := some (true, ())
  stores _ x _ _ :=
    match x with
    | .varnish | .value (.table _) => true
    | _ => false
  argv _ _ := true
  call _ _ _ _ := some (some (.table fun i => if i = 0 then .string [97] else .nil), (), ())
  gc := some
  memory _ := 0
  wsCopy _ _ := (false, ())

/-- In JavaScript `varnish` stays on the stack, with its fields set; in Lua the process is
aborted. -/
theorem full_workspace_leaves_engine :
    ((executeJavascript jsFull (.init jsFull) .empty .empty
        (some ([], (.init : Result Nat))) ()).map
      fun x => (x.vm.stack.length, x.vm.set .ctx, x.vm.stray)) = some (1, true, 3) ∧
    ¬ ReturnsClean jsFull twiceCfg (executeJavascript jsFull) ⟨.init jsFull, 0, 0⟩ .empty .empty
      (some ([], (.init : Result Nat))) () true ∧
    ¬ ReturnsClean luaFull twiceCfg (executeLua luaFull) ⟨.init luaFull, 0, 0⟩ .empty .empty
      (some ([], (.init : Result Nat))) () true := by
  refine ⟨rfl, ?_, ?_⟩
  · rintro ⟨x, gc, L, hx, hL, hlen, -⟩
    cases hx
    cases hL
    exact absurd hlen (by decide)
  · rintro ⟨x, gc, L, hx, -⟩
    cases hx

end VmodCfg.Script
