import VmodCfg.Script.Execute

/-!
# What executions have in common

`Interp.execute` is what `execute_lua` and `execute_javascript` share: the engine
is made ready, the script runs, and what it returned is stored before the clean-up.
The two differ in `post_execute`, and in the slot that the clean-up takes for
`varnish` when an element was left on the stack. Later proofs only use
`Interp.execute`, or what follows from it: what an execution does to the globals
of its engine (`Ran`) and to the rest of the world (`Exec.Keeps`).
-/

namespace VmodCfg.Script

universe u

section Outcome

variable {D G E V : Type u} (I : Interp G E V)

/-- Whatever is in the slot takes all three fields. -/
def Interp.takes (g : G) (x : Slot V) (b : Bool) : Bool :=
  I.stores g x .ctx b && I.stores g x .script b && I.stores g x .state b

/-- An engine is made ready: whether the code compiles, unless the function is there already, and
the globals after that. It is `none` where the globals do not let that happen: `varnish` is not what
the assertions ask for, a lookup raises an error, or the chunk does not define the function. -/
def Interp.prepare (g : G) (name code : CString) : Option (Bool × G) :=
  if I.varnish g then
    match I.lookup g name with
    | none => none
    | some true => some (true, g)
    | some false =>
      match I.load g name code with
      | none => none
      | some (false, g) => some (false, g)
      | some (true, g) => if I.lookup g name = some true then some (true, g) else none
  else none

/-- What running the code gives: the globals and the world after the call. -/
inductive Outcome (G E V : Type*) where
  | aborts
  | compileError (g : G) (env : E)
  | runtimeError (g : G) (env : E)
  | value (v : V) (g : G) (env : E)

/-- The call of the function, if `varnish` takes the fields, and `ARGV` can be set. -/
def Interp.called (g : G) (name : CString) (args : List CString) (env : E) : Outcome G E V :=
  if I.takes g .varnish true && I.argv g args then
    match I.call g name args env with
    | none => .aborts
    | some (none, g, env) => .runtimeError g env
    | some (some v, g, env) => .value v g env
  else .aborts

def Interp.outcome (g : G) (code name : CString) (args : List CString) (env : E) : Outcome G E V :=
  match I.prepare g name code with
  | none => .aborts
  | some (false, g) => .compileError g env
  | some (true, g) => I.called g name args env

def Vm.left (L : Vm G V) (g : G) : Vm G V := ⟨g, L.stack, fun _ => false, L.stray⟩

/-- The engine after a clean-up that missed `varnish`. -/
def Vm.spoiled (L : Vm G V) (g : G) : Vm G V :=
  ⟨g, .varnish :: L.stack, fun _ => true, L.stray + 3⟩

/-- How an execution ends: `post` is `post_execute`, and `missed v` the slot that the clean-up
stores to when an element is left above the value `v`. -/
def Interp.finish (post : Result D → E → V → Marshal D E) (missed : V → Slot V) (L : Vm G V)
    (r : Result D) (unknown : Bool) : Outcome G E V → Option (Executed D G E V)
  | .aborts => none
  | .compileError g env => some ⟨false, { L with globals := g }, some r, env, unknown⟩
  | .runtimeError g env =>
    if I.takes g .varnish false then
      some ⟨false, L.left g, some (r.set 0 .error), env, unknown⟩
    else none
  | .value v g env =>
    match post r env v with
    | .abort => none
    | .done ok r env 0 =>
      if I.takes g .varnish false then
        some ⟨ok, L.left g, some (if ok then r else r.set 0 .error), env, unknown⟩
      else none
    | .done ok r env (_ + 1) =>
      if I.takes g (missed v) false then
        some ⟨ok, L.spoiled g, some (if ok then r else r.set 0 .error), env, unknown⟩
      else none

/-- `execute_lua` and `execute_javascript`, apart from where they differ. -/
def Interp.execute (post : Result D → E → V → Marshal D E) (missed : V → Slot V) : Exec D G E V :=
  fun L code name job env =>
    let unknown := I.lookup L.globals name != some true
    match job with
    | none =>
      (I.prepare L.globals name code).map fun (ok, g) =>
        ⟨ok, { L with globals := g }, none, env, unknown⟩
    | some (args, r) => I.finish post missed L r unknown (I.outcome L.globals code name args env)

end Outcome

/-! ## The fields of `varnish` -/

section Fields

variable {G E V : Type u} {I : Interp G E V} {i : Nat} {b : Bool} {L : Vm G V}

theorem setField_varnish (f : Field) (h : (Slot.pushed :: L.stack)[i - 1]? = some .varnish) :
    setField I i f b L = if I.stores L.globals .varnish f b then
      some { L with set := Function.update L.set f b } else none := by
  simp only [setField, h]

theorem setField_missed (f : Field) {x : Slot V} (h : (Slot.pushed :: L.stack)[i - 1]? = some x)
    (hx : x ≠ .varnish) :
    setField I i f b L =
      if I.stores L.globals x f b then some { L with stray := L.stray + 1 } else none := by
  cases x with
  | varnish => exact absurd rfl hx
  | _ => simp only [setField, h]

theorem setFields_varnish (h : (Slot.pushed :: L.stack)[i - 1]? = some .varnish) :
    setFields I i b L =
      if I.takes L.globals .varnish b then some { L with set := fun _ => b } else none := by
  have hset : Function.update (Function.update (Function.update L.set .ctx b) .script b) .state b =
      fun _ => b := by
    funext f
    cases f <;> rfl
  unfold setFields Interp.takes
  rw [setField_varnish .ctx h]
  by_cases h₁ : I.stores L.globals .varnish .ctx b = true
  · rw [if_pos h₁, h₁, Option.bind_eq_bind, Option.bind_some, setField_varnish .script (by exact h)]
    by_cases h₂ : I.stores L.globals .varnish .script b = true
    · rw [if_pos h₂, h₂, Option.bind_some, setField_varnish .state (by exact h), hset]
      rfl
    · simp [h₂]
  · simp [h₁]

theorem setFields_missed {x : Slot V} (h : (Slot.pushed :: L.stack)[i - 1]? = some x)
    (hx : x ≠ .varnish) :
    setFields I i b L =
      if I.takes L.globals x b then some { L with stray := L.stray + 3 } else none := by
  unfold setFields Interp.takes
  rw [setField_missed .ctx h hx]
  by_cases h₁ : I.stores L.globals x .ctx b = true
  · rw [if_pos h₁, h₁, Option.bind_eq_bind, Option.bind_some, setField_missed .script (by exact h) hx]
    by_cases h₂ : I.stores L.globals x .script b = true
    · rw [if_pos h₂, h₂, Option.bind_some, setField_missed .state (by exact h) hx]
      rfl
    · simp [h₂]
  · simp [h₁]

end Fields

/-! ## The stack after `post_execute` -/

section Left

variable {D G E : Type u} {r r' : Result D} {env env' : E} {ok : Bool} {left : Nat}

/-- Only a table that was not stored whole leaves a slot on the stack. -/
theorem storeElems_left {V : Type u} {I : Interp G E V} {next : Nat → Option (Elem D)} {n i : Nat}
    (h : storeElems I next n i r env = .done ok r' env' left) : left = if ok then 0 else 1 := by
  induction n generalizing i r env with
  | zero =>
    cases h
    rfl
  | succ n ih =>
    unfold storeElems at h
    split at h
    · cases h
      rfl
    · split at h
      · cases h
      · cases h
        rfl
      · exact ih h

theorem storeElems_left_le {V : Type u} {I : Interp G E V} {next : Nat → Option (Elem D)} {n i : Nat}
    (h : storeElems I next n i r env = .done ok r' env' left) : left ≤ 1 := by
  rw [storeElems_left h]
  split <;> omega

theorem luaPostExecute_left {I : Interp G E (LuaValue D)} {v : LuaValue D}
    (h : luaPostExecute I r env v = .done ok r' env' left) : left ≤ 1 := by
  cases v with
  | table elems => exact storeElems_left_le h
  | _ =>
    cases h
    exact Nat.zero_le 1

theorem jsPostExecute_left {I : Interp G E (JsValue D)} {v : JsValue D}
    (h : jsPostExecute I r env v = .done ok r' env' left) : left ≤ 1 := by
  cases v with
  | array length elems =>
    cases length with
    | none => cases h
    | some length => exact storeElems_left_le h
  | _ =>
    cases h
    exact Nat.zero_le 1

end Left

/-! ## The two executions -/

section Shell

variable {D G E V : Type u} {I : Interp G E V} {post : Result D → E → V → Marshal D E}
  {missed : V → Slot V} {L : Vm G V} {code name : CString}
  {job : Option (List CString × Result D)} {env : E}

/-- An execution is known by its calls of a function that is ready. -/
theorem execute_of_run (run : G → Bool → Option (Executed D G E V))
    (hrun : ∀ g unknown, run g unknown =
      match job with
      | none => some ⟨true, { L with globals := g }, none, env, unknown⟩
      | some (args, r) => I.finish post missed L r unknown (I.called g name args env)) :
    (if I.varnish L.globals then
      match I.lookup L.globals name with
      | none => none
      | some true => run L.globals false
      | some false =>
        match I.load L.globals name code with
        | none => none
        | some (true, g) => if I.lookup g name = some true then run g true else none
        | some (false, g) => some ⟨false, { L with globals := g }, job.map Prod.snd, env, true⟩
    else none) = I.execute post missed L code name job env := by
  unfold Interp.execute Interp.outcome Interp.prepare
  cases I.varnish L.globals with
  | false => cases job <;> rfl
  | true =>
    rcases hl : I.lookup L.globals name with _ | _ | _
    · cases job <;> rfl
    · rcases I.load L.globals name code with _ | ⟨_ | _, g⟩
      · cases job <;> rfl
      · cases job <;> rfl
      · by_cases hf : I.lookup g name = some true
        · cases job with
          | none => simp [hf, hrun]
          | some j =>
            simp only [hf, hrun, if_true]
            rfl
        · cases job <;> simp [hf, Interp.finish]
    · cases job <;> simp [hrun]

end Shell

section Lua

variable {D G E : Type u} (I : Interp G E (LuaValue D))

variable {I} in
theorem luaClean_varnish (g : G) (x y : Slot (LuaValue D)) (stack : List (Slot (LuaValue D)))
    (set : Field → Bool) (stray : Nat) :
    luaClean I ⟨g, x :: y :: .varnish :: stack, set, stray⟩ =
      if I.takes g .varnish false then some ⟨g, stack, fun _ => false, stray⟩ else none := by
  unfold luaClean Vm.pop
  rw [setFields_varnish rfl]
  dsimp only
  cases I.takes g .varnish false <;> rfl

variable {I} in
/-- With an element left on the stack, the handler is where `varnish` should be. -/
theorem luaClean_missed (g : G) (x y : Slot (LuaValue D)) (stack : List (Slot (LuaValue D)))
    (set : Field → Bool) (stray : Nat) :
    luaClean I ⟨g, x :: y :: .handler :: stack, set, stray⟩ =
      if I.takes g .handler false then some ⟨g, stack, set, stray + 3⟩ else none := by
  unfold luaClean Vm.pop
  rw [setFields_missed rfl (by simp)]
  dsimp only
  cases I.takes g .handler false <;> rfl

theorem luaRun_eq (L : Vm G (LuaValue D)) (g : G) (name : CString) (args : List CString)
    (r : Result D) (env : E) (unknown : Bool) :
    luaRun I ⟨g, .function :: .handler :: .varnish :: L.stack, L.set, L.stray⟩ name
        (some (args, r)) env unknown =
      I.finish (luaPostExecute I) (fun _ => .handler) L r unknown (I.called g name args env) := by
  unfold luaRun Interp.called
  simp only
  rw [setFields_varnish (i := 4) rfl]
  cases htakes : I.takes g .varnish true with
  | false => rfl
  | true =>
    cases hargv : I.argv g args with
    | false => simp [hargv, Interp.finish]
    | true =>
      rcases hcall : I.call g name args env with _ | ⟨_ | v, g', env'⟩
      · simp [hargv, hcall, Interp.finish]
      · simp only [hargv, hcall, Vm.pop, Vm.push, Interp.finish, List.drop, luaClean_varnish,
          Option.bind_eq_bind, Option.bind_some, if_true, Bool.and_self]
        cases I.takes g' .varnish false <;> rfl
      · simp only [hargv, hcall, Vm.pop, Interp.finish, List.drop,
          Option.bind_eq_bind, Option.bind_some, if_true, Bool.and_self]
        cases hpost : luaPostExecute I r env' v with
        | abort => rfl
        | done ok r' env'' left =>
          obtain rfl | rfl : left = 0 ∨ left = 1 := by
            have := luaPostExecute_left hpost
            omega
          · simp only [List.replicate, List.nil_append, luaClean_varnish]
            cases I.takes g' .varnish false <;> rfl
          · simp only [List.replicate, List.cons_append, List.nil_append, luaClean_missed]
            cases I.takes g' .handler false <;> rfl

/-- **`execute_lua` is `Interp.execute`**, with the error handler as the slot that is missed. -/
theorem executeLua_eq : executeLua I = I.execute (luaPostExecute (D := D) I) fun _ => .handler := by
  funext L code name job env
  refine execute_of_run (fun g unknown =>
    luaRun I ⟨g, .function :: .handler :: .varnish :: L.stack, L.set, L.stray⟩ name job env unknown)
    fun g unknown => ?_
  cases job with
  | none => rfl
  | some j => exact luaRun_eq I L g name j.1 j.2 env unknown

end Lua

section JavaScript

variable {D G E : Type u} (I : Interp G E (JsValue D))

variable {I} in
theorem jsClean_varnish (g : G) (x : Slot (JsValue D)) (stack : List (Slot (JsValue D)))
    (set : Field → Bool) (stray : Nat) :
    jsClean I ⟨g, x :: .varnish :: stack, set, stray⟩ =
      if I.takes g .varnish false then some ⟨g, stack, fun _ => false, stray⟩ else none := by
  unfold jsClean Vm.pop
  rw [setFields_varnish rfl]
  dsimp only
  cases I.takes g .varnish false <;> rfl

variable {I} in
/-- With an element left on the stack, the value is where `varnish` should be. -/
theorem jsClean_missed (g : G) (x : Slot (JsValue D)) (v : JsValue D)
    (stack : List (Slot (JsValue D))) (set : Field → Bool) (stray : Nat) :
    jsClean I ⟨g, x :: .value v :: stack, set, stray⟩ =
      if I.takes g (.value v) false then some ⟨g, stack, set, stray + 3⟩ else none := by
  unfold jsClean Vm.pop
  rw [setFields_missed rfl (by simp)]
  dsimp only
  cases I.takes g (.value v) false <;> rfl

theorem jsRun_eq (L : Vm G (JsValue D)) (g : G) (name : CString) (args : List CString)
    (r : Result D) (env : E) (unknown : Bool) :
    jsRun I ⟨g, .function :: .varnish :: L.stack, L.set, L.stray⟩ name
        (some (args, r)) env unknown =
      I.finish (jsPostExecute I) Slot.value L r unknown (I.called g name args env) := by
  unfold jsRun Interp.called
  simp only
  rw [setFields_varnish (i := 3) rfl]
  cases htakes : I.takes g .varnish true with
  | false => rfl
  | true =>
    cases hargv : I.argv g args with
    | false => simp [hargv, Interp.finish]
    | true =>
      rcases hcall : I.call g name args env with _ | ⟨_ | v, g', env'⟩
      · simp [hargv, hcall, Interp.finish]
      · simp only [hargv, hcall, Vm.pop, Vm.push, Interp.finish, List.drop, jsClean_varnish,
          Option.bind_eq_bind, Option.bind_some, if_true, Bool.and_self]
        cases I.takes g' .varnish false <;> rfl
      · simp only [hargv, hcall, Vm.pop, Interp.finish, List.drop,
          Option.bind_eq_bind, Option.bind_some, if_true, Bool.and_self]
        cases hpost : jsPostExecute I r env' v with
        | abort => rfl
        | done ok r' env'' left =>
          obtain rfl | rfl : left = 0 ∨ left = 1 := by
            have := jsPostExecute_left hpost
            omega
          · simp only [List.replicate, List.nil_append, jsClean_varnish]
            cases I.takes g' .varnish false <;> rfl
          · simp only [List.replicate, List.cons_append, List.nil_append, jsClean_missed]
            cases I.takes g' (.value v) false <;> rfl

/-- **`execute_javascript` is `Interp.execute`**, with the array as the slot that is missed. -/
theorem executeJavascript_eq : executeJavascript I = I.execute (jsPostExecute (D := D) I) Slot.value := by
  funext L code name job env
  refine execute_of_run (fun g unknown =>
    jsRun I ⟨g, .function :: .varnish :: L.stack, L.set, L.stray⟩ name job env unknown)
    fun g unknown => ?_
  cases job with
  | none => rfl
  | some j => exact jsRun_eq I L g name j.1 j.2 env unknown

end JavaScript

/-! ## What an execution does -/

section Ran

variable {D G E V : Type u} {I : Interp G E V} {post : Result D → E → V → Marshal D E}
  {missed : V → Slot V}

/-- How an execution with a result register returns. -/
inductive Finishes (I : Interp G E V) (post : Result D → E → V → Marshal D E) (L : Vm G V)
    (r : Result D) : Outcome G E V → Executed D G E V → Prop
  | compileError {g env x} (hs : x.success = false) (hvm : x.vm = { L with globals := g })
    (hr : x.result = some r) (henv : x.env = env) : Finishes I post L r (.compileError g env) x
  | runtimeError {g env x} (hc : I.takes g .varnish false = true) (hs : x.success = false)
    (hvm : x.vm = L.left g) (hr : x.result = some (r.set 0 .error)) (henv : x.env = env) :
    Finishes I post L r (.runtimeError g env) x
  | value {v g env ok r' env' left x} (hpost : post r env v = .done ok r' env' left)
    (hs : x.success = ok) (hvm : x.vm = if left = 0 then L.left g else L.spoiled g)
    (hc : left = 0 → I.takes g .varnish false = true)
    (hr : x.result = some (if ok then r' else r'.set 0 .error)) (henv : x.env = env') :
    Finishes I post L r (.value v g env) x

theorem finish_finishes {L : Vm G V} {r : Result D} {unknown : Bool} {o : Outcome G E V}
    {x : Executed D G E V} (h : I.finish post missed L r unknown o = some x) :
    Finishes I post L r o x := by
  unfold Interp.finish at h
  split at h
  · cases h
  · cases h
    exact .compileError rfl rfl rfl rfl
  · split at h
    · rename_i hc
      cases h
      exact .runtimeError hc rfl rfl rfl rfl
    · cases h
  · split at h
    · cases h
    · rename_i hpost
      split at h
      · rename_i hc
        cases h
        exact .value hpost rfl rfl (fun _ => hc) rfl rfl
      · cases h
    · rename_i hpost
      split at h
      · cases h
        exact .value hpost rfl rfl (fun h0 => by cases h0) rfl rfl
      · cases h

/-- What an execution does in an engine with globals `g`: the load fails; or the function is there,
and is not called, or called. -/
inductive Ran (I : Interp G E V) (g : G) (code name : CString)
    (job : Option (List CString × Result D)) (env : E) : Executed D G E V → Prop
  | broken {g₁ x} (hp : I.prepare g name code = some (false, g₁)) (hs : x.success = false)
    (hg : x.vm.globals = g₁) : Ran I g code name job env x
  | compiled {g₁ x} (hp : I.prepare g name code = some (true, g₁)) (hjob : job = none)
    (hs : x.success = true) (hg : x.vm.globals = g₁) : Ran I g code name job env x
  | called {g₁ args r v g₂ env' x} (hp : I.prepare g name code = some (true, g₁))
    (hjob : job = some (args, r)) (hc : I.call g₁ name args env = some (v, g₂, env'))
    (hs : x.success = true → v.isSome) (hg : x.vm.globals = g₂) : Ran I g code name job env x

/-- `execute_lua` or `execute_javascript`: its effects on the globals are those of `Ran`. -/
def Exec.Obeys (I : Interp G E V) (exec : Exec D G E V) : Prop :=
  ∀ ⦃L code name job env x⦄, exec L code name job env = some x →
    Ran I L.globals code name job env x

theorem execute_ran (I : Interp G E V) (post : Result D → E → V → Marshal D E)
    (missed : V → Slot V) : Exec.Obeys I (I.execute post missed) := by
  intro L code name job env x h
  unfold Interp.execute at h
  cases job with
  | none =>
    obtain ⟨⟨ok, g⟩, hp, rfl⟩ := Option.map_eq_some_iff.mp h
    cases ok with
    | false => exact .broken hp rfl rfl
    | true => exact .compiled hp rfl rfl rfl
  | some j =>
    have hfin := finish_finishes h
    unfold Interp.outcome at hfin
    rcases hp : I.prepare L.globals name code with _ | ⟨_ | _, g⟩
    · rw [hp] at hfin
      cases hfin
    · rw [hp] at hfin
      cases hfin with
      | compileError hs hvm hr henv => exact .broken hp hs (congrArg Vm.globals hvm)
    · rw [hp] at hfin
      simp only [Interp.called] at hfin
      split at hfin
      · rcases hc : I.call g name j.1 env with _ | ⟨_ | v, g', env'⟩
        · rw [hc] at hfin
          cases hfin
        · rw [hc] at hfin
          cases hfin with
          | runtimeError ht hs hvm hr henv =>
            refine .called hp rfl hc (fun hx => ?_) (congrArg Vm.globals hvm)
            rw [hs] at hx
            cases hx
        · rw [hc] at hfin
          cases hfin with
          | value hpost hs hvm ht hr henv =>
            refine .called hp rfl hc (fun _ => rfl) ?_
            rw [hvm]
            split <;> rfl
      · cases hfin

theorem executeLua_ran {D G E : Type u} (I : Interp G E (LuaValue D)) :
    Exec.Obeys I (executeLua (D := D) I) := by
  rw [executeLua_eq]
  exact execute_ran ..

theorem executeJavascript_ran {D G E : Type u} (I : Interp G E (JsValue D)) :
    Exec.Obeys I (executeJavascript (D := D) I) := by
  rw [executeJavascript_eq]
  exact execute_ran ..

/-- The engine lets an execution pass, and knows the function, or does after a load. -/
def Interp.readies (I : Interp G E V) (g : G) (name code : CString) : Bool :=
  match I.prepare g name code with
  | some (ok, _) => ok
  | none => false

/-- An execution without a result register makes the engine ready, and does nothing else. -/
def Exec.Checks (I : Interp G E V) (exec : Exec D G E V) : Prop :=
  ∀ L code name env, (exec L code name none env).map (fun x => (x.success, x.vm.globals)) =
    I.prepare L.globals name code

theorem execute_checks (I : Interp G E V) (post : Result D → E → V → Marshal D E)
    (missed : V → Slot V) : Exec.Checks I (I.execute post missed) := by
  intro L code name env
  rw [Interp.execute, Option.map_map]
  exact Option.map_id'

theorem executeLua_checks {D G E : Type u} (I : Interp G E (LuaValue D)) :
    Exec.Checks I (executeLua (D := D) I) := by
  rw [executeLua_eq]
  exact execute_checks I _ _

theorem executeJavascript_checks {D G E : Type u} (I : Interp G E (JsValue D)) :
    Exec.Checks I (executeJavascript (D := D) I) := by
  rw [executeJavascript_eq]
  exact execute_checks I _ _

/-- An execution that returned without having called anything has succeeded if the engine is
ready. -/
theorem Exec.Checks.success {exec : Exec D G E V} (h : exec.Checks I) {L : Vm G V}
    {code name : CString} {env : E} {x : Executed D G E V}
    (hx : exec L code name none env = some x) :
    x.success = I.readies L.globals name code := by
  have hc := h L code name env
  rw [hx, Option.map_some] at hc
  rw [Interp.readies, ← hc]

theorem Exec.Checks.returns {exec : Exec D G E V} (h : exec.Checks I) {L : Vm G V}
    {code name : CString} {g : G} (hp : I.prepare L.globals name code = some (true, g)) (env : E) :
    ∃ x, exec L code name none env = some x ∧ x.success = true ∧ x.vm.globals = g := by
  have hc := h L code name env
  rw [hp] at hc
  obtain ⟨x, hx, heq⟩ := Option.map_eq_some_iff.mp hc
  exact ⟨x, hx, congrArg Prod.fst heq, congrArg Prod.snd heq⟩

theorem readies_iff {g : G} {name code : CString} :
    I.readies g name code = true ↔ ∃ g', I.prepare g name code = some (true, g') := by
  unfold Interp.readies
  rcases I.prepare g name code with _ | ⟨_ | _, g'⟩ <;> simp

/-- `P` holds of new globals, and loads, calls and collections keep it. -/
structure Interp.Closed (I : Interp G E V) (P : G → Prop) : Prop where
  new : P I.new
  load : ∀ g name code ok g', I.load g name code = some (ok, g') → P g → P g'
  call : ∀ g name args env v g' env', I.call g name args env = some (v, g', env') → P g → P g'
  gc : ∀ g g', I.gc g = some g' → P g → P g'

theorem prepare_closed {P : G → Prop} (hI : I.Closed P) {g g₁ : G} {name code : CString}
    {ok : Bool} (h : I.prepare g name code = some (ok, g₁)) (hg : P g) : P g₁ := by
  unfold Interp.prepare at h
  split at h
  · split at h
    · cases h
    · cases h
      exact hg
    · split at h
      · cases h
      · rename_i hl
        cases h
        exact hI.load _ _ _ _ _ hl hg
      · rename_i hl
        split at h
        · cases h
          exact hI.load _ _ _ _ _ hl hg
        · cases h
  · cases h

theorem prepare_lookup {g g₁ : G} {name code : CString}
    (h : I.prepare g name code = some (true, g₁)) : I.lookup g₁ name = some true := by
  unfold Interp.prepare at h
  split at h
  · split at h
    · cases h
    · rename_i hl
      cases h
      exact hl
    · split at h
      · cases h
      · cases h
      · split at h
        · rename_i hl
          cases h
          exact hl
        · cases h
  · cases h

theorem ran_closed {P : G → Prop} (hI : I.Closed P) {g : G} {code name : CString}
    {job : Option (List CString × Result D)} {env : E} {x : Executed D G E V}
    (h : Ran I g code name job env x) (hg : P g) : P x.vm.globals := by
  cases h with
  | broken hp hs hx =>
    rw [hx]
    exact prepare_closed hI hp hg
  | compiled hp hjob hs hx =>
    rw [hx]
    exact prepare_closed hI hp hg
  | called hp hjob hc hs hx =>
    rw [hx]
    exact hI.call _ _ _ _ _ _ _ hc (prepare_closed hI hp hg)

end Ran

/-! ## The engines -/

section Engines

variable {C : Type*} {cfg : PoolCfg} {p : Pool C}

theorem lockEngine_heap (hnd : (p.free ++ p.busy).Nodup) {ctx : C} {memory : Int} {e : EngineId}
    {x : Engine C} (h : (lockEngine cfg p ctx memory).2.heap e = some x) :
    p.heap e = some x ∨ (e = p.fresh ∧ x = ⟨ctx, 0, memory⟩) := by
  obtain ⟨d, hd⟩ := extractFree_spec cfg p.free p rfl hnd
  have hold : ∀ {y}, (extractFree cfg p.free p).2.heap e = some y → p.heap e = some y := by
    intro y hy
    rw [hd.heap] at hy
    split at hy
    · cases hy
    · exact hy
  unfold lockEngine at h
  split at h
  · rename_i e₁ q heq
    rw [heq] at hold
    exact .inl (hold h)
  · rename_i q heq
    rw [heq] at hold hd
    split at h
    · exact .inl (hold h)
    · by_cases he : e = q.fresh
      · rw [he] at h
        simp only [createEngine, Function.update_self, Option.some.injEq] at h
        exact .inr ⟨he.trans hd.fresh, h.symm⟩
      · simp only [createEngine, Function.update_of_ne he] at h
        exact .inl (hold h)

end Engines

/-! ## An execution, apart from the return of the engine -/

section Run

variable {D G E V : Type u} (I : Interp G E V) (cfg : ScriptCfg)

/-- `execute_lua` or `execute_javascript` from the engine up to `unlock_engine`. -/
def runOn (exec : Exec D G E V) (p : Pool (Vm G V)) (e : EngineId) (code name : CString)
    (job : Option (List CString × Result D)) (env : E) (gcCollect : Bool) :
    Ends (Executed D G E V × Pool (Vm G V)) :=
  match p.heap e with
  | none => .aborted
  | some engine =>
    match exec engine.ctx code name job env with
    | none => .aborted
    | some x =>
      match callCollector I cfg engine.ncycles gcCollect x.vm with
      | none => .aborted
      | some (gc, vm) =>
        .returned (x, cycleEngine
          { p with stats := countExecution p.stats x.unknown x.success gc } e vm)

def usedMemory (p : Pool (Vm G V)) (e : EngineId) : Int :=
  match p.heap e with
  | some engine => I.memory engine.ctx.globals
  | none => 0

theorem executeOn_eq (exec : Exec D G E V) (p : Pool (Vm G V)) (e : EngineId)
    (code name : CString) (job : Option (List CString × Result D)) (env : E) (gcCollect : Bool) :
    executeOn I cfg exec p e code name job env gcCollect =
      (runOn I cfg exec p e code name job env gcCollect).map fun (x, p) =>
        (x, unlockEngine p e (usedMemory I p e)) := by
  unfold executeOn runOn
  cases heng : p.heap e with
  | none => rfl
  | some engine =>
    cases hx : exec engine.ctx code name job env with
    | none => simp [hx, Ends.map]
    | some x =>
      simp only [hx]
      rcases callCollector I cfg engine.ncycles gcCollect x.vm with _ | ⟨gc, vm⟩
      · rfl
      · simp [Ends.map, usedMemory, cycleEngine, heng]

variable {I cfg}

theorem callCollector_spec {ncycles : UInt32} {gcCollect gc : Bool} {L L' : Vm G V}
    (h : callCollector I cfg ncycles gcCollect L = some (gc, L')) :
    L' = { L with globals := L'.globals } ∧
      (L'.globals = L.globals ∨ I.gc L.globals = some L'.globals) := by
  unfold callCollector at h
  split at h
  · cases h
  · split at h
    · obtain ⟨g, hg, heq⟩ := Option.map_eq_some_iff.mp h
      cases heq
      exact ⟨rfl, .inr hg⟩
    · cases h
      exact ⟨rfl, .inl rfl⟩

/-- If the garbage is collected after an execution, no finalizer raises an error. -/
def Finalizes (I : Interp G E V) (cfg : ScriptCfg) (ncycles : UInt32) (gcCollect : Bool) (g : G) :
    Prop :=
  (gcCollect || (ncycles + 1) % cfg.minGcCycles == 0) = true → (I.gc g).isSome

/-- The collection that may follow an execution returns: the division by `min_gc_cycles` does not
trap either. -/
def Collects (I : Interp G E V) (cfg : ScriptCfg) (ncycles : UInt32) (gcCollect : Bool) (g : G) :
    Prop :=
  (gcCollect = true ∨ cfg.minGcCycles ≠ 0) ∧ Finalizes I cfg ncycles gcCollect g

theorem callCollector_isSome_iff {ncycles : UInt32} {gcCollect : Bool} {L : Vm G V} :
    (callCollector I cfg ncycles gcCollect L).isSome ↔
      Collects I cfg ncycles gcCollect L.globals := by
  unfold callCollector Collects Finalizes
  by_cases htrap : gcCollect = false ∧ cfg.minGcCycles = 0
  · rw [if_pos htrap]
    simp [htrap.1, htrap.2]
  · have hok : gcCollect = true ∨ cfg.minGcCycles ≠ 0 := by
      rcases Bool.eq_false_or_eq_true gcCollect with hgc | hgc
      · exact .inl hgc
      · exact .inr fun hzero => htrap ⟨hgc, hzero⟩
    rw [if_neg htrap, and_iff_right hok]
    split <;> simp_all

theorem callCollector_closed {P : G → Prop} (hI : I.Closed P) {ncycles : UInt32}
    {gcCollect gc : Bool} {L L' : Vm G V}
    (h : callCollector I cfg ncycles gcCollect L = some (gc, L')) (hP : P L.globals) :
    P L'.globals := by
  obtain ⟨-, heq | hgc⟩ := callCollector_spec h
  · rwa [heq]
  · exact hI.gc _ _ hgc hP

/-- What a run does to the pool: the execution is counted, and the engine is as the execution and
the collector leave it. -/
theorem runOn_spec {exec : Exec D G E V} {p q : Pool (Vm G V)} {e : EngineId}
    {code name : CString} {job : Option (List CString × Result D)} {env : E} {gcCollect : Bool}
    {x : Executed D G E V}
    (h : runOn I cfg exec p e code name job env gcCollect = .returned (x, q)) :
    ∃ engine gc vm, p.heap e = some engine ∧ exec engine.ctx code name job env = some x ∧
      callCollector I cfg engine.ncycles gcCollect x.vm = some (gc, vm) ∧
      q = cycleEngine { p with stats := countExecution p.stats x.unknown x.success gc } e vm := by
  unfold runOn at h
  split at h
  · cases h
  · rename_i engine heng
    split at h
    · cases h
    · rename_i x₁ hx
      split at h
      · cases h
      · rename_i gc vm hgc
        cases h
        exact ⟨engine, gc, vm, heng, hx, hgc, rfl⟩

theorem countExecution_ok {C : Type*} {cfg : PoolCfg} {p : Pool C} (hp : PoolOk cfg p)
    (unknown success gc : Bool) :
    PoolOk cfg { p with stats := countExecution p.stats unknown success gc } :=
  ⟨hp.nodup, hp.count, hp.bound, hp.live, hp.old, hp.created⟩

end Run

/-! ## The rest of the world -/

section Keeps

variable {D G E V : Type u}

/-- Calls, and copies to the workspace, keep a property of the rest of the world. -/
structure Interp.Keeps (I : Interp G E V) (P : E → Prop) : Prop where
  call : ∀ g name args env v g' env', I.call g name args env = some (v, g', env') → P env → P env'
  wsCopy : ∀ env s, P env → P (I.wsCopy env s).2

def Outcome.Keeps (P : E → Prop) : Outcome G E V → Prop
  | .aborts => True
  | .compileError _ env | .runtimeError _ env | .value _ _ env => P env

/-- What an execution leaves of the rest of the world has the property if it had it before. -/
def Exec.Keeps (exec : Exec D G E V) (P : E → Prop) : Prop :=
  ∀ ⦃L code name job env x⦄, exec L code name job env = some x → P env → P x.env

section Store

variable {I : Interp G E V} {P : E → Prop} {env env' : E}

theorem storeString_keeps (hI : I.Keeps P) (s : List UInt8) (henv : P env) :
    P (storeString (D := D) I env s).2.2 := by
  have hcopy := hI.wsCopy env (.ofBytes s) henv
  unfold storeString
  split <;> rename_i heq <;> rwa [heq] at hcopy

theorem storeElem_keeps (hI : I.Keeps P) {e : Elem D} {ok : Bool} {v : ResultValue D}
    (h : storeElem I env e = some (ok, v, env')) (henv : P env) : P env' := by
  have hstring : ∀ {s : List UInt8}, some (storeString I env s) = some (ok, v, env') → P env' := by
    intro s hs
    have hstore := storeString_keeps (D := D) hI s henv
    rwa [Option.some.inj hs] at hstore
  cases e with
  | string s => exact hstring h
  | symbol text => exact hstring h
  | raises => cases h
  | _ =>
    cases h
    exact henv

theorem storeElems_keeps (hI : I.Keeps P) {next : Nat → Option (Elem D)} {n i : Nat}
    {r r' : Result D} {ok : Bool} {left : Nat}
    (h : storeElems I next n i r env = .done ok r' env' left) (henv : P env) : P env' := by
  induction n generalizing i r env with
  | zero =>
    cases h
    exact henv
  | succ n ih =>
    unfold storeElems at h
    split at h
    · cases h
      exact henv
    · split at h
      · cases h
      · rename_i hstore
        cases h
        exact storeElem_keeps hI hstore henv
      · rename_i hstore
        exact ih h (storeElem_keeps hI hstore henv)

end Store

theorem luaPostExecute_keeps {I : Interp G E (LuaValue D)} {P : E → Prop} (hI : I.Keeps P)
    {r r' : Result D} {env env' : E} {v : LuaValue D} {ok : Bool} {left : Nat}
    (h : luaPostExecute I r env v = .done ok r' env' left) (henv : P env) : P env' := by
  cases v with
  | table elems => exact storeElems_keeps hI h henv
  | string s =>
    cases h
    exact storeString_keeps hI s henv
  | _ =>
    cases h
    exact henv

theorem jsPostExecute_keeps {I : Interp G E (JsValue D)} {P : E → Prop} (hI : I.Keeps P)
    {r r' : Result D} {env env' : E} {v : JsValue D} {ok : Bool} {left : Nat}
    (h : jsPostExecute I r env v = .done ok r' env' left) (henv : P env) : P env' := by
  cases v with
  | array length elems =>
    cases length with
    | none => cases h
    | some length => exact storeElems_keeps hI h henv
  | string s | symbol s =>
    cases h
    exact storeString_keeps hI s henv
  | _ =>
    cases h
    exact henv

theorem called_keeps {I : Interp G E V} {P : E → Prop} (hI : I.Keeps P) {g : G} {name : CString}
    {args : List CString} {env : E} (henv : P env) : (I.called g name args env).Keeps P := by
  unfold Interp.called
  split
  · rcases hc : I.call g name args env with _ | ⟨_ | v, g', env'⟩
    · trivial
    · exact hI.call _ _ _ _ _ _ _ hc henv
    · exact hI.call _ _ _ _ _ _ _ hc henv
  · trivial

theorem execute_keeps {I : Interp G E V} {P : E → Prop} (hI : I.Keeps P)
    {post : Result D → E → V → Marshal D E} {missed : V → Slot V}
    (hpost : ∀ {r r' env env' v ok left}, post r env v = .done ok r' env' left → P env → P env') :
    Exec.Keeps (I.execute post missed) P := by
  intro L code name job env x h henv
  unfold Interp.execute at h
  cases job with
  | none =>
    obtain ⟨⟨ok, g⟩, hp, rfl⟩ := Option.map_eq_some_iff.mp h
    exact henv
  | some j =>
    have hout : (I.outcome L.globals code name j.1 env).Keeps P := by
      unfold Interp.outcome
      split
      · trivial
      · exact henv
      · exact called_keeps hI henv
    have hfin := finish_finishes h
    generalize I.outcome L.globals code name j.1 env = o at hfin hout
    cases hfin with
    | compileError hs hvm hr he => rwa [he]
    | runtimeError hc hs hvm hr he => rwa [he]
    | value hp hs hvm hc hr he =>
      rw [he]
      exact hpost hp hout

theorem executeLua_keeps {D G E : Type u} {I : Interp G E (LuaValue D)} {P : E → Prop}
    (hI : I.Keeps P) : Exec.Keeps (executeLua (D := D) I) P := by
  rw [executeLua_eq]
  exact execute_keeps hI (luaPostExecute_keeps hI)

theorem executeJavascript_keeps {D G E : Type u} {I : Interp G E (JsValue D)} {P : E → Prop}
    (hI : I.Keeps P) : Exec.Keeps (executeJavascript (D := D) I) P := by
  rw [executeJavascript_eq]
  exact execute_keeps hI (jsPostExecute_keeps hI)

end Keeps

section Task

variable {D G E S V : Type u} {I : Interp G (E × S) V} {cfg : ScriptCfg}

def Selection.Keeps {E : Type u} (P : E → Prop) : Selection E → Prop
  | .overflow env | .code _ _ _ env => P env
  | _ => True

theorem selectCode_keeps {P : E × S → Prop} (hI : I.Keeps P) (s : ScriptState G V)
    (x : Execution D) {env : E × S} (henv : P env) : (selectCode I s x env).Keeps P := by
  unfold selectCode
  split
  · trivial
  · exact henv
  · trivial
  · rename_i code name _ _ _
    have hcopied := hI.wsCopy _ name (hI.wsCopy env code henv)
    simp only
    split <;> exact hcopied

theorem executeOn_keeps {E : Type u} {I : Interp G E V} {exec : Exec D G E V} {P : E → Prop}
    (hexec : exec.Keeps P) {p p' : Pool (Vm G V)} {e : EngineId} {code name : CString}
    {job : Option (List CString × Result D)} {env : E} {gcCollect : Bool} {x : Executed D G E V}
    (h : executeOn I cfg exec p e code name job env gcCollect = .returned (x, p')) (henv : P env) :
    P x.env := by
  unfold executeOn at h
  split at h
  · cases h
  · split at h
    · cases h
    · rename_i hx
      split at h
      · cases h
      · cases h
        exact hexec hx henv

/-- `vmod_script_execute` changes the variables of the task only through the script. -/
theorem vmodScriptExecute_taskVariables {exec : Exec D G (E × S) V} {vars : S}
    (hI : I.Keeps fun env => env.2 = vars) (hexec : exec.Keeps fun env => env.2 = vars)
    {s s' : ScriptState G V} {st st' : TaskState D S} {env env' : E} {gcCollect : Bool}
    (hst : st.taskVariables = vars)
    (h : vmodScriptExecute I cfg exec s st env gcCollect = .returned (st', s', env')) :
    st'.taskVariables = vars := by
  have hselect : (selectCode I s st.execution (env, st.taskVariables)).Keeps
      fun env => env.2 = vars := selectCode_keeps hI s st.execution hst
  unfold vmodScriptExecute at h
  split at h
  · cases h
    exact hst
  · cases h
    exact hst
  · rename_i heq
    rw [heq] at hselect
    cases h
    exact hselect
  · rename_i args code name env₁ heq
    rw [heq] at hselect
    unfold apiExecute at h
    split at h
    · cases h
    · rename_i e p _
      cases hrun : executeOn I cfg exec p e code (name.getD (cfg.functionName code))
          (some (args, st.execution.result)) env₁ gcCollect with
      | blocked =>
        rw [hrun] at h
        cases h
      | aborted =>
        rw [hrun] at h
        cases h
      | returned y =>
        rw [hrun] at h
        cases h
        exact executeOn_keeps hexec hrun hselect

end Task

end VmodCfg.Script
