import VmodCfg.Lib.Linearize
import VmodCfg.Script.Program

/-!
# Scripts that call `shared.incr`

A `Source` is a script in which the calls of `shared.incr` can be seen. Its `code` jumps to the
code of the helper, as a call does, and the helper jumps back to what comes after the call; so the
threads that execute it are those of the system.
-/

namespace VmodCfg.Shared

open Locking Script

structure Incr (D : Type) where
  key : Option CString
  increment : Value D
  scope : Option CString

inductive Source (K D V : Type) where
  | jump (k : K)
  | ret (v : V)
  | raise (e : V)
  | get (key scope : Option CString) (next : Option CString → Source K D V)
  | set (key value scope : Option CString) (next : Source K D V)
  | unset (key scope : Option CString) (next : Source K D V)
  | regmatch (string regexp : Option CString) (cache : Bool) (next : Bool → Source K D V)
  | regsub (string regexp sub : Option CString) (cache all : Bool)
      (next : Option CString → Source K D V)
  | eval (body : Source K D V) (next : V → Source K D V)
  | protect (body : Source K D V) (next : Except V V → Source K D V)
  | incr (c : Incr D) (next : V → Source K D V)

/-- The program points of a script: its own, the start of a call of `shared.incr`, and the return
of its value. -/
inductive Label (K D V : Type) where
  | point (k : K)
  | incr (c : Incr D) (next : V → Source K D V)
  | back (c : Incr D) (v : V) (next : V → Source K D V)

section Sources

variable {K D V : Type}

def Source.code : Source K D V → Code (Label K D V) V
  | .jump k => .jump (.point k)
  | .ret v => .ret v
  | .raise e => .raise e
  | .get key scope next => .get key scope fun value => (next value).code
  | .set key value scope next => .set key value scope next.code
  | .unset key scope next => .unset key scope next.code
  | .regmatch string regexp cache next => .regmatch string regexp cache fun b => (next b).code
  | .regsub string regexp sub cache all next =>
    .regsub string regexp sub cache all fun value => (next value).code
  | .eval body next => .eval body.code fun v => (next v).code
  | .protect body next => .protect body.code fun r => (next r).code
  | .incr c next => .jump (.incr c next)

/-- The language of an engine, with the calls of `shared.incr` in its scripts. -/
structure Sources (K D V : Type) where
  numbers : Numbers D
  parse : CString → Option (Source K D V)
  defs : K → Source K D V
  value : Value D → V
  error : CString → V
  typeName : Value D → CString
  accessors : V → List (Source K D V)

variable (P : Sources K D V)

def Sources.helpers : Lang (Label K D V) D V where
  numbers := P.numbers
  parse _ := none
  defs _ := .ret (P.value .nil)
  value := P.value
  error := P.error
  typeName := P.typeName
  accessors _ := []

def Incr.back (c : Incr D) (next : V → Source K D V) (v : V) : Code (Label K D V) V :=
  .jump (.back c v next)

def Sources.lang : Lang (Label K D V) D V where
  numbers := P.numbers
  parse code := (P.parse code).map Source.code
  defs
    | .point k => (P.defs k).code
    | .incr c next => P.helpers.incr c.key c.increment c.scope (c.back next)
    | .back _ v next => (next v).code
  value := P.value
  error := P.error
  typeName := P.typeName
  accessors v := (P.accessors v).map Source.code

/-- What `shared.incr` does in `shared.eval`. -/
def Lang.incrBody {K D V : Type} (L : Lang K D V) (c : Incr D) : Code K V :=
  L.get c.key c.scope fun value =>
    let value := .number (incrValue L.numbers c.increment value)
    L.set c.key value c.scope (.ret (L.value value))

theorem Sources.lang_incr (c : Incr D) (next : V → Source K D V) :
    P.lang.defs (.incr c next) = P.lang.incr c.key c.increment c.scope (c.back next) ∧
      P.lang.incr c.key c.increment c.scope (c.back next) =
        .eval (P.lang.incrBody c) (c.back next) :=
  ⟨rfl, rfl⟩

end Sources

/-! ## Integers -/

/-- The integers among the numbers of an interpreter. Below 10^14 in magnitude they are added
exactly, and are written with all their digits; `tonumber` and `parseInt` keep them, and give no
number for `nil` and `null`. -/
structure Integers {D : Type} (N : Numbers D) where
  ofInt : Int → D
  toInt : D → Int
  toInt_ofInt : ∀ z, z.natAbs < 10 ^ 14 → toInt (ofInt z) = z
  toNumber_nil : N.toNumber .nil = none
  toNumber_ofInt : ∀ d, d.natAbs < 2 * 10 ^ 14 → N.toNumber (.number (ofInt d)) = some (ofInt d)
  add_ofInt : ∀ z d, z.natAbs < 10 ^ 14 → d.natAbs < 2 * 10 ^ 14 → (z + d).natAbs < 10 ^ 14 →
    N.add (ofInt z) (ofInt d) = ofInt (z + d)
  ofText_toText : ∀ z, z.natAbs < 10 ^ 14 → N.ofText (N.toText (ofInt z)) = some (ofInt z)
  toText_ne_zero : ∀ z, z.natAbs < 10 ^ 14 → 0 ∉ N.toText (ofInt z)

section Counter

variable {K D V R : Type} {N : Numbers D} (I : Integers N) (key : CString)

/-- The integer that a global variable stands for: 0 when it is unset. -/
def Integers.Stores : Option CString → Int → Prop
  | none, z => z = 0
  | some text, z =>
    z.natAbs < 10 ^ 14 ∧ ∃ v, unserialize N text.bytes = some v ∧ N.toNumber v = some (I.ofInt z)

/-- The call increments the global variable. -/
def Incr.On (c : Incr D) : Prop := c.key = some key ∧ c.scope = some scopeGlobal

instance (c : Incr D) : Decidable (c.On key) := inferInstanceAs (Decidable (_ ∧ _))

/-- By how much the call increments the global variable. -/
def Incr.amount (c : Incr D) : Option Int :=
  if c.On key then
    match c.increment with
    | .number x => some (I.toInt x)
    | _ => none
  else none

/-- A call of `shared.incr` on a counter: it adds, and returns the new value. -/
def Sources.add {K D V T : Type} (P : Sources K D V) (I : Integers P.numbers) (_ : T) (z d : Int) :
    Int × V :=
  (z + d, P.value (.number (I.ofInt (z + d))))

/-- The script writes the global variable only by calls of `shared.incr` with integers. -/
def Source.OnlyIncr : Source K D V → Prop
  | .jump _ | .ret _ | .raise _ => True
  | .get _ _ next => ∀ value, (next value).OnlyIncr
  | .set k _ scope next => (k = some key → scope.getD scopeTask ≠ scopeGlobal) ∧ next.OnlyIncr
  | .unset k scope next =>
    (k = some key → scope.getD scopeAll ≠ scopeGlobal ∧ scope.getD scopeAll ≠ scopeAll) ∧
      next.OnlyIncr
  | .regmatch _ _ _ next => ∀ b, (next b).OnlyIncr
  | .regsub _ _ _ _ _ next => ∀ value, (next value).OnlyIncr
  | .eval body next => body.OnlyIncr ∧ ∀ v, (next v).OnlyIncr
  | .protect body next => body.OnlyIncr ∧ ∀ r, (next r).OnlyIncr
  | .incr c next =>
    (c.On key → ∃ x, c.increment = .number x ∧ I.ofInt (I.toInt x) = x) ∧ ∀ v, (next v).OnlyIncr

/-- All the scripts of the language do. -/
structure Sources.OnlyIncr (P : Sources K D V) : Prop where
  parse : ∀ code c, P.parse code = some c → c.OnlyIncr I key
  defs : ∀ k, (P.defs k).OnlyIncr I key
  accessors : ∀ v, ∀ c ∈ P.accessors v, c.OnlyIncr I key

/-- The calls and the returns of `shared.incr`, on the global variable. -/
def incrEvent : Ctl (Label K D V) V → Event → Option (Seen Int V)
  | .running _ (.jump (.incr c _)) _, .run _ => (c.amount I key).map .call
  | .running _ (.jump (.back c v _)) _, .run _ =>
    if (c.amount I key).isSome then some (.ret v) else none
  | _, _ => none

/-- The calls and the returns of a run. -/
def Sources.calls {T K D V R : Type} [DecidableEq T] [Fintype T] (P : Sources K D V)
    (I : Integers P.numbers) (key : CString) (cfg : ScriptCfg) (X : Vre R)
    (s : System T (Label K D V) V R) (tr : List (Locking.Act T Event)) :
    List (Atomic.Event T Int V) :=
  Machine.trace (Locking.step (resume cfg X P.lang)) (Sys.seen (incrEvent I key)) s tr

/-- The increment of the call of `shared.incr` that is about to read the global variable. -/
def Sources.reading (P : Sources K D V) : Ctl (Label K D V) V → Option Int
  | .running _ (.get ..) (.eval _ next :: _) =>
    match next (P.value .nil) with
    | .jump (.back c _ _) => c.amount I key
    | _ => none
  | _ => none

/-- The sum that a call computes stays below 10^14 in magnitude. -/
def Sources.Bounded (P : Sources K D V) (o : Object R) (a : Ctl (Label K D V) V) (_ : Event) :
    Prop :=
  ∀ d, P.reading I key a = some d → ∀ z, I.Stores o.vars.list[key]? z → (z + d).natAbs < 10 ^ 14

/-- The copy of the value that a call reads fits the workspace. -/
def Sources.Fits (P : Sources K D V) (o : Object R) (a : Ctl (Label K D V) V) : Event → Prop
  | .run room => (P.reading I key a).isSome → (o.vars.list[key]?).isSome → room.value = true
  | _ => True

/-! ### Deciding the conditions -/

variable {I key}

def Integers.value? (I : Integers N) : Option CString → Option Int
  | none => some 0
  | some text => ((unserialize N text.bytes).bind N.toNumber).map I.toInt

theorem value?_of_stores {x : Option CString} {z : Int} (h : I.Stores x z) : I.value? x = some z := by
  cases x with
  | none => exact congrArg some h.symm
  | some text =>
    obtain ⟨hz, v, hv, hnumber⟩ := h
    simp [Integers.value?, hv, hnumber, I.toInt_ofInt z hz]

theorem stores_unique {x : Option CString} {z w : Int} (hz : I.Stores x z) (hw : I.Stores x w) :
    z = w :=
  Option.some.inj ((value?_of_stores hz).symm.trans (value?_of_stores hw))

instance [DecidableEq D] : (x : Option CString) → (z : Int) → Decidable (I.Stores x z)
  | none, z => inferInstanceAs (Decidable (z = 0))
  | some text, z => decidable_of_iff (z.natAbs < 10 ^ 14 ∧
      (unserialize N text.bytes).bind N.toNumber = some (I.ofInt z))
      (by simp [Integers.Stores, Option.bind_eq_some_iff])

instance [DecidableEq D] (P : Sources K D V) (o : Object R) (a : Ctl (Label K D V) V) (i : Event) :
    Decidable (P.Bounded I key o a i) :=
  decidable_of_iff (∀ d ∈ P.reading I key a, ∀ z ∈ I.value? o.vars.list[key]?,
      I.Stores o.vars.list[key]? z → (z + d).natAbs < 10 ^ 14)
    ⟨fun h d hd z hz => h d hd z (value?_of_stores hz) hz, fun h d hd z _ hz => h d hd z hz⟩

instance (P : Sources K D V) (o : Object R) (a : Ctl (Label K D V) V) :
    (i : Event) → Decidable (P.Fits I key o a i)
  | .run room => inferInstanceAs (Decidable (_ → _ → room.value = true))
  | .newTask | .stats | .counter _ | .execute .. | .check .. | .wake _ | .lookup _ | .read
  | .store _ | .finish _ => isTrue trivial

end Counter

end VmodCfg.Shared
