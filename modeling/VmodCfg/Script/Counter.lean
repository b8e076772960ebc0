import VmodCfg.Lib.Decimal
import VmodCfg.Script.Leaves

/-!
# Counters that scripts share

A global variable that is written only by `shared.incr`, with integers, implements an atomic
counter: a call takes effect when it stores the sum, with the lock that `shared.eval` holds.
`Stage` says where a thread stands in a call, and what it knows of the variable then.
-/

namespace VmodCfg.Shared

open Locking Machine Script

/-! ## The counter -/

section Counter

variable {T K D V R : Type} (P : Sources K D V) (I : Integers P.numbers) (key : CString)

def counter : Behind T Lock (Object R) (Option CString) Int Int V where
  lock := .vars
  part o := o.vars.list[key]?
  Stores := I.Stores
  run := P.add I

variable {P I key}

def Integers.text {D : Type} {N : Numbers D} (I : Integers N) (z : Int) : CString :=
  .ofBytes (110 :: 58 :: N.toText (I.ofInt z))

theorem stores_text {z : Int} (hz : z.natAbs < 10 ^ 14) : I.Stores (some (I.text z)) z := by
  have hbytes : (I.text z).bytes = 110 :: 58 :: P.numbers.toText (I.ofInt z) := by
    apply CString.bytes_ofBytes
    simp [I.toText_ne_zero z hz]
  refine ⟨hz, .number (I.ofInt z), ?_, I.toNumber_ofInt z (by omega)⟩
  rw [hbytes]
  simp [unserialize, I.ofText_toText z hz]

/-! ## The stages of a call -/

variable (I key) in
def incrBy (d : Int) : Incr D := ⟨some key, .number (I.ofInt d), some scopeGlobal⟩

theorem eq_incrBy {c : Incr D} {d : Int}
    (h : c.On key → ∃ x, c.increment = .number x ∧ I.ofInt (I.toInt x) = x)
    (hc : c.amount I key = some d) : c = incrBy I key d ∧ I.toInt (I.ofInt d) = d := by
  unfold Incr.amount at hc
  split at hc
  · rename_i hon
    obtain ⟨x, hx, hexact⟩ := h hon
    rw [hx] at hc
    obtain rfl := Option.some.inj hc
    obtain ⟨k, increment, scope⟩ := c
    obtain ⟨rfl, rfl⟩ := hon
    cases hx
    rw [incrBy, hexact]
    exact ⟨rfl, rfl⟩
  · cases hc

theorem amount_incrBy {d : Int} (hd : I.toInt (I.ofInt d) = d) :
    (incrBy I key d).amount I key = some d := by
  simp [Incr.amount, incrBy, Incr.On, hd]

variable (P I key) in
/-- The code of a call, after its read: it writes the new value, and returns it. -/
def writing (z : Int) : Code (Label K D V) V :=
  .set (some key) (some (I.text z)) (some scopeGlobal) (.ret (P.value (.number (I.ofInt z))))

variable (P I key) in
theorem incrBody_eq (d : Int) :
    ∃ next, P.lang.incrBody (incrBy I key d) = .get (some key) (some scopeGlobal) next ∧
      ∀ x z, I.Stores x z → (z + d).natAbs < 10 ^ 14 → next x = writing P I key (z + d) := by
  refine ⟨_, rfl, fun x z hx hsum => ?_⟩
  cases x with
  | none =>
    obtain rfl : z = 0 := hx
    have hd : d.natAbs < 2 * 10 ^ 14 := by omega
    have hvalue : incrValue P.numbers (.number (I.ofInt d)) .nil = I.ofInt (0 + d) := by
      simp [incrValue, I.toNumber_nil, I.toNumber_ofInt d hd]
    simp only [incrBy, Sources.lang, hvalue]
    rfl
  | some text =>
    obtain ⟨hz, v, hv, hnumber⟩ := hx
    have hd : d.natAbs < 2 * 10 ^ 14 := by omega
    have hvalue : incrValue P.numbers (.number (I.ofInt d)) v = I.ofInt (z + d) := by
      simp [incrValue, hnumber, I.toNumber_ofInt d hd, I.add_ofInt z d hz hd hsum]
    simp only [incrBy, Sources.lang, hv, hvalue]
    rfl

variable (P I key) in
/-- Where a thread stands: outside of the calls on the counter, or in one. Only a thread that is
about to write relies on the variable, with the lock held. -/
inductive Stage : Ctl (Label K D V) V → Atomic.Status Int V → Holds → Option CString → Prop
  | plain {a held x} (ha : a.Plain I key) : Stage a .idle held x
  | called {j d next stack held x} (hd : I.toInt (I.ofInt d) = d)
    (hnext : ∀ v, (next v).OnlyIncr I key) (hstack : ∀ f ∈ stack, f.Plain I key) :
    Stage (.running j (.eval (P.lang.incrBody (incrBy I key d)) ((incrBy I key d).back next)) stack)
      (.called d) held x
  | reading {j d b next stack held x} (hd : I.toInt (I.ofInt d) = d)
    (hnext : ∀ v, (next v).OnlyIncr I key) (hstack : ∀ f ∈ stack, f.Plain I key) :
    Stage (.running j (P.lang.incrBody (incrBy I key d))
      (.eval b ((incrBy I key d).back next) :: stack)) (.called d) held x
  | writing {j d z b next stack held x} (hd : I.toInt (I.ofInt d) = d)
    (hnext : ∀ v, (next v).OnlyIncr I key) (hstack : ∀ f ∈ stack, f.Plain I key)
    (hw : Writes .vars held) (hz : I.Stores x z) (hsum : (z + d).natAbs < 10 ^ 14) :
    Stage (.running j (writing P I key (z + d)) (.eval b ((incrBy I key d).back next) :: stack))
      (.called d) held x
  | returning {j d v b next stack held x} (hd : I.toInt (I.ofInt d) = d)
    (hnext : ∀ v, (next v).OnlyIncr I key) (hstack : ∀ f ∈ stack, f.Plain I key) :
    Stage (.running j (.ret v) (.eval b ((incrBy I key d).back next) :: stack)) (.done v) held x
  | back {j d v next stack held x} (hd : I.toInt (I.ofInt d) = d)
    (hnext : ∀ v, (next v).OnlyIncr I key) (hstack : ∀ f ∈ stack, f.Plain I key) :
    Stage (.running j ((incrBy I key d).back next v) stack) (.done v) held x

theorem Stage.stable {a : Ctl (Label K D V) V} {st : Atomic.Status Int V} {held : Holds}
    {x x' : Option CString} (hw : ¬ Writes .vars held) (h : Stage P I key a st held x) :
    Stage P I key a st held x' := by
  cases h with
  | plain ha => exact .plain ha
  | called hd hnext hstack => exact .called hd hnext hstack
  | reading hd hnext hstack => exact .reading hd hnext hstack
  | writing hd hnext hstack hw' => exact absurd hw' hw
  | returning hd hnext hstack => exact .returning hd hnext hstack
  | back hd hnext hstack => exact .back hd hnext hstack

end Counter

/-! ## The code of a call -/

section Call

variable {T K D V R : Type} {P : Sources K D V} {I : Integers P.numbers} {key : CString}
  {cfg : ScriptCfg} {t : T} {j : Job} {l : Local} {held : Holds} {x : Option CString}

variable (P I key cfg t) in
/-- What thread `t` has to meet. -/
abbrev Follows (p : Proc R (Ctl (Label K D V) V)) (st : Atomic.Status Int V) (l : Local)
    (held : Holds) (x : Option CString) : Prop :=
  Lin (counter P I key) (contract cfg.pool) (fun _ a st _ held x => Stage P I key a st held x) t p
    st l held x

theorem follows_leaves {st : Atomic.Status Int V} {Q : Ctl (Label K D V) V → Prop}
    {p : Proc R (Ctl (Label K D V) V)} (hp : Leaves key Q p)
    (hQ : ∀ a held x, Q a → Stage P I key a st held x) : Follows P I key cfg t p st l held x :=
  Lin.of_always hp fun a _ held x => hQ a held x

theorem writes_evalHolds : Writes Lock.vars (evalHolds true) :=
  ⟨evalHold, List.mem_singleton.mpr rfl, rfl, rfl⟩

/-- In `eval`, a command reads the flag as set, and nothing else happens to the variable. -/
theorem follows_getIsLocked {A : Type} {st : Atomic.Status Int V} {f : Bool → Proc R A}
    {g : A → Proc R (Ctl (Label K D V) V)} (h : Flagged true l.engine held)
    (hf : Follows P I key cfg t (f true >>= g) st l held x) :
    Follows P I key cfg t (getIsLocked >>= f >>= g) st l held x := by
  obtain ⟨e, he⟩ := Option.isSome_iff_exists.mp h.1
  have hw : Writes Lock.vars held := by
    rw [h.2]
    exact writes_evalHolds
  intro o m hx _ hview
  have hflag : isLocked o.pool e = true := by
    rw [hview.flag e he, h.2]
    exact List.mem_singleton.mpr rfl
  refine .inl ⟨rfl, ?_⟩
  simp only [he, hflag, hx hw]
  exact hf

theorem get_locked (room : Bool) :
    varnishSharedGetCommand (R := R) key scopeGlobal true room =
      peek fun o _ => if room then o.vars.list.findVariable key else none := by
  have hscope : scopeGlobal = scopeGlobal ∨ scopeGlobal = scopeAll := .inl rfl
  unfold varnishSharedGetCommand
  rw [if_pos (.inr hscope), if_neg (by decide)]
  exact if_pos (e := pure none) hscope

theorem set_locked (value : CString) (room : Room) :
    varnishSharedSetCommand (R := R) key value scopeGlobal true room =
      Locking.modify fun x => ({ x.1 with vars := globalSet x.1.vars key value }, x.2) := by
  unfold varnishSharedSetCommand
  rw [if_neg (by decide), runIf, if_pos rfl]
  rfl

variable {d : Int} {b : Bool} {next : V → Source K D V} {stack : List (Frame (Label K D V) V)}
  {c : Code (Label K D V) V}

theorem follows_get (hkey : key.bytes ≠ []) (h : Flagged true l.engine held) {room : Bool}
    (hroom : x.isSome → room = true) {f : Option CString → Code (Label K D V) V}
    (hf : Stage P I key (.running j (f x) stack) (.called d) held x) :
    Follows (R := R) P I key cfg t (do
      let value ← sharedGet (some key) (some scopeGlobal) room
      pure (.running j (f value) stack)) (.called d) l held x := by
  unfold sharedGet withKey
  simp only [if_pos hkey]
  apply follows_getIsLocked h
  show Follows (R := R) P I key cfg t
    (varnishSharedGetCommand key scopeGlobal true room >>= _) (.called d) l held x
  rw [get_locked]
  intro o m hx _ _
  have hw : Writes Lock.vars held := by
    rw [h.2]
    exact writes_evalHolds
  have hpart : o.vars.list[key]? = x := hx hw
  have hvalue : (if room then o.vars.list.findVariable key else none) = x := by
    cases hr : room with
    | true => exact hpart
    | false =>
      cases x with
      | none => rfl
      | some text =>
        rw [hr] at hroom
        cases hroom rfl
  refine .inl ⟨rfl, ?_⟩
  show Stage P I key (.running j (f (if room then o.vars.list.findVariable key else none)) stack)
    (.called d) held o.vars.list[key]?
  rw [hvalue, hpart]
  exact hf

theorem follows_set (hkey : key.bytes ≠ []) (h : Flagged true l.engine held) {room : Room}
    {z : Int} (hz : I.Stores x z) (hsum : (z + d).natAbs < 10 ^ 14)
    (hf : ∀ x, Stage P I key (.running j c stack)
      (.done (P.value (.number (I.ofInt (z + d))))) held x) :
    Follows (R := R) P I key cfg t (do
      sharedSet (some key) (some (I.text (z + d))) (some scopeGlobal) room
      pure (.running j c stack)) (.called d) l held x := by
  unfold sharedSet withKey
  simp only [if_pos hkey]
  apply follows_getIsLocked h
  show Follows (R := R) P I key cfg t
    (varnishSharedSetCommand key (I.text (z + d)) scopeGlobal true room >>= _) (.called d) l held x
  rw [set_locked]
  intro o m hx hm _
  have hw : Writes Lock.vars held := by
    rw [h.2]
    exact writes_evalHolds
  have hpart : o.vars.list[key]? = x := hx hw
  obtain rfl : m = z := stores_unique (hpart ▸ hm) hz
  refine .inr ⟨d, rfl, hw, ?_, hf _⟩
  have hnew : (globalSet o.vars key (I.text (m + d))).list[key]? = some (I.text (m + d)) := by
    rw [globalSet_list, Function.update_self]
  show I.Stores (globalSet o.vars key (I.text (m + d))).list[key]? (m + d)
  rw [hnew]
  exact stores_text hsum

end Call

/-! ## The counter is atomic -/

section Runs

variable {T K D V R : Type} {P : Sources K D V} {I : Integers P.numbers} {key : CString}
  {cfg : ScriptCfg} {X : Vre R} {t : T} {j : Job} {l : Local} {held : Holds} {x : Option CString}

theorem flagged_of_point {c : Code (Label K D V) V} {b : Bool} {next : V → Code (Label K D V) V}
    {stack : List (Frame (Label K D V) V)}
    (h : Point (.running j c (.eval b next :: stack)) l held) : Flagged true l.engine held := by
  obtain ⟨⟨he, hheld⟩, rfl, -⟩ := h
  have hin : inEval (.eval (inEval stack) next :: stack) = true := by simp [inEval]
  rw [hin] at hheld
  exact ⟨he, hheld⟩

variable (P I key cfg t) in
/-- What a thread that goes on at an input has to meet. -/
abbrev Goes (p : Proc R (Ctl (Label K D V) V)) (st : Atomic.Status Int V) (l : Local)
    (held : Holds) (x : Option CString) (e : Option (Seen Int V)) : Prop :=
  Starts (counter P I key) (contract cfg.pool) (fun _ a st _ held x => Stage P I key a st held x) t p
    st l held x e

theorem goes_plain (hP : P.OnlyIncr I key) {a : Ctl (Label K D V) V} {i : Event}
    {p : Proc R (Ctl (Label K D V) V)} (ha : a.Plain I key)
    (hp : resume cfg X P.lang a i = some p) :
    Goes P I key cfg t p .idle l held x (incrEvent I key a i) := by
  cases hev : incrEvent I key a i with
  | none => exact follows_leaves (leaves_resume hP ha hev hp) fun _ _ _ h => .plain h
  | some e =>
    unfold incrEvent at hev
    split at hev
    · obtain ⟨d, hc, rfl⟩ := Option.map_eq_some_iff.mp hev
      obtain ⟨⟨hincr, hnext⟩, hstack⟩ := ha
      obtain ⟨rfl, hd⟩ := eq_incrBy hincr hc
      cases hp
      exact ⟨rfl, .called hd hnext hstack⟩
    · -- a return from a call on the counter is not outside of it
      rename_i c _ _ _ _
      have hon : ¬ c.On key := ha.1.1
      simp [Incr.amount, hon] at hev
    · cases hev

variable {d : Int} {b : Bool} {next : V → Source K D V} {stack : List (Frame (Label K D V) V)}

variable (P key j b next stack) in
theorem reading_incrBody (hd : I.toInt (I.ofInt d) = d) :
    P.reading I key (.running j (P.lang.incrBody (incrBy I key d))
      (.eval b ((incrBy I key d).back next) :: stack)) = some d :=
  amount_incrBy hd

/-- **Every piece of code between two control points** goes on in its call. -/
theorem goes_resume (hP : P.OnlyIncr I key) (hkey : key.bytes ≠ []) {a : Ctl (Label K D V) V}
    {i : Event} {p : Proc R (Ctl (Label K D V) V)} {st : Atomic.Status Int V} {o : Object R} {m : Int}
    (hpoint : Point a l held) (hbound : P.Bounded I key o a i) (hfits : P.Fits I key o a i)
    (hm : I.Stores o.vars.list[key]? m) (hstage : Stage P I key a st held o.vars.list[key]?)
    (hp : resume cfg X P.lang a i = some p) :
    Goes P I key cfg t p st l held o.vars.list[key]? (incrEvent I key a i) := by
  cases hstage with
  | plain ha => exact goes_plain hP ha hp
  | called hd hnext hstack =>
    cases i with
    | run room =>
      cases hp
      refine follows_leaves (Q := fun a => ∃ b, a = .running _ _ (.eval b _ :: _))
        (leaves_enterEval.bind fun b _ => ⟨b, rfl⟩) ?_
      rintro a held x ⟨b, rfl⟩
      exact .reading hd hnext hstack
    | _ => cases hp
  | reading hd hnext hstack =>
    rename_i j d b next stack
    cases i with
    | run room =>
      obtain ⟨f, hbody, hread⟩ := incrBody_eq P I key d
      have hreading := reading_incrBody P key j b next stack hd
      have hsum := hbound d hreading m hm
      rw [hbody] at hp
      cases hp
      rw [hbody]
      refine follows_get hkey (flagged_of_point hpoint) (fun hsome => ?_) ?_
      · exact hfits (by rw [hreading]; rfl) hsome
      · rw [hread _ m hm hsum]
        have hflag := flagged_of_point hpoint
        refine .writing hd hnext hstack ?_ hm hsum
        rw [hflag.2]
        exact writes_evalHolds
    | _ => cases hp
  | writing hd hnext hstack hw hz hsum =>
    cases i with
    | run room =>
      cases hp
      exact follows_set hkey (flagged_of_point hpoint) hz hsum fun x => .returning hd hnext hstack
    | _ => cases hp
  | returning hd hnext hstack =>
    cases i with
    | run room =>
      cases hp
      refine follows_leaves (Q := fun a => a = .running _ _ _)
        ((leaves_leaveEval _).bind fun _ _ => rfl) ?_
      rintro a held x rfl
      exact .back hd hnext hstack
    | _ => cases hp
  | back hd hnext hstack =>
    cases i with
    | run room =>
      cases hp
      have hev : (incrBy I key _).amount I key = some _ := amount_incrBy hd
      simp only [incrEvent, Incr.back, hev, Option.isSome_some, if_true]
      exact ⟨rfl, .plain ⟨plain_code (hnext _), hstack⟩⟩
    | _ => cases hp

theorem linearizes (hP : P.OnlyIncr I key) (hkey : key.bytes ≠ []) :
    Linearizes (T := T) (counter P I key) (contract cfg.pool) Point
      (fun _ a st _ held x => Stage P I key a st held x) (incrEvent I key)
      (fun o a i => P.Bounded I key o a i ∧ P.Fits I key o a i) (resume cfg X P.lang) where
  stable hw h := h.stable hw
  resume hpoint _ hok hm hstage hp := goes_resume hP hkey hpoint hok.1 hok.2 hm hstage hp

theorem linearized_init [DecidableEq T] {L₀ : Lang (Label K D V) D V} [Fintype T]
    {tr₀ : List (Locking.Act T Event)} {s₀ : System T (Label K D V) V R} {z₀ : Int}
    (h₀ : exec (Locking.step (resume cfg X L₀)) System.init tr₀ = some s₀)
    (hidle : ∀ t, s₀.prog t = .done .idle) (hz : I.Stores s₀.shared.vars.list[key]? z₀) :
    Linearized (counter P I key) (contract cfg.pool) Point (Inv cfg.pool)
      (fun _ a st _ held x => Stage P I key a st held x) s₀ (.init z₀) where
  sound := (sound_init cfg).reach (verified cfg X L₀) h₀
  exclusive := exec_inv' (fun _ _ _ hi hs => hi.step hs) (fun _ _ _ x hx => by cases hx) h₀
  stores := hz
  lin t := by
    rw [hidle t]
    exact .plain trivial

/-- **No increment is lost**: let scripts that write a global variable only by `shared.incr`, with
integers, run on a script object, in any number of threads and in any order. While the sums stay
below 10^14 in magnitude, and every call has room for the value that it reads, the calls are those of
an atomic counter that the variable stores; when all the executions have ended, the variable is its
initial value plus all the increments. -/
theorem no_lost_increment [DecidableEq T] [Fintype T] [DecidableEq V] (cfg : ScriptCfg) (X : Vre R)
    (L₀ : Lang (Label K D V) D V) (hkey : key.bytes ≠ []) (hP : P.OnlyIncr I key)
    {tr₀ tr : List (Locking.Act T Event)} {s₀ s : System T (Label K D V) V R} {z₀ : Int}
    (h₀ : exec (Locking.step (resume cfg X L₀)) System.init tr₀ = some s₀)
    (hidle : ∀ t, s₀.prog t = .done .idle) (hz : I.Stores s₀.shared.vars.list[key]? z₀)
    (hbound : Along (Locking.step (resume cfg X P.lang)) (Sys.AtInput (P.Bounded I key)) s₀ tr)
    (hfits : Along (Locking.step (resume cfg X P.lang)) (Sys.AtInput (P.Fits I key)) s₀ tr)
    (hex : exec (Locking.step (resume cfg X P.lang)) s₀ tr = some s) :
    ∃ tr' x, exec (Atomic.step (P.add I)) (.init z₀) tr' = some x ∧
      events Atomic.Act.event? tr' = P.calls I key cfg X s₀ tr ∧
      I.Stores s.shared.vars.list[key]? x.state ∧
      ((∀ t, s.prog t = .done .idle) →
        x.state = z₀ + ((P.calls I key cfg X s₀ tr).map Atomic.Event.amount).sum) := by
  have hok := along_mono (fun _ _ h => h.1.and h.2) (along_and hbound hfits)
  obtain ⟨tr', x, hex', hlin, hevents⟩ :=
    (linearized_init h₀ hidle hz).reach (verified cfg X P.lang) (linearizes hP hkey) hok hex
  refine ⟨tr', x, hex', hevents, hlin.stores, fun hend => ?_⟩
  -- no call is on its way
  have hpending : ∀ t, (x.thr t).pending = 0 := by
    intro t
    have hstage := hlin.lin t
    rw [hend t] at hstage
    generalize x.thr t = st at hstage
    cases hstage
    rfl
  have hadd : ∀ (t : T) (z d : Int), (P.add I t z d).1 = z + d := fun _ _ _ => rfl
  have hsum := Atomic.exec_sum hadd hex'
  have hinit : ∀ t, ((Atomic.Obj.init z₀ : Atomic.Obj T Int Int V).thr t).pending = 0 := fun _ => rfl
  simp only [hpending, hinit, Finset.sum_const_zero, add_zero] at hsum
  rw [hsum, hevents]
  rfl

end Runs

/-! ## Two executions -/

section Example

/-- An interpreter whose numbers are the integers. -/
def intNumbers : Numbers Int where
  toText := Decimal.text
  ofText := Decimal.parse
  toNumber
    | .number z => some z
    | .string s => Decimal.parse s
    | _ => none
  zero := 0
  add := (· + ·)

def intIntegers : Integers intNumbers where
  ofInt z := z
  toInt z := z
  toInt_ofInt _ _ := rfl
  toNumber_nil := rfl
  toNumber_ofInt _ _ := rfl
  add_ofInt _ _ _ _ _ := rfl
  ofText_toText z _ := Decimal.parse_text z
  toText_ne_zero z _ := Decimal.text_ne_zero z

def hits : CString := .ofBytes [110]

/-- The code of a script is an integer, by which it increments the variable. -/
def hitSources : Sources Empty Int Int where
  numbers := intNumbers
  parse code := (Decimal.parse code.bytes).map fun d =>
    .incr ⟨some hits, .number d, some scopeGlobal⟩ .ret
  defs := nofun
  value
    | .number z => z
    | _ => 0
  error _ := 0
  typeName _ := .empty
  accessors _ := []

theorem hitSources_onlyIncr : hitSources.OnlyIncr intIntegers hits where
  parse code c h := by
    obtain ⟨d, -, rfl⟩ := Option.map_eq_some_iff.mp h
    exact ⟨fun _ => ⟨d, rfl, rfl⟩, fun _ => trivial⟩
  defs := nofun
  accessors _ _ h := by cases h

def hitCfg : ScriptCfg := ⟨⟨2, 0⟩, 1, fun code => code⟩

/-- Thread `t` executes a script, up to where it waits for the lock in `shared.eval`. -/
def starts (t : Fin 2) (code : CString) : List (Locking.Act (Fin 2) Event) :=
  let run : Locking.Act (Fin 2) Event := .input t (.run ⟨true, true, true⟩)
  [.input t (.execute (some code) false true 0)] ++ List.replicate 4 (.op t) ++
    [.input t (.lookup true), run, run, .op t]

/-- Thread `t` gets the lock, and goes on to the end of the execution; `room` tells whether the value
that it reads fits the workspace. -/
def ends (t : Fin 2) (room : Bool) : List (Locking.Act (Fin 2) Event) :=
  let run : Locking.Act (Fin 2) Event := .input t (.run ⟨true, true, true⟩)
  [.op t, .input t (.run ⟨true, true, room⟩), .op t, .op t, run, .op t, .op t, run, .op t, run, run,
    .input t (.store true), .input t (.finish 0)] ++ List.replicate 11 (.op t)

/-- Two threads add 5 and 3. -/
def hitTrace (room : Bool) : List (Locking.Act (Fin 2) Event) :=
  starts 0 (.ofBytes [53]) ++ starts 1 (.ofBytes [51]) ++ ends 0 true ++ ends 1 room

abbrev HitSystem := System (Fin 2) (Label Empty Int Int) Int Unit

abbrev hitStep : HitSystem → Locking.Act (Fin 2) Event → Option HitSystem :=
  Locking.step (resume hitCfg nestedVre hitSources.lang)

theorem hitTrace_runs (room : Bool) : (exec hitStep System.init (hitTrace room)).isSome := by
  revert room
  decide

def hitState (room : Bool) : HitSystem :=
  (exec hitStep System.init (hitTrace room)).get (hitTrace_runs room)

theorem exec_hitTrace (room : Bool) :
    exec hitStep System.init (hitTrace room) = some (hitState room) :=
  (Option.some_get (hitTrace_runs room)).symm

theorem hitState_ended (room : Bool) : ∀ t, (hitState room).prog t = .done .idle := by
  cases room <;> exact Fin.forall_fin_two.mpr ⟨rfl, rfl⟩

theorem no_lost_increment_hits :
    hitSources.calls intIntegers hits hitCfg nestedVre System.init (hitTrace true) =
        [.call 0 5, .call 1 3, .ret 0 5, .ret 1 8] ∧
      intIntegers.Stores (hitState true).shared.vars.list[hits]? 8 := by
  have hcalls : hitSources.calls intIntegers hits hitCfg nestedVre System.init (hitTrace true) =
      [.call 0 5, .call 1 3, .ret 0 5, .ret 1 8] := by decide
  have h₀ : exec hitStep System.init [] = some System.init := rfl
  have hbound : Along hitStep (Sys.AtInput (hitSources.Bounded intIntegers hits)) System.init
      (hitTrace true) := by decide
  have hfits : Along hitStep (Sys.AtInput (hitSources.Fits intIntegers hits)) System.init
      (hitTrace true) := by decide
  obtain ⟨-, x, -, -, hstores, hsum⟩ := no_lost_increment hitCfg nestedVre hitSources.lang
    (by decide) hitSources_onlyIncr h₀ (fun _ => rfl) rfl hbound hfits (exec_hitTrace true)
  rw [hsum (hitState_ended true), hcalls] at hstores
  exact ⟨hcalls, hstores⟩

/-- **A lost increment**: the value that the second call reads does not fit the workspace of its
task, and the call takes the variable for unset. -/
theorem increment_lost :
    hitSources.OnlyIncr intIntegers hits ∧
      Along hitStep (Sys.AtInput (hitSources.Bounded intIntegers hits)) System.init
        (hitTrace false) ∧
      ∃ s, exec hitStep System.init (hitTrace false) = some s ∧ (∀ t, s.prog t = .done .idle) ∧
        hitSources.calls intIntegers hits hitCfg nestedVre System.init (hitTrace false) =
          [.call 0 5, .call 1 3, .ret 0 5, .ret 1 3] ∧
        intIntegers.Stores s.shared.vars.list[hits]? 3 ∧
        ¬ intIntegers.Stores s.shared.vars.list[hits]? (0 + (5 + 3)) :=
  ⟨hitSources_onlyIncr, by decide, hitState false, exec_hitTrace false, hitState_ended false,
    by decide, by decide, by decide⟩

end Example

end VmodCfg.Shared
