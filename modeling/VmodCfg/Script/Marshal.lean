import Mathlib.Algebra.Group.Int.Defs
import Mathlib.Algebra.Group.Nat.Defs
import VmodCfg.Script.Interp

/-!
# What `post_execute` leaves in the register

`Meaning` is what a script returned, as the register can describe it: a scalar,
a sequence, or anything else. `Marshal.Faithful` says that `post_execute` wrote
inside of `values` only, and left a register that describes the value;
`Meaning.Storable` is when it can: the register counts no table yet, and the
elements below the cap can be read, and their strings copied.
-/

namespace VmodCfg.Script

universe u

/-! ## Sequences and their elements -/

section Defs

variable {D G E V : Type*}

/-- A value of a script, as the register should describe it. -/
inductive Meaning (D : Type*) where
  | scalar (e : Elem D)
  | sequence (next : Nat → Option (Elem D))
  | invalid

def jsElems (length : UInt64) (elems : Nat → Elem D) (i : Nat) : Option (Elem D) :=
  if i < length.toNat then some (elems i) else none

def LuaValue.meaning : LuaValue D → Meaning D
  | .nil => .scalar .nil
  | .boolean b => .scalar (.boolean b)
  | .number x => .scalar (.number x)
  | .string s => .scalar (.string s)
  | .table elems => .sequence (luaNext elems)
  | .other => .invalid

def JsValue.meaning : JsValue D → Meaning D
  | .undefined | .null => .scalar .nil
  | .boolean b => .scalar (.boolean b)
  | .number x => .scalar (.number x)
  | .string s => .scalar (.string s)
  | .array (some length) elems => .sequence (jsElems length elems)
  | .symbol _ | .array none _ | .object | .other => .invalid

/-- The value stored for an element tells which element it was. -/
def Elem.DescribedBy : Elem D → ResultValue D → Prop
  | .nil, v => v = .nil
  | .boolean b, v => v = .boolean b
  | .number x, v => v = .number x
  | .string s, v => ∃ c : CString, v = .string (some c) ∧ c.bytes = s
  | .table, v => v = .table
  | .symbol _, v | .other, v => v = .error
  | .raises, _ => False

/-- `n` is the length of the sequence, or `MAX_RESULT_VALUES` if it is longer than that. -/
structure CappedLength (next : Nat → Option (Elem D)) (n : Nat) : Prop where
  capped : n ≤ maxResultValues
  before : ∀ i < n, next i ≠ none
  ends : n < maxResultValues → next n = none

def Meaning.InRegister : Meaning D → Result D → Prop
  | .scalar e, r => r.nvalues = -1 ∧ e.DescribedBy (r.values 0)
  | .sequence next, r => ∃ n : Nat, r.nvalues = n ∧ CappedLength next n ∧
      ∀ (i : Nat) (hi : i < maxResultValues), i < n →
        ∃ e, next i = some e ∧ e.DescribedBy (r.values ⟨i, hi⟩)
  | .invalid, r => r.nvalues = -1 ∧ (r.values 0).type = .error

/-- The marshalling of `v` into `r` returns, all its writes to `values` are in bounds, and the
register describes `v` in the end. -/
def Marshal.Faithful (m : Marshal D E) (r : Result D) (v : Meaning D) : Prop :=
  ∃ ok r' env left, m = .done ok r' env left ∧ r'.wild = r.wild ∧ v.InRegister r'

variable (I : Interp G E V)

/-- The element can be read, and copied whole to the workspace. -/
def Elem.Copied (env : E) : Elem D → Prop
  | .string s => 0 ∉ s ∧ (I.wsCopy env (.ofBytes s)).1 = true
  | .symbol _ | .raises => False
  | _ => True

def Elem.copy (env : E) : Elem D → E
  | .string s | .symbol s => (I.wsCopy env (.ofBytes s)).2
  | _ => env

/-- The first `n` elements from `i` on, up to the end of the sequence, are copied one after the
other. -/
def Copies (next : Nat → Option (Elem D)) : Nat → Nat → E → Prop
  | 0, _, _ => True
  | n + 1, i, env =>
    match next i with
    | none => True
    | some e => e.Copied I env ∧ Copies next n (i + 1) (e.copy I env)

/-- The first `n` elements from `i` on, if all of them can be read and copied to the workspace. -/
def collect (next : Nat → Option (Elem D)) : Nat → Nat → E → Option (List (ResultValue D))
  | 0, _, _ => some []
  | n + 1, i, env =>
    match next i with
    | none => some []
    | some e =>
      match storeElem I env e with
      | some (true, v, env) => (collect next n (i + 1) env).map (v :: ·)
      | _ => none

/-- The length, read as an `int`, is the same as far as the elements are stored. -/
def FitsInt (length : UInt64) : Prop :=
  length.toNat < 2 ^ 31 ∨ (maxResultValues : Int) ≤ length.toUInt32.toInt32.toInt

/-- No Symbol, no plain object, and the length of an array can be read, as an `int`. -/
def JsValue.Supported : JsValue D → Prop
  | .symbol _ | .object | .array none _ => False
  | .array (some length) _ => FitsInt length
  | _ => True

/-- The register, the workspace and the interpreter allow for the value to be stored. -/
def Meaning.Storable (r : Result D) (env : E) : Meaning D → Prop
  | .scalar e => r.nvalues = -1 ∧ e.Copied I env
  | .sequence next => Copies I next maxResultValues 0 env
  | .invalid => r.nvalues = -1

end Defs

variable {D G E V : Type*} {I : Interp G E V}

/-! ## Writing to the register -/

@[simp] theorem set_zero_nvalues (r : Result D) (v : ResultValue D) :
    (r.set 0 v).nvalues = r.nvalues := rfl

@[simp] theorem set_zero_values (r : Result D) (v : ResultValue D) :
    (r.set 0 v).values 0 = v := by
  simp [Result.set, maxResultValues]

theorem set_nvalues (r : Result D) (i : Int) (v : ResultValue D) :
    (r.set i v).nvalues = r.nvalues := by
  unfold Result.set
  split <;> rfl

theorem set_values (r : Result D) {i : Nat} (hi : i < maxResultValues) (v : ResultValue D)
    (k : Fin maxResultValues) :
    (r.set i v).values k = if k.val = i then v else r.values k := by
  have h : (0 : Int) ≤ (i : Int) ∧ (i : Int).toNat < maxResultValues := ⟨by omega, by simpa using hi⟩
  rw [Result.set, dif_pos h]
  by_cases hk : k.val = i
  · have hki : k = ⟨(i : Int).toNat, h.2⟩ := Fin.ext (by simpa using hk)
    rw [if_pos hk, hki]
    exact Function.update_self ..
  · have hki : k ≠ ⟨(i : Int).toNat, h.2⟩ := fun e => hk (by rw [e]; simp)
    rw [if_neg hk]
    exact Function.update_of_ne hki ..

structure Stored (r r' : Result D) (i : Nat) (vs : List (ResultValue D)) : Prop where
  nvalues : r'.nvalues = (i : Int) + vs.length
  fits : i + vs.length ≤ maxResultValues
  before : ∀ k : Fin maxResultValues, k.val < i → r'.values k = r.values k
  elems : ∀ j (hj : j < vs.length) (hk : i + j < maxResultValues), r'.values ⟨i + j, hk⟩ = vs[j]

theorem Stored.nil {r : Result D} {i : Nat} (hr : r.nvalues = i) (hi : i ≤ maxResultValues) :
    Stored r r i [] :=
  ⟨by simpa using hr, hi, fun _ _ => rfl, fun j hj => absurd hj (Nat.not_lt_zero j)⟩

theorem Stored.cons {r r' : Result D} {i : Nat} {v : ResultValue D} {vs : List (ResultValue D)}
    (hi : i < maxResultValues)
    (h : Stored { r.set i v with nvalues := (i : Int) + 1 } r' (i + 1) vs) :
    Stored r r' i (v :: vs) := by
  refine ⟨?_, ?_, fun k hk => ?_, fun j hj hk => ?_⟩
  · have := h.nvalues
    push_cast [List.length_cons] at this ⊢
    omega
  · have := h.fits
    simp only [List.length_cons]
    omega
  · rw [h.before k (Nat.lt_succ_of_lt hk)]
    show (r.set i v).values k = r.values k
    rw [set_values r hi, if_neg (Nat.ne_of_lt hk)]
  · cases j with
    | zero =>
      rw [h.before ⟨i + 0, hk⟩ (Nat.lt_succ_self i)]
      show (r.set i v).values ⟨i, hi⟩ = v
      rw [set_values r hi, if_pos rfl]
    | succ j =>
      have hk' : i + 1 + j < maxResultValues := by omega
      have hj' : j < vs.length := Nat.lt_of_succ_lt_succ hj
      have he : (⟨i + (j + 1), hk⟩ : Fin maxResultValues) = ⟨i + 1 + j, hk'⟩ :=
        Fin.ext (by simp only; omega)
      rw [he, h.elems j hj' hk', List.getElem_cons_succ]

theorem storeElems_spec (next : Nat → Option (Elem D)) (n i : Nat) (r : Result D) (env : E)
    (hin : i + n ≤ maxResultValues) (hr : r.nvalues = i) :
    (∃ vs r' env', collect I next n i env = some vs ∧
      storeElems I next n i r env = .done true r' env' 0 ∧ Stored r r' i vs) ∨
    (collect I next n i env = none ∧ (storeElems I next n i r env = .abort ∨
      ∃ r' env', storeElems I next n i r env = .done false r' env' 1 ∧ 0 ≤ r'.nvalues)) := by
  induction n generalizing i r env with
  | zero => exact .inl ⟨[], r, env, rfl, rfl, .nil hr hin⟩
  | succ n ih =>
    have hi : i < maxResultValues := by omega
    unfold collect storeElems
    cases next i with
    | none =>
      simp only
      exact .inl ⟨[], r, env, rfl, rfl, .nil hr (Nat.le_of_lt hi)⟩
    | some e =>
      cases hse : storeElem I env e with
      | none =>
        simp only [hse]
        exact .inr ⟨trivial, .inl trivial⟩
      | some x =>
        obtain ⟨ok, v, env'⟩ := x
        cases ok with
        | false =>
          simp only [hse]
          refine .inr ⟨trivial, .inr ⟨r.set i v, env', rfl, ?_⟩⟩
          rw [set_nvalues, hr]
          exact Int.natCast_nonneg i
        | true =>
          simp only [hse]
          obtain ⟨vs, r', env'', hc, hs, hst⟩ | ⟨hc, hs⟩ :=
            ih (i + 1) { r.set i v with nvalues := (i : Int) + 1 } env' (by omega)
              (by push_cast; rfl)
          · exact .inl ⟨v :: vs, r', env'', by rw [hc]; rfl, hs, hst.cons hi⟩
          · exact .inr ⟨by rw [hc]; rfl, hs⟩

/-! ## Elements -/

theorem cappedLength_iff {next : Nat → Option (Elem D)} {L : Nat} (hend : next L = none)
    (hbefore : ∀ i < L, next i ≠ none) (n : Nat) :
    CappedLength next n ↔ n = min L maxResultValues := by
  constructor
  · rintro ⟨hcap, hlt, hn⟩
    have hnL : n ≤ L := by
      by_contra h
      exact hlt L (Nat.lt_of_not_le h) hend
    obtain hlt' | heq := Nat.lt_or_eq_of_le hcap
    · have hLn : L ≤ n := by
        by_contra h
        exact hbefore n (Nat.lt_of_not_le h) (hn hlt')
      omega
    · omega
  · rintro rfl
    refine ⟨Nat.min_le_right .., fun i hi => hbefore i (by omega), fun h => ?_⟩
    rwa [Nat.min_eq_left (by omega)]

theorem jsElems_cappedLength (length : UInt64) (elems : Nat → Elem D) (n : Nat) :
    CappedLength (jsElems length elems) n ↔ n = min length.toNat maxResultValues :=
  cappedLength_iff (if_neg (Nat.lt_irrefl _)) (fun i hi => by simp [jsElems, hi]) n

theorem storeElem_cases (env : E) (e : Elem D) :
    (storeElem I env e = none ∧ ¬ e.Copied I env) ∨
    (∃ v env', storeElem I env e = some (false, v, env') ∧ ¬ e.Copied I env) ∨
    (∃ v, storeElem I env e = some (true, v, e.copy I env) ∧ (e.DescribedBy v ↔ e.Copied I env)) := by
  cases e with
  | symbol text =>
    rcases hws : I.wsCopy env (.ofBytes text) with ⟨ok, env'⟩
    cases ok with
    | false => exact .inr (.inl ⟨.string none, env', by simp [storeElem, storeString, hws], id⟩)
    | true =>
      -- the text of the error is stored, and no error
      refine .inr (.inr ⟨.string (some (.ofBytes text)),
        by simp [storeElem, storeString, Elem.copy, hws], iff_of_false ?_ id⟩)
      intro h
      cases h
  | string s =>
    rcases hws : I.wsCopy env (.ofBytes s) with ⟨ok, env'⟩
    cases ok with
    | false =>
      exact .inr (.inl ⟨.string none, env', by simp [storeElem, storeString, hws],
        by simp [Elem.Copied, hws]⟩)
    | true =>
      refine .inr (.inr ⟨.string (some (.ofBytes s)), by simp [storeElem, storeString, Elem.copy, hws],
        ?_⟩)
      simp only [Elem.DescribedBy, Elem.Copied, hws, and_true]
      constructor
      · rintro ⟨c, hc, hs⟩
        cases hc
        rw [← hs]
        exact (CString.ofBytes s).no_nul
      · intro h0
        exact ⟨_, rfl, congrArg CString.bytes (CString.ofBytes_bytes ⟨s, h0⟩)⟩
  | raises => exact .inl ⟨rfl, id⟩
  | _ => exact .inr (.inr ⟨_, rfl, iff_of_true rfl trivial⟩)

/-! ## The loop over a sequence -/

theorem set_wild (r : Result D) {i : Nat} (hi : i < maxResultValues) (v : ResultValue D) :
    (r.set i v).wild = r.wild := by
  have h : (0 : Int) ≤ (i : Int) ∧ (i : Int).toNat < maxResultValues := ⟨by omega, by simpa using hi⟩
  rw [Result.set, dif_pos h]

theorem storeElems_wild {next : Nat → Option (Elem D)} {n i : Nat} {r r' : Result D} {env env' : E}
    {ok : Bool} {left : Nat} (hin : i + n ≤ maxResultValues)
    (h : storeElems I next n i r env = .done ok r' env' left) : r'.wild = r.wild := by
  induction n generalizing i r env with
  | zero =>
    cases h
    rfl
  | succ n ih =>
    unfold storeElems at h
    split at h
    · cases h
      rfl
    · split at h
      · cases h
      · cases h
        exact set_wild r (by omega) _
      · rw [ih (by omega) h]
        exact set_wild r (by omega) _

theorem storeElems_nvalues {next : Nat → Option (Elem D)} {n i : Nat} {r r' : Result D}
    {env env' : E} {ok : Bool} {left : Nat} (hr : r.nvalues = i)
    (h : storeElems I next n i r env = .done ok r' env' left) :
    (i : Int) ≤ r'.nvalues ∧ r'.nvalues ≤ i + n := by
  induction n generalizing i r env with
  | zero =>
    cases h
    omega
  | succ n ih =>
    unfold storeElems at h
    split at h
    · cases h
      omega
    · split at h
      · cases h
      · cases h
        rw [set_nvalues]
        omega
      · have := ih (by push_cast; rfl) h
        push_cast at this ⊢
        omega

/-- A loop that failed stopped at an element of the sequence, below the cap. -/
theorem storeElems_failed {next : Nat → Option (Elem D)} {n i : Nat} {r r' : Result D} {env env' : E}
    {left : Nat} (hr : r.nvalues = i) (h : storeElems I next n i r env = .done false r' env' left) :
    ∃ j : Nat, r'.nvalues = j ∧ j < i + n ∧ next j ≠ none := by
  induction n generalizing i r env with
  | zero => cases h
  | succ n ih =>
    unfold storeElems at h
    split at h
    · cases h
    · rename_i e he
      split at h
      · cases h
      · cases h
        exact ⟨i, by rw [set_nvalues, hr], by omega, by simp [he]⟩
      · obtain ⟨j, hj, hlt, hne⟩ := ih (by push_cast; rfl) h
        exact ⟨j, hj, by omega, hne⟩

/-- What was collected are the elements up to the end or the cap, and the copies are whole exactly
when all of them are described. -/
theorem collect_spec {next : Nat → Option (Elem D)} {n i : Nat} {env : E}
    {vs : List (ResultValue D)} (h : collect I next n i env = some vs) :
    vs.length ≤ n ∧ (vs.length < n → next (i + vs.length) = none) ∧
      (∀ j < vs.length, next (i + j) ≠ none) ∧
      ((∀ j (hj : j < vs.length), ∃ e, next (i + j) = some e ∧ e.DescribedBy vs[j]) ↔
        Copies I next n i env) := by
  induction n generalizing i env vs with
  | zero =>
    cases h
    simp [Copies]
  | succ n ih =>
    unfold collect at h
    unfold Copies
    cases he : next i with
    | none =>
      rw [he] at h
      cases h
      simp [he]
    | some e =>
      simp only [he] at h
      obtain ⟨hs, -⟩ | ⟨v, env', hs, -⟩ | ⟨v, hs, hv⟩ := storeElem_cases (I := I) env e
      · rw [hs] at h
        cases h
      · rw [hs] at h
        cases h
      · rw [hs] at h
        simp only at h
        obtain ⟨ws, hws, rfl⟩ := Option.map_eq_some_iff.mp h
        obtain ⟨hlen, hend, hne, hiff⟩ := ih hws
        have hshift : ∀ j, i + (j + 1) = i + 1 + j := fun j => by omega
        refine ⟨by simpa using hlen, fun hlt => ?_, fun j hj => ?_, ?_⟩
        · rw [List.length_cons, hshift]
          exact hend (by simpa using hlt)
        · cases j with
          | zero => simp [he]
          | succ j =>
            rw [hshift]
            exact hne j (by simpa using hj)
        · show _ ↔ e.Copied I env ∧ Copies I next n (i + 1) (e.copy I env)
          rw [← hiff, ← hv]
          constructor
          · intro hall
            refine ⟨?_, fun j hj => ?_⟩
            · obtain ⟨e', he', hd⟩ := hall 0 (by simp)
              rw [Nat.add_zero, he] at he'
              cases he'
              exact hd
            · obtain ⟨e', he', hd⟩ := hall (j + 1) (by simpa using hj)
              rw [hshift] at he'
              exact ⟨e', he', hd⟩
          · rintro ⟨hd, hall⟩ j hj
            cases j with
            | zero => exact ⟨e, he, hd⟩
            | succ j =>
              rw [hshift]
              exact hall j (by simpa using hj)

theorem not_copies_of_collect {next : Nat → Option (Elem D)} {n i : Nat} {env : E}
    (h : collect I next n i env = none) : ¬ Copies I next n i env := by
  induction n generalizing i env with
  | zero => cases h
  | succ n ih =>
    unfold collect at h
    unfold Copies
    cases he : next i with
    | none =>
      rw [he] at h
      cases h
    | some e =>
      simp only [he] at h
      obtain ⟨-, hno⟩ | ⟨-, -, -, hno⟩ | ⟨v, hs, -⟩ := storeElem_cases (I := I) env e
      · exact fun hc => hno hc.1
      · exact fun hc => hno hc.1
      · rw [hs] at h
        simp only [Option.map_eq_none_iff] at h
        exact fun hc => ih h hc.2

/-- The loops of both `post_execute` are faithful exactly when the elements are copied. -/
theorem storeElems_faithful (next : Nat → Option (Elem D)) (r : Result D) (env : E) :
    (storeElems I next maxResultValues 0 { r with nvalues := 0 } env).Faithful r (.sequence next) ↔
      Copies I next maxResultValues 0 env := by
  obtain ⟨vs, r', env', hc, hs, hst⟩ | ⟨hc, hs⟩ :=
    storeElems_spec (I := I) next maxResultValues 0 { r with nvalues := 0 } env (Nat.le_refl _) rfl
  · obtain ⟨hlen, hend, hne, hiff⟩ := collect_spec hc
    have hwild := storeElems_wild (Nat.le_of_eq (Nat.zero_add _)) hs
    have hn : r'.nvalues = (vs.length : Int) := by simpa using hst.nvalues
    have helem : ∀ j (hj : j < vs.length) (hk : j < maxResultValues), r'.values ⟨j, hk⟩ = vs[j] := by
      intro j hj hk
      rw [← hst.elems j hj (by omega)]
      congr 1
      exact Fin.ext (Nat.zero_add j).symm
    simp only [Nat.zero_add] at hend hne hiff
    rw [← hiff]
    constructor
    · rintro ⟨_, _, _, _, hm, -, n, hn', -, hall⟩ j hj
      rw [hs] at hm
      cases hm
      obtain rfl : vs.length = n := by
        rw [hn] at hn'
        exact_mod_cast hn'
      have hk : j < maxResultValues := Nat.lt_of_lt_of_le hj hlen
      rw [← helem j hj hk]
      exact hall j hk hj
    · intro hall
      refine ⟨true, r', env', 0, hs, hwild, vs.length, hn, ⟨hlen, hne, hend⟩, fun i hi hlt => ?_⟩
      rw [helem i hlt hi]
      exact hall i hlt
  · refine iff_of_false ?_ (not_copies_of_collect hc)
    rintro ⟨_, _, _, _, hm, -, n, hn, hcap, -⟩
    obtain hs | ⟨r', env', hs, -⟩ := hs
    · rw [hs] at hm
      cases hm
    · rw [hs] at hm
      cases hm
      obtain ⟨j, hj, hlt, hne⟩ := storeElems_failed rfl hs
      obtain rfl : j = n := by
        rw [hj] at hn
        exact_mod_cast hn
      exact hne (hcap.ends (by omega))

/-! ## Single values -/

theorem faithful_done_iff {ok : Bool} {r r' : Result D} {env : E} {left : Nat} {v : Meaning D} :
    (Marshal.done ok r' env left).Faithful r v ↔ r'.wild = r.wild ∧ v.InRegister r' := by
  constructor
  · rintro ⟨_, _, _, _, hm, h⟩
    cases hm
    exact h
  · intro h
    exact ⟨_, _, _, _, rfl, h⟩

theorem faithful_scalar (ok : Bool) (r : Result D) (x : ResultValue D) (env : E) (e : Elem D) :
    (Marshal.done ok (r.set 0 x) env 0).Faithful r (.scalar e) ↔
      r.nvalues = -1 ∧ e.DescribedBy x := by
  have hwild : (r.set 0 x).wild = r.wild := set_wild r (i := 0) (by decide) x
  rw [faithful_done_iff, Meaning.InRegister, set_zero_nvalues, set_zero_values]
  exact and_iff_right hwild

theorem faithful_invalid (ok : Bool) (r : Result D) (env : E) :
    (Marshal.done ok (r.set 0 .error) env 0).Faithful r .invalid ↔ r.nvalues = -1 := by
  have hwild : (r.set 0 .error).wild = r.wild := set_wild r (i := 0) (by decide) .error
  rw [faithful_done_iff, Meaning.InRegister, set_zero_nvalues, set_zero_values, and_iff_right hwild]
  exact and_iff_left rfl

theorem faithful_string (r : Result D) (env env' : E) (s : List UInt8) :
    (Marshal.done (storeString (D := D) I env s).1 (r.set 0 (storeString I env s).2.1) env' 0).Faithful
        r (.scalar (.string s)) ↔ (Meaning.scalar (.string s)).Storable I r env := by
  rw [faithful_scalar]
  refine and_congr_right fun _ => ?_
  obtain ⟨h, -⟩ | ⟨v, env₁, h, hno⟩ | ⟨v, h, hv⟩ := storeElem_cases (D := D) (I := I) env (.string s)
  · cases h
  · obtain h := Option.some.inj h
    rw [h]
    refine iff_of_false ?_ hno
    rintro ⟨c, hc, -⟩
    unfold storeString at h
    split at h
    · cases h
    · cases h
      cases hc
  · obtain h := Option.some.inj h
    rw [h]
    exact hv

/-! ## Every value -/

theorem luaPostExecute_faithful {I : Interp G E (LuaValue D)} (r : Result D) (env : E)
    (v : LuaValue D) :
    (luaPostExecute I r env v).Faithful r v.meaning ↔ v.meaning.Storable I r env := by
  cases v with
  | nil => exact (faithful_scalar ..).trans (and_congr_right fun _ => iff_of_true rfl trivial)
  | boolean b => exact (faithful_scalar ..).trans (and_congr_right fun _ => iff_of_true rfl trivial)
  | number x => exact (faithful_scalar ..).trans (and_congr_right fun _ => iff_of_true rfl trivial)
  | string s => exact faithful_string ..
  | table elems => exact storeElems_faithful ..
  | other => exact faithful_invalid ..

theorem toInt32_length {length : UInt64} (h : length.toNat < 2 ^ 31) :
    length.toUInt32.toInt32.toInt = (length.toNat : Int) := by
  rw [Int32.toInt, UInt32.toBitVec_toInt32, BitVec.toInt_eq_toNat_cond, UInt32.toNat_toBitVec,
    UInt64.toNat_toUInt32, Nat.mod_eq_of_lt (by omega), if_pos (by omega)]

theorem jsNext_of_fits {length : UInt64} (h : FitsInt length) (elems : Nat → Elem D) {i : Nat}
    (hi : i < maxResultValues) : jsNext length elems i = jsElems length elems i := by
  unfold jsNext jsElems
  by_cases hlt : length.toNat < 2 ^ 31
  · rw [toInt32_length hlt]
    simp only [Int.ofNat_lt]
  · have hint := h.resolve_left hlt
    have hmax : maxResultValues = 128 := rfl
    rw [if_pos (by omega), if_pos (by omega)]

theorem storeElems_congr {next next' : Nat → Option (Elem D)} {n i : Nat}
    (h : ∀ j, j < i + n → next j = next' j) (r : Result D) (env : E) :
    storeElems I next n i r env = storeElems I next' n i r env := by
  induction n generalizing i r env with
  | zero => rfl
  | succ n ih =>
    have hrest : ∀ j, j < i + 1 + n → next j = next' j := fun j hj => h j (by omega)
    unfold storeElems
    rw [h i (by omega)]
    simp only [ih hrest]

theorem storeElems_stops {next : Nat → Option (Elem D)} {n i k : Nat} {r r' : Result D}
    {env env' : E} {ok : Bool} {left : Nat} (hr : r.nvalues = i) (hi : i ≤ k) (hk : next k = none)
    (h : storeElems I next n i r env = .done ok r' env' left) : r'.nvalues ≤ k := by
  induction n generalizing i r env with
  | zero =>
    cases h
    omega
  | succ n ih =>
    unfold storeElems at h
    cases he : next i with
    | none =>
      simp only [he] at h
      cases h
      omega
    | some e =>
      have hlt : i < k := by
        obtain hlt | rfl := Nat.lt_or_eq_of_le hi
        · exact hlt
        · rw [hk] at he
          cases he
      simp only [he] at h
      split at h
      · cases h
      · cases h
        rw [set_nvalues]
        omega
      · exact ih (by push_cast; rfl) hlt h

/-- An array whose length does not fit an `int` is cut where it should not be. -/
theorem not_capped_of_not_fits {length : UInt64} (h : ¬ FitsInt length) (elems : Nat → Elem D)
    {r r' : Result D} {env env' : E} {ok : Bool} {left : Nat}
    (hs : storeElems I (jsNext length elems) maxResultValues 0 { r with nvalues := 0 } env =
      .done ok r' env' left) {n : Nat} (hn : r'.nvalues = n) :
    ¬ CappedLength (jsElems length elems) n := by
  unfold FitsInt at h
  push Not at h
  obtain ⟨hlen, hint⟩ := h
  intro hcap
  have hmin : n = min length.toNat maxResultValues := (jsElems_cappedLength ..).1 hcap
  have hend : jsNext length elems length.toUInt32.toInt32.toInt.toNat = none := if_neg (by omega)
  have hle := storeElems_stops (i := 0) rfl (Nat.zero_le _) hend hs
  have hmax : maxResultValues = 128 := rfl
  omega

/-- The length of the array fits an `int`, or else it is cut. -/
theorem jsArray_faithful {I : Interp G E (JsValue D)} (r : Result D) (env : E) (length : UInt64)
    (elems : Nat → Elem D) :
    (jsPostExecute I r env (.array (some length) elems)).Faithful r
        (.sequence (jsElems length elems)) ↔
      FitsInt length ∧ Copies I (jsElems length elems) maxResultValues 0 env := by
  simp only [jsPostExecute]
  by_cases hfits : FitsInt length
  · rw [storeElems_congr fun j hj => jsNext_of_fits hfits elems (by omega), and_iff_right hfits]
    exact storeElems_faithful ..
  · refine iff_of_false ?_ fun h => hfits h.1
    rintro ⟨_, _, _, _, hs, -, n, hn, hcap, -⟩
    exact not_capped_of_not_fits hfits elems hs hn hcap

theorem jsPostExecute_faithful {I : Interp G E (JsValue D)} (r : Result D) (env : E)
    (v : JsValue D) :
    (jsPostExecute I r env v).Faithful r v.meaning ↔ v.Supported ∧ v.meaning.Storable I r env := by
  cases v with
  | array length elems =>
    cases length with
    | none =>
      refine iff_of_false ?_ fun h => h.1
      rintro ⟨_, _, _, _, hm, -⟩
      cases hm
    | some length => exact jsArray_faithful ..
  | symbol text =>
    -- a string, or the NULL that stands for one
    refine iff_of_false ?_ fun h => h.1
    simp only [jsPostExecute, JsValue.meaning, faithful_done_iff, Meaning.InRegister,
      set_zero_values, storeString]
    split <;> simp [ResultValue.type]
  | object =>
    -- `values[nvalues]`: no table may be counted, and then the index is -1
    refine iff_of_false ?_ fun h => h.1
    rintro ⟨_, _, _, _, hm, hwild, hn, -⟩
    cases hm
    rw [set_nvalues] at hn
    rw [hn, Result.set, dif_neg (by decide)] at hwild
    exact List.cons_ne_nil _ _ (List.append_right_eq_self.mp hwild)
  | undefined | null =>
    refine Iff.trans ?_ (and_iff_right trivial).symm
    exact (faithful_scalar ..).trans (and_congr_right fun _ => iff_of_true rfl trivial)
  | boolean b =>
    refine Iff.trans ?_ (and_iff_right trivial).symm
    exact (faithful_scalar ..).trans (and_congr_right fun _ => iff_of_true rfl trivial)
  | number x =>
    refine Iff.trans ?_ (and_iff_right trivial).symm
    exact (faithful_scalar ..).trans (and_congr_right fun _ => iff_of_true rfl trivial)
  | string s =>
    refine Iff.trans ?_ (and_iff_right trivial).symm
    exact faithful_string ..
  | other =>
    refine Iff.trans ?_ (and_iff_right trivial).symm
    exact faithful_invalid ..

/-- **Marshalling is faithful and in bounds exactly for the values that can be stored**: from every
state of the register, for every value, library and workspace. A plain JavaScript object never is,
as it is stored at `values[nvalues]`, and a Symbol never is, as it is stored as a string. -/
theorem post_execute_faithful_iff {D G E : Type u} (r : Result D) (env : E) :
    (∀ (I : Interp G E (LuaValue D)) (v : LuaValue D),
      (luaPostExecute I r env v).Faithful r v.meaning ↔ v.meaning.Storable I r env) ∧
    (∀ (I : Interp G E (JsValue D)) (v : JsValue D),
      (jsPostExecute I r env v).Faithful r v.meaning ↔
        v.Supported ∧ v.meaning.Storable I r env) :=
  ⟨fun _ => luaPostExecute_faithful r env, fun _ => jsPostExecute_faithful r env⟩

/-- A JavaScript library that knows no function, with a workspace that takes every string. -/
def jsRoomy : Interp Unit Unit (JsValue Nat) where
  new := ()
  varnish _ := true
  lookup _ _ := some false
  load _ _ _ := some (false, ())
  stores _ _ _ _ := true
  argv _ _ := true
  call _ _ _ _ := some (none, (), ())
  gc := some
  memory _ := 0
  wsCopy _ _ := (true, ())

/-- A plain object, returned to a fresh register, is written to `values[-1]`. -/
theorem plain_object_out_of_bounds :
    jsPostExecute jsRoomy (.init : Result Nat) () .object = .done true ⟨-1, fun _ => .error, [-1]⟩ () 0 ∧
    ¬ ∀ v : JsValue Nat, (jsPostExecute jsRoomy .init () v).Faithful .init v.meaning := by
  refine ⟨rfl, fun h => ?_⟩
  obtain ⟨_, _, _, _, hm, hwild, -⟩ := h .object
  cases hm
  exact List.cons_ne_nil _ _ hwild

end VmodCfg.Script
