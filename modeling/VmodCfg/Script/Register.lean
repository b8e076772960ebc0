import VmodCfg.Lib.Machine
import VmodCfg.Script.Globals
import VmodCfg.Script.Marshal

/-!
# The result register after an execution

`Shows` is what the accessors should tell of a `Meaning`, and `Outcome.shown` what
they should tell after an execution: the value that the script returned, or an
error. `LuaReflects` and `JsReflects` are when they do: the register starts from
what earlier executions left in it, and an execution does not reset `nvalues`.
-/

namespace VmodCfg.Script

universe u

section Defs

variable {D G E V : Type u}

def Elem.type : Elem D → ResultType
  | .nil => .nil
  | .boolean _ => .boolean
  | .number _ => .number
  | .string _ => .string
  | .table => .table
  | .symbol _ | .other | .raises => .error

def Elem.text (fmt3 : D → List UInt8) : Elem D → Option (List UInt8)
  | .boolean true => some [116, 114, 117, 101]
  | .boolean false => some [102, 97, 108, 115, 101]
  | .number x => some (trimNumber (fmt3 x))
  | .string s => some s
  | _ => none

/-- The accessors show the value, and nothing else; `room` tells whether a text that `get_result`
makes fits the workspace. -/
def Shows {S : Type*} (fmt3 : D → List UInt8) (room : Bool) (st : TaskState D S) : Meaning D → Prop
  | .invalid => (∀ ty, resultIs st ty ↔ ty = .error) ∧ ¬ resultIsTable st
  | .scalar e => (∀ ty, resultIs st ty ↔ ty = e.type) ∧ ¬ resultIsTable st ∧
      vmodScriptGetResult fmt3 st room = e.text fmt3
  | .sequence next => (∀ ty, ¬ resultIs st ty) ∧ resultIsTable st ∧
      ∃ n : Nat, getTableResultLength st = n ∧ CappedLength next n ∧
        ∀ i < n, ∃ e v, next i = some e ∧ tableResultValue st i = some (some v) ∧ e.DescribedBy v

variable (I : Interp G E V)

def Elem.fits (env : E) : Elem D → Bool
  | .string s => (I.wsCopy env (.ofBytes s)).1
  | _ => true

/-- The strings among the first elements fit the workspace. -/
def elemsFit (next : Nat → Option (Elem D)) : Nat → Nat → E → Bool
  | 0, _, _ => true
  | n + 1, i, env =>
    match next i with
    | none => true
    | some e => e.fits I env && elemsFit next n (i + 1) (e.copy I env)

def Meaning.fits (env : E) : Meaning D → Bool
  | .scalar e => e.fits I env
  | .sequence next => elemsFit I next maxResultValues 0 env
  | .invalid => true

/-- What the accessors should show of a value: strings that do not fit the workspace are a failed
execution. -/
def Meaning.shown (env : E) (m : Meaning D) : Meaning D :=
  if m.fits I env then m else .invalid

def Outcome.globals : Outcome G E V → Option G
  | .aborts => none
  | .compileError g _ | .runtimeError g _ | .value _ g _ => some g

def Outcome.shown (meaning : V → Meaning D) : Outcome G E V → Meaning D
  | .value v _ env => (meaning v).shown I env
  | _ => .invalid

/-- `get_result` gives the text of a scalar: it is copied, but for a string, which was. -/
def Elem.Readable (room : Bool) : Elem D → Prop
  | .boolean _ | .number _ => room = true
  | .string s => 0 ∉ s
  | _ => True

/-- The register and the workspace allow for the value to be shown. -/
def Meaning.Reflected (r : Result D) (room : Bool) (env : E) : Meaning D → Prop
  | .scalar e => r.nvalues = -1 ∧ (e.fits I env = true → e.Readable room)
  | .sequence next => Copies I next maxResultValues 0 env
  | .invalid => r.nvalues = -1

/-- The same, of a JavaScript value: a Symbol is shown as an error if the text that stands for it
does not fit the workspace. -/
def JsValue.Reflected (I : Interp G E (JsValue D)) (r : Result D) (room : Bool) (env : E)
    (v : JsValue D) : Prop :=
  match v with
  | .symbol text => r.nvalues = -1 ∧ (I.wsCopy env (.ofBytes text)).1 = false
  | .array none _ => False
  | .array (some length) _ => FitsInt length ∧ v.meaning.Reflected I r room env
  | .object => r.nvalues = -1 ∧ (r.values 0).type = .error
  | _ => v.meaning.Reflected I r room env

/-- The state of the register, and the outcomes, for which the outcome will be shown; `reflected` is
about the values. -/
def Outcome.Reflects (reflected : V → E → Prop) (r : Result D) : Outcome G E V → Prop
  | .aborts => False
  | .compileError _ _ => r.nvalues = -1 ∧ (r.values 0).type = .error
  | .runtimeError g _ => I.takes g .varnish false = true ∧ r.nvalues = -1
  | .value v g env => I.takes g .varnish false = true ∧ reflected v env

def LuaReflects (I : Interp G E (LuaValue D)) (r : Result D) (room : Bool) :
    Outcome G E (LuaValue D) → Prop :=
  fun o => o.Reflects I (fun v env => v.meaning.Reflected I r room env) r

def JsReflects (I : Interp G E (JsValue D)) (r : Result D) (room : Bool) :
    Outcome G E (JsValue D) → Prop :=
  fun o => o.Reflects I (fun v env => v.Reflected I r room env) r

end Defs

/-! ## What a register shows -/

section Shows

variable {D S : Type u} {fmt3 : D → List UInt8} {room : Bool} {st : TaskState D S} {r : Result D}
variable (hinit : st.Initialized)
include hinit

theorem resultIs_iff (ty : ResultType) :
    resultIs (st.withResult r) ty ↔ r.nvalues = -1 ∧ (r.values 0).type = ty :=
  and_iff_right hinit

theorem resultIsTable_iff : resultIsTable (st.withResult r) ↔ 0 ≤ r.nvalues :=
  and_iff_right hinit

theorem resultIs_only_iff (ty : ResultType) :
    ((∀ ty', resultIs (st.withResult r) ty' ↔ ty' = ty) ∧ ¬ resultIsTable (st.withResult r)) ↔
      r.nvalues = -1 ∧ (r.values 0).type = ty := by
  constructor
  · rintro ⟨h, -⟩
    exact (resultIs_iff hinit ty).1 ((h ty).2 rfl)
  · rintro ⟨hn, hty⟩
    refine ⟨fun ty' => ?_, ?_⟩
    · rw [resultIs_iff hinit, hty]
      exact ⟨fun h => h.2.symm, fun h => ⟨hn, h.symm⟩⟩
    · rw [resultIsTable_iff hinit, hn]
      decide

theorem shows_invalid_iff : Shows fmt3 room (st.withResult r) .invalid ↔
    r.nvalues = -1 ∧ (r.values 0).type = .error :=
  resultIs_only_iff hinit .error

theorem shows_invalid_set :
    Shows fmt3 room (st.withResult (r.set 0 .error)) .invalid ↔ r.nvalues = -1 := by
  rw [shows_invalid_iff hinit, set_zero_nvalues, set_zero_values]
  exact and_iff_left rfl

theorem shows_scalar_set {e : Elem D} {v : ResultValue D} (hty : v.type = e.type) :
    Shows fmt3 room (st.withResult (r.set 0 v)) (.scalar e) ↔
      r.nvalues = -1 ∧ getResult fmt3 room v = e.text fmt3 := by
  simp only [Shows]
  rw [← and_assoc, resultIs_only_iff hinit, set_zero_nvalues, set_zero_values, hty, and_assoc]
  refine and_congr_right fun hn => ?_
  have hsingle : (st.withResult (r.set 0 v)).singleResult = some v := by
    rw [TaskState.singleResult]
    exact (if_pos ⟨hinit, hn⟩).trans (congrArg some (set_zero_values r v))
  rw [vmodScriptGetResult, hsingle]
  exact and_iff_right rfl

/-- No error and no scalar is shown while `nvalues` counts the elements of a table. -/
theorem not_shows_invalid (hn : 0 ≤ r.nvalues) :
    ¬ Shows fmt3 room (st.withResult r) .invalid := by
  rw [shows_invalid_iff hinit]
  rintro ⟨h, -⟩
  omega

theorem tableResultValue_eq {n : Nat} (hn : r.nvalues = n) {i : Nat} (hi : i < n)
    (hmax : i < maxResultValues) :
    tableResultValue (st.withResult r) i = some (some (r.values ⟨i, hmax⟩)) := by
  have hc : (st.withResult r).Initialized ∧ 0 ≤ r.nvalues ∧ (i : Int) < r.nvalues :=
    ⟨hinit, by omega, by omega⟩
  have hidx : (0 : Int) ≤ (i : Int) ∧ (i : Int).toNat < maxResultValues := ⟨by omega, by simpa⟩
  exact (if_pos hc).trans (dif_pos hidx)

theorem shows_sequence_iff {next : Nat → Option (Elem D)} :
    Shows fmt3 room (st.withResult r) (.sequence next) ↔ (Meaning.sequence next).InRegister r := by
  constructor
  · rintro ⟨-, htable, n, hlen, hcap, hall⟩
    have hpos := (resultIsTable_iff hinit).1 htable
    have hn : r.nvalues = n := by
      rw [← hlen, getTableResultLength]
      exact (if_pos ⟨hinit, hpos⟩).symm
    refine ⟨n, hn, hcap, fun i hi hlt => ?_⟩
    obtain ⟨e, v, he, hv, hd⟩ := hall i hlt
    rw [tableResultValue_eq hinit hn hlt hi] at hv
    cases hv
    exact ⟨e, he, hd⟩
  · rintro ⟨n, hn, hcap, hall⟩
    have hpos : 0 ≤ r.nvalues := by omega
    refine ⟨fun ty => ?_, (resultIsTable_iff hinit).2 hpos, n, ?_, hcap, fun i hlt => ?_⟩
    · rw [resultIs_iff hinit]
      rintro ⟨hneg, -⟩
      omega
    · rw [← hn]
      exact if_pos ⟨hinit, hpos⟩
    · have hi : i < maxResultValues := Nat.lt_of_lt_of_le hlt hcap.capped
      obtain ⟨e, he, hd⟩ := hall i hi hlt
      exact ⟨e, _, he, tableResultValue_eq hinit hn hlt hi, hd⟩

end Shows

/-! ## The register after `post_execute` -/

section Marshal

variable {D G E S V : Type u} {I : Interp G E V} {fmt3 : D → List UInt8} {room : Bool}
  {st : TaskState D S} {r : Result D} {env : E}

/-- The register after an execution that stored the value, or failed to. -/
def settled (ok : Bool) (r : Result D) : Result D := if ok then r else r.set 0 .error

/-- `P` decides whether the accessors show `m`: if it holds, then nothing is left above the value,
and they do; and else they do not, whatever is left. -/
def Marshal.Decides (fmt3 : D → List UInt8) (room : Bool) (st : TaskState D S) (m : Meaning D)
    (P : Prop) : Marshal D E → Prop
  | .done ok r _ left => (P → left = 0 ∧ Shows fmt3 room (st.withResult (settled ok r)) m) ∧
      (¬ P → ¬ Shows fmt3 room (st.withResult (settled ok r)) m)
  | .abort => ¬ P

theorem settled_nvalues (ok : Bool) (r : Result D) : (settled ok r).nvalues = r.nvalues := by
  cases ok <;> rfl

theorem done_decides {ok : Bool} {m : Meaning D} {P : Prop}
    (h : Shows fmt3 room (st.withResult (settled ok r)) m ↔ P) :
    (Marshal.done ok r env 0).Decides fmt3 room st m P :=
  ⟨fun hP => ⟨rfl, h.2 hP⟩, fun hP hs => hP (h.1 hs)⟩

theorem boolean_readable (b : Bool) :
    getResult fmt3 room (.boolean b) = (Elem.boolean b).text fmt3 ↔
      (Elem.boolean b : Elem D).Readable room := by
  cases room <;> cases b <;> simp [getResult, Elem.text, Elem.Readable]

theorem number_readable (x : D) :
    getResult fmt3 room (.number x) = (Elem.number x).text fmt3 ↔
      (Elem.number x).Readable room := by
  cases room <;> simp [getResult, Elem.text, Elem.Readable]

theorem elemsFit_of_copies {next : Nat → Option (Elem D)} {n i : Nat}
    (h : Copies I next n i env) : elemsFit I next n i env = true := by
  induction n generalizing i env with
  | zero => rfl
  | succ n ih =>
    unfold Copies at h
    unfold elemsFit
    cases he : next i with
    | none => rfl
    | some e =>
      simp only [he] at h ⊢
      rw [ih h.2, Bool.and_true]
      cases e with
      | string s => exact h.1.2
      | _ => rfl

theorem sequence_shown_cases (next : Nat → Option (Elem D)) (env : E) :
    (Meaning.sequence next).shown I env = .sequence next ∨
      (Meaning.sequence next).shown I env = .invalid := by
  unfold Meaning.shown
  split
  · exact .inl rfl
  · exact .inr rfl

variable (hinit : st.Initialized)
include hinit

/-- A register that counts elements shows neither an error, nor a sequence that it does not
describe. -/
theorem not_shows_sequence {next : Nat → Option (Elem D)} (hpos : 0 ≤ r.nvalues)
    (hno : ¬ (Meaning.sequence next).InRegister r) :
    ¬ Shows fmt3 room (st.withResult r) ((Meaning.sequence next).shown I env) := by
  obtain heq | heq := sequence_shown_cases (I := I) next env
  · rw [heq, shows_sequence_iff hinit]
    exact hno
  · rw [heq]
    exact not_shows_invalid hinit hpos

theorem storeElems_decides (next : Nat → Option (Elem D)) :
    (storeElems I next maxResultValues 0 { r with nvalues := 0 } env).Decides fmt3 room st
      ((Meaning.sequence next).shown I env) (Copies I next maxResultValues 0 env) := by
  have hfaithful := storeElems_faithful (I := I) next r env
  cases hs : storeElems I next maxResultValues 0 { r with nvalues := 0 } env with
  | abort =>
    intro hc
    obtain ⟨_, _, _, _, hm, -⟩ := hfaithful.2 hc
    rw [hs] at hm
    cases hm
  | done ok r' env' left =>
    have hpos := (storeElems_nvalues (i := 0) rfl hs).1
    have hleft := storeElems_left hs
    rw [hs, faithful_done_iff] at hfaithful
    cases ok with
    | true =>
      refine ⟨fun hc => ⟨hleft, ?_⟩, fun hc => not_shows_sequence hinit hpos fun hr => hc ?_⟩
      · rw [Meaning.shown, Meaning.fits, elemsFit_of_copies hc, if_pos rfl]
        exact (shows_sequence_iff hinit).2 (hfaithful.2 hc).2
      · have hwild := storeElems_wild (Nat.le_of_eq (Nat.zero_add _)) hs
        exact hfaithful.1 ⟨hwild, hr⟩
    | false =>
      -- the loop stopped at an element, below the cap
      obtain ⟨j, hj, hlt, hne⟩ := storeElems_failed rfl hs
      have hcut : ∀ n : Nat, r'.nvalues = n → ¬ CappedLength next n := by
        intro n hn hcap
        obtain rfl : j = n := by omega
        exact hne (hcap.ends (by omega))
      refine ⟨fun hc => ?_, fun hc => not_shows_sequence hinit ?_ ?_⟩
      · obtain ⟨-, n, hn, hcap, -⟩ := hfaithful.2 hc
        exact absurd hcap (hcut n hn)
      · rw [settled_nvalues]
        omega
      · rintro ⟨n, hn, hcap, -⟩
        rw [settled_nvalues] at hn
        exact hcut n hn hcap

/-- The string is shown if it was copied whole; where it does not fit, an error is. -/
theorem storeString_decides (s : List UInt8) (env' : E) :
    (Marshal.done (storeString (D := D) I env s).1 (r.set 0 (storeString I env s).2.1) env' 0).Decides
      fmt3 room st ((Meaning.scalar (.string s)).shown I env)
      ((Meaning.scalar (.string s)).Reflected I r room env) := by
  apply done_decides
  rcases hws : I.wsCopy env (.ofBytes s) with ⟨ok, env₁⟩
  simp only [storeString, hws, Meaning.shown, Meaning.fits, Meaning.Reflected, Elem.fits]
  cases ok with
  | false =>
    simp only [settled, Bool.false_eq_true, if_false, false_implies, and_true]
    exact shows_invalid_set hinit
  | true =>
    simp only [settled, if_true, Elem.Readable, forall_const]
    rw [shows_scalar_set hinit rfl]
    refine and_congr_right fun _ => ?_
    simp only [getResult, Elem.text, Option.map_some, Option.some.injEq]
    constructor
    · intro h
      rw [← h]
      exact (CString.ofBytes s).no_nul
    · intro h0
      exact congrArg CString.bytes (CString.ofBytes_bytes ⟨s, h0⟩)

/-- A scalar that is not a string is shown unless `nvalues` counts a table, given the room. -/
theorem scalar_decides {e : Elem D} {v : ResultValue D} (hty : v.type = e.type)
    (hfits : e.fits I env = true)
    (htext : getResult fmt3 room v = e.text fmt3 ↔ e.Readable room) (env' : E) :
    (Marshal.done true (r.set 0 v) env' 0).Decides fmt3 room st ((Meaning.scalar e).shown I env)
      ((Meaning.scalar e).Reflected I r room env) := by
  apply done_decides
  simp only [settled, if_true, Meaning.shown, Meaning.fits, hfits, Meaning.Reflected, forall_const]
  rw [shows_scalar_set hinit hty, htext]

theorem error_decides (ok : Bool) (env' : E) :
    (Marshal.done ok (r.set 0 .error) env' 0).Decides fmt3 room st
      ((Meaning.invalid : Meaning D).shown I env)
      ((Meaning.invalid : Meaning D).Reflected I r room env) := by
  apply done_decides
  have hshown : (Meaning.invalid : Meaning D).shown I env = .invalid := if_pos rfl
  rw [hshown]
  cases ok with
  | false => exact shows_invalid_set (r := r.set 0 .error) hinit
  | true => exact shows_invalid_set hinit

end Marshal

section Lua

variable {D G E S : Type u} {I : Interp G E (LuaValue D)} {fmt3 : D → List UInt8}
  {st : TaskState D S}

theorem luaPostExecute_decides (hinit : st.Initialized) (r : Result D) (room : Bool) (env : E)
    (v : LuaValue D) :
    (luaPostExecute I r env v).Decides fmt3 room st (v.meaning.shown I env)
      (v.meaning.Reflected I r room env) := by
  cases v with
  | nil => exact scalar_decides (e := .nil) hinit rfl rfl (iff_of_true rfl trivial) env
  | boolean b => exact scalar_decides hinit rfl rfl (boolean_readable b) env
  | number x => exact scalar_decides hinit rfl rfl (number_readable x) env
  | string s => exact storeString_decides hinit s _
  | table elems => exact storeElems_decides hinit _
  | other => exact error_decides hinit false env

end Lua

section JavaScript

variable {D G E S : Type u} {I : Interp G E (JsValue D)} {fmt3 : D → List UInt8} {room : Bool}
  {st : TaskState D S} {r : Result D} {env : E}

/-- The elements that are stored are those of the array, or it is cut too early. -/
theorem jsArray_decides (hinit : st.Initialized) (length : UInt64) (elems : Nat → Elem D) :
    (jsPostExecute I r env (.array (some length) elems)).Decides fmt3 room st
      ((JsValue.array (some length) elems).meaning.shown I env)
      ((JsValue.array (some length) elems).Reflected I r room env) := by
  simp only [jsPostExecute, JsValue.meaning, JsValue.Reflected]
  by_cases hfits : FitsInt length
  · rw [storeElems_congr fun j hj => jsNext_of_fits hfits elems (by omega)]
    simp only [hfits, true_and]
    exact storeElems_decides hinit _
  · simp only [hfits, false_and]
    cases hs : storeElems I (jsNext length elems) maxResultValues 0 { r with nvalues := 0 } env with
    | abort => exact id
    | done ok r' env' left =>
      have hpos := (storeElems_nvalues (i := 0) rfl hs).1
      refine ⟨False.elim, fun _ => not_shows_sequence hinit (by rw [settled_nvalues]; omega) ?_⟩
      rintro ⟨n, hn, hcap, -⟩
      rw [settled_nvalues] at hn
      exact not_capped_of_not_fits hfits elems hs hn hcap

theorem jsPostExecute_decides (hinit : st.Initialized) (r : Result D) (room : Bool) (env : E)
    (v : JsValue D) :
    (jsPostExecute I r env v).Decides fmt3 room st (v.meaning.shown I env)
      (v.Reflected I r room env) := by
  cases v with
  | undefined | null => exact scalar_decides (e := .nil) hinit rfl rfl (iff_of_true rfl trivial) env
  | boolean b => exact scalar_decides hinit rfl rfl (boolean_readable b) env
  | number x => exact scalar_decides hinit rfl rfl (number_readable x) env
  | string s => exact storeString_decides hinit s _
  | symbol text =>
    apply done_decides
    have hshown : (Meaning.invalid : Meaning D).shown I env = .invalid := if_pos rfl
    rw [JsValue.meaning, hshown, JsValue.Reflected]
    rcases I.wsCopy env (.ofBytes text) with ⟨_ | _, env'⟩
    · refine Iff.trans ?_ (and_iff_left rfl).symm
      exact shows_invalid_set (r := r.set 0 (.string none)) hinit
    · refine iff_of_false ?_ fun h => Bool.false_ne_true h.2.symm
      rw [settled, if_pos rfl, shows_invalid_iff hinit, set_zero_values]
      rintro ⟨-, h⟩
      cases h
  | array length elems =>
    cases length with
    | none => exact id
    | some length => exact jsArray_decides hinit length elems
  | object =>
    apply done_decides
    have hshown : (Meaning.invalid : Meaning D).shown I env = .invalid := if_pos rfl
    rw [JsValue.meaning, hshown, settled, if_pos rfl, shows_invalid_iff hinit, set_nvalues]
    refine and_congr_right fun hn => ?_
    -- `values[-1]` is written, and `values[0]` stays as it was
    rw [hn]
    exact Iff.rfl
  | other => exact error_decides hinit false env

end JavaScript

/-! ## The register after an execution -/

section Finish

variable {D G E S V : Type u} {I : Interp G E V} {post : Result D → E → V → Marshal D E}
  {missed : V → Slot V} {meaning : V → Meaning D} {reflected : V → E → Prop}
  {fmt3 : D → List UInt8} {room : Bool} {st : TaskState D S} {r : Result D}

theorem finish_result {L : Vm G V} {unknown : Bool} {o : Outcome G E V} {x : Executed D G E V}
    (h : I.finish post missed L r unknown o = some x) : ∃ r', x.result = some r' := by
  cases finish_finishes h with
  | compileError hs hvm hr henv => exact ⟨_, hr⟩
  | runtimeError hc hs hvm hr henv => exact ⟨_, hr⟩
  | value hp hs hvm hc hr henv => exact ⟨_, hr⟩

variable (missed) in
/-- The execution returns, and the register it leaves shows the outcome, exactly when the outcome is
reflected; `P` holds of the globals that it leaves. -/
theorem finish_shows (hinit : st.Initialized)
    (hpost : ∀ v env, (post r env v).Decides fmt3 room st ((meaning v).shown I env)
      (reflected v env)) (L : Vm G V) (unknown : Bool) (o : Outcome G E V) (P : G → Prop) :
    (∃ x r', I.finish post missed L r unknown o = some x ∧ x.result = some r' ∧ P x.vm.globals ∧
        Shows fmt3 room (st.withResult r') (o.shown I meaning)) ↔
      o.Reflects I reflected r ∧ ∀ g, o.globals = some g → P g := by
  cases o with
  | aborts =>
    refine iff_of_false ?_ fun h => h.1
    rintro ⟨x, r', hx, -⟩
    cases hx
  | compileError g env =>
    simp only [Outcome.globals, Option.some.injEq, forall_eq']
    constructor
    · rintro ⟨x, r', hx, hr, hP, hs⟩
      cases hx
      cases hr
      exact ⟨(shows_invalid_iff hinit).1 hs, hP⟩
    · rintro ⟨hr, hP⟩
      exact ⟨_, r, rfl, rfl, hP, (shows_invalid_iff hinit).2 hr⟩
  | runtimeError g env =>
    simp only [Outcome.globals, Option.some.injEq, forall_eq']
    constructor
    · rintro ⟨x, r', hx, hr, hP, hs⟩
      cases finish_finishes hx with
      | runtimeError hc hsuc hvm hr' henv =>
        rw [hr'] at hr
        cases hr
        rw [hvm] at hP
        exact ⟨⟨hc, (shows_invalid_set hinit).1 hs⟩, hP⟩
    · rintro ⟨⟨hc, hn⟩, hP⟩
      exact ⟨_, _, if_pos hc, rfl, hP, (shows_invalid_set hinit).2 hn⟩
  | value v g env =>
    simp only [Outcome.globals, Option.some.injEq, forall_eq']
    have hdec := hpost v env
    constructor
    · rintro ⟨x, r', hx, hr, hP, hs⟩
      cases finish_finishes hx with
      | value hp hsuc hvm hc hr' henv =>
        rename_i ok r₁ env' left
        rw [hp] at hdec
        rw [hr'] at hr
        cases hr
        have hv : reflected v env := by
          by_contra hno
          exact hdec.2 hno hs
        obtain ⟨rfl, -⟩ := hdec.1 hv
        rw [hvm] at hP
        exact ⟨⟨hc rfl, hv⟩, hP⟩
    · rintro ⟨⟨hc, hv⟩, hP⟩
      cases hp : post r env v with
      | abort =>
        rw [hp] at hdec
        exact absurd hv hdec
      | done ok r₁ env' left =>
        rw [hp] at hdec
        obtain ⟨rfl, hs⟩ := hdec.1 hv
        refine ⟨⟨ok, L.left g, some (settled ok r₁), env', unknown⟩, _, ?_, rfl, hP, hs⟩
        simp only [Interp.finish, hp, hc, if_true]
        rfl

end Finish

/-! ## The register after `vmod_script_execute` -/

section Execute

variable {D G E S V : Type u} {I : Interp G (E × S) V} {cfg : ScriptCfg}

theorem shows_congr {fmt3 : D → List UInt8} {room : Bool} {st st' : TaskState D S}
    (h : st.execution = st'.execution) (m : Meaning D) :
    Shows fmt3 room st m ↔ Shows fmt3 room st' m := by
  obtain ⟨v, x⟩ := st
  obtain ⟨v', x'⟩ := st'
  cases h
  cases m <;> exact Iff.rfl

theorem selectCode_initialized {s : ScriptState G V} {st : TaskState D S} {env env₁ : E × S}
    {args : List CString} {code : CString} {name : Option CString}
    (h : selectCode I s st.execution env = .code args code name env₁) : st.Initialized := by
  unfold selectCode at h
  unfold TaskState.Initialized
  split at h
  · cases h
  · rename_i ha _
    rw [ha]
    rfl
  · cases h
  · rename_i ha _ _
    rw [ha]
    rfl

/-- The inputs of an execution that runs a script: the engine that was locked, the code that was
chosen, its arguments and the world. -/
structure Running (I : Interp G (E × S) V) (cfg : ScriptCfg) (s : ScriptState G V)
    (st : TaskState D S) (env : E) (engine : Engine (Vm G V)) (args : List CString)
    (code name : CString) (env₁ : E × S) : Prop where
  selected : ∃ name?, selectCode I s st.execution (env, st.taskVariables) =
    .code args code name? env₁ ∧ name = name?.getD (cfg.functionName code)
  locked : ∃ e p, lockEngine cfg.pool s.pool (Vm.init I) (I.memory I.new) = (some e, p) ∧
    p.heap e = some engine

def ReturnsShowing (I : Interp G (E × S) V) (cfg : ScriptCfg) (exec : Exec D G (E × S) V)
    (fmt3 : D → List UInt8) (s : ScriptState G V) (st : TaskState D S) (env : E) (gcCollect : Bool)
    (room : Bool) (m : Meaning D) : Prop :=
  ∃ st' s' env', vmodScriptExecute I cfg exec s st env gcCollect = .returned (st', s', env') ∧
    Shows fmt3 room st' m

theorem returnsShowing_iff {exec : Exec D G (E × S) V} {fmt3 : D → List UInt8}
    {s : ScriptState G V} {st : TaskState D S} {env : E} {engine : Engine (Vm G V)}
    {args : List CString} {code name : CString} {env₁ : E × S}
    (hrun : Running I cfg s st env engine args code name env₁) (gcCollect room : Bool)
    (m : Meaning D) :
    ReturnsShowing I cfg exec fmt3 s st env gcCollect room m ↔
      ∃ x, exec engine.ctx code name (some (args, st.execution.result)) env₁ = some x ∧
        Collects I cfg engine.ncycles gcCollect x.vm.globals ∧
        Shows fmt3 room (st.withResult (x.result.getD st.execution.result)) m := by
  obtain ⟨⟨name?, hsel, rfl⟩, e, p, hlock, heng⟩ := hrun
  unfold ReturnsShowing
  simp only [vmodScriptExecute, hsel, apiExecute, hlock, executeOn, heng]
  cases hx : exec engine.ctx code (name?.getD (cfg.functionName code))
      (some (args, st.execution.result)) env₁ with
  | none =>
    simp only [Ends.map]
    refine iff_of_false ?_ ?_
    · rintro ⟨_, _, _, h, -⟩
      cases h
    · rintro ⟨_, h, -⟩
      cases h
  | some x =>
    simp only
    have hcollect : (callCollector I cfg engine.ncycles gcCollect x.vm).isSome ↔
        Collects I cfg engine.ncycles gcCollect x.vm.globals := callCollector_isSome_iff
    rcases hc : callCollector I cfg engine.ncycles gcCollect x.vm with _ | ⟨gc, vm⟩
    · rw [hc] at hcollect
      simp only [Ends.map]
      refine iff_of_false ?_ ?_
      · rintro ⟨_, _, _, h, -⟩
        cases h
      · rintro ⟨x', hx', hcol, -⟩
        cases hx'
        exact absurd (hcollect.2 hcol) (by simp)
    · rw [hc] at hcollect
      have hcol := hcollect.1 rfl
      simp only [Ends.map]
      constructor
      · rintro ⟨st', s', env', heq, hshow⟩
        cases heq
        exact ⟨x, rfl, hcol, (shows_congr rfl m).1 hshow⟩
      · rintro ⟨x', heq, -, hshow⟩
        cases heq
        exact ⟨_, _, _, rfl, (shows_congr rfl m).1 hshow⟩

/-- An execution that runs a script shows its outcome exactly if that is reflected, and the engine
can be collected. -/
theorem execute_shows {post : Result D → E × S → V → Marshal D (E × S)} {missed : V → Slot V}
    {meaning : V → Meaning D} {reflected : V → E × S → Prop} {fmt3 : D → List UInt8}
    {s : ScriptState G V} {st : TaskState D S} {env : E} {gcCollect room : Bool}
    {engine : Engine (Vm G V)} {args : List CString} {code name : CString} {env₁ : E × S}
    (hpost : st.Initialized → ∀ v env, (post st.execution.result env v).Decides fmt3 room st
      ((meaning v).shown I env) (reflected v env))
    (hrun : Running I cfg s st env engine args code name env₁) :
    ReturnsShowing I cfg (I.execute post missed) fmt3 s st env gcCollect room
        ((I.outcome engine.ctx.globals code name args env₁).shown I meaning) ↔
      (I.outcome engine.ctx.globals code name args env₁).Reflects I reflected st.execution.result ∧
        ∀ g, (I.outcome engine.ctx.globals code name args env₁).globals = some g →
          Collects I cfg engine.ncycles gcCollect g := by
  have hinit : st.Initialized := by
    obtain ⟨⟨_, hsel, -⟩, -⟩ := hrun
    exact selectCode_initialized hsel
  rw [returnsShowing_iff hrun, ← finish_shows missed hinit (hpost hinit) engine.ctx
    (I.lookup engine.ctx.globals name != some true)]
  refine exists_congr fun x => ?_
  constructor
  · rintro ⟨hx, hc, hs⟩
    obtain ⟨r', hr'⟩ := finish_result hx
    rw [hr', Option.getD_some] at hs
    exact ⟨r', hx, hr', hc, hs⟩
  · rintro ⟨r', hx, hr', hc, hs⟩
    refine ⟨hx, hc, ?_⟩
    rw [hr']
    exact hs

end Execute

theorem luaExecute_shows {D G E S : Type u} {I : Interp G (E × S) (LuaValue D)} {cfg : ScriptCfg}
    {fmt3 : D → List UInt8} {s : ScriptState G (LuaValue D)} {st : TaskState D S} {env : E}
    {gcCollect room : Bool} {engine : Engine (Vm G (LuaValue D))} {args : List CString}
    {code name : CString} {env₁ : E × S} (hrun : Running I cfg s st env engine args code name env₁) :
    ReturnsShowing I cfg (executeLua I) fmt3 s st env gcCollect room
        ((I.outcome engine.ctx.globals code name args env₁).shown I LuaValue.meaning) ↔
      LuaReflects I st.execution.result room (I.outcome engine.ctx.globals code name args env₁) ∧
        ∀ g, (I.outcome engine.ctx.globals code name args env₁).globals = some g →
          Collects I cfg engine.ncycles gcCollect g := by
  rw [executeLua_eq]
  exact execute_shows (fun hinit v env => luaPostExecute_decides hinit _ room env v) hrun

theorem jsExecute_shows {D G E S : Type u} {I : Interp G (E × S) (JsValue D)} {cfg : ScriptCfg}
    {fmt3 : D → List UInt8} {s : ScriptState G (JsValue D)} {st : TaskState D S} {env : E}
    {gcCollect room : Bool} {engine : Engine (Vm G (JsValue D))} {args : List CString}
    {code name : CString} {env₁ : E × S} (hrun : Running I cfg s st env engine args code name env₁) :
    ReturnsShowing I cfg (executeJavascript I) fmt3 s st env gcCollect room
        ((I.outcome engine.ctx.globals code name args env₁).shown I JsValue.meaning) ↔
      JsReflects I st.execution.result room (I.outcome engine.ctx.globals code name args env₁) ∧
        ∀ g, (I.outcome engine.ctx.globals code name args env₁).globals = some g →
          Collects I cfg engine.ncycles gcCollect g := by
  rw [executeJavascript_eq]
  exact execute_shows (fun hinit v env => jsPostExecute_decides hinit _ room env v) hrun

/-! ## The calls of a task -/

section Calls

variable {D G E S V : Type u}

/-- A call of a task. What an execution finds of the script object and of the rest of the world is
part of the call, as other tasks change both between two calls, and so is `room`: does the text of a
`get_result` right after it fit the workspace? -/
inductive TaskCall (G E V : Type u) where
  | init (code : Option CString)
  | push (arg : Option CString) (room : Bool)
  | execute (s : ScriptState G V) (env : E) (gcCollect room : Bool)
  | freeResult

variable (I : Interp G (E × S) V) (cfg : ScriptCfg) (exec : Exec D G (E × S) V)
  (fmt3 : D → List UInt8)

def taskStep (st : TaskState D S) : TaskCall G E V → Option (TaskState D S)
  | .init code => some (vmodScriptInit st code)
  | .push arg room => some (vmodScriptPush st arg room)
  | .freeResult => some (vmodScriptFreeResult st)
  | .execute s env gcCollect _ =>
    match vmodScriptExecute I cfg exec s st env gcCollect with
    | .returned (st', _, _) => some st'
    | .blocked | .aborted => none

/-- If the call executes a script, then it returns, and the accessors show the outcome. -/
def ShowsOutcome (meaning : V → Meaning D) (st : TaskState D S) : TaskCall G E V → Prop
  | .execute s env gcCollect room => ∀ engine args code name env₁,
      Running I cfg s st env engine args code name env₁ →
        ReturnsShowing I cfg exec fmt3 s st env gcCollect room
          ((I.outcome engine.ctx.globals code name args env₁).shown I meaning)
  | _ => True

/-- If the call executes a script, then the register it starts from, and the outcome, are such that
the outcome will be shown. -/
def Reflects (reflects : Result D → Bool → Outcome G (E × S) V → Prop) (st : TaskState D S) :
    TaskCall G E V → Prop
  | .execute s env gcCollect room => ∀ engine args code name env₁,
      Running I cfg s st env engine args code name env₁ →
        reflects st.execution.result room (I.outcome engine.ctx.globals code name args env₁) ∧
          ∀ g, (I.outcome engine.ctx.globals code name args env₁).globals = some g →
            Collects I cfg engine.ncycles gcCollect g
  | _ => True

theorem showsOutcome_iff_reflects {meaning : V → Meaning D}
    {reflects : Result D → Bool → Outcome G (E × S) V → Prop}
    (h : ∀ {s st env gcCollect room engine args code name env₁},
      Running I cfg s st env engine args code name env₁ →
        (ReturnsShowing I cfg exec fmt3 s st env gcCollect room
            ((I.outcome engine.ctx.globals code name args env₁).shown I meaning) ↔
          reflects st.execution.result room (I.outcome engine.ctx.globals code name args env₁) ∧
            ∀ g, (I.outcome engine.ctx.globals code name args env₁).globals = some g →
              Collects I cfg engine.ncycles gcCollect g))
    (st : TaskState D S) (c : TaskCall G E V) :
    ShowsOutcome I cfg exec fmt3 meaning st c ↔ Reflects I cfg reflects st c := by
  cases c with
  | execute s env gcCollect room =>
    constructor
    · intro hs engine args code name env₁ hrun
      exact (h hrun).1 (hs engine args code name env₁ hrun)
    · intro hr engine args code name env₁ hrun
      exact (h hrun).2 (hr engine args code name env₁ hrun)
  | _ => exact Iff.rfl

end Calls

/-- A Lua library in which every chunk defines the same function. -/
def luaTwice : Interp Bool (Nat × Unit) (LuaValue Nat) where
  new := false
  varnish _ := true
  lookup g _ := some g
  load _ _ _ := some (true, true)
  stores _ x _ _ := x.isVarnish
  argv _ _ := true
  call g _ _ env :=
    some (some (if env.1 = 0 then .table fun i => if i = 0 then .number 5 else .nil else .number 7),
      g, env)
  gc := some
  memory _ := 0
  wsCopy env _ := (true, env)

def twiceCfg : ScriptCfg := ⟨⟨1, 0⟩, 1, fun code => code⟩

def twiceState : ScriptState Bool (LuaValue Nat) := ⟨.init, none⟩

/-- A table, and then a number: there is no `init` and no `free_result` in between. -/
def twiceCalls : List (TaskCall Bool Nat (LuaValue Nat)) :=
  [.init (some (.ofBytes [120])), .execute twiceState 0 false true, .execute twiceState 1 false true]

end VmodCfg.Script
