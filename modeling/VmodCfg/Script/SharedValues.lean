import VmodCfg.Lib.NumeralText
import VmodCfg.Script.Init
import VmodCfg.Script.TaskScope

/-!
# Which values survive `varnish.shared`

`shared.set` turns a value into a text with a tag, which is stored as a C string; `shared.get` takes
the text apart. The numbers of Lua are written with `%.14g`, those of JavaScript with as many digits
as they need. The strings of JavaScript are bytes in which a continuation byte of UTF-8 belongs to
the character before it, and some first bytes make a string a symbol (duktape.c).

NaN is no value here. Numbers are read from decimal numerals only.
-/

namespace VmodCfg.Script

open Binary64

/-! ## The numbers of the engines -/

/-- `tonumber` and `Number`, of a decimal numeral -/
def ofNumeral (l : List UInt8) : Option Double :=
  match Numeral.scan l with
  | some (x, []) => some (.ofRat x.value)
  | _ => none

def luaText : Double → List UInt8
  | .finite q _ => (Numeral.general 14 q).text 2
  | .infinite negative => if negative then [45, 105, 110, 102] else [105, 110, 102]

def jsText : Double → List UInt8
  | .finite q _ => (Numeral.ecma q).text 1
  | .infinite negative =>
    (if negative then [45] else []) ++ [73, 110, 102, 105, 110, 105, 116, 121]

/-- The conversions of an engine; `N` has the operations that `serialize` and `unserialize` do not
use. -/
def numbers (N : Numbers Double) : EngineType → Numbers Double
  | .lua => { N with toText := luaText, ofText := ofNumeral }
  | .javascript => { N with toText := jsText, ofText := ofNumeral }

/-! ## The strings of JavaScript -/

def isContinuation (c : UInt8) : Bool := 0x80 ≤ c && c ≤ 0xbf

def isSymbol (s : List UInt8) : Bool :=
  match s with
  | c :: _ => c == 0x80 || c == 0x81 || c == 0x82 || c == 0xff
  | [] => false

def charLength (s : List UInt8) : Nat := s.countP fun c => !isContinuation c

/-- The first `n` characters, and the rest, for a string that starts with a character. -/
def splitChars : Nat → List UInt8 → List UInt8 × List UInt8
  | 0, s => ([], s)
  | _ + 1, [] => ([], [])
  | n + 1, c :: s =>
    let (head, body) := splitChars n (s.dropWhile isContinuation)
    (c :: (s.takeWhile isContinuation ++ head), body)

/-- What a string of bytes is as a value. -/
def jsString {D : Type*} (s : List UInt8) : Value D := if isSymbol s then .other else .string s

section Defs

variable (N : Numbers Double)

/-- `serialize` in both helpers -/
def serializeIn (type : EngineType) (v : Value Double) : Option (List UInt8) :=
  match type, v with
  | .javascript, .string s => serialize (numbers N .javascript) (jsString s)
  | _, _ => serialize (numbers N type) v

/-- `unserialize` of script_javascript_helpers.js -/
def jsUnserialize (s : List UInt8) : Option (Value Double) :=
  if 2 ≤ charLength s then
    let (head, body) := splitChars 2 s
    if head = [110, 58] then ((numbers N .javascript).ofText body).map .number
    else if head = [115, 58] then some (jsString body)
    else if head = [98, 58] then some (.boolean (body = [49]))
    else none
  else none

def unserializeIn : EngineType → List UInt8 → Option (Value Double)
  | .lua => unserialize (numbers N .lua)
  | .javascript => jsUnserialize N

def keyText (type : EngineType) (key : List UInt8) : Option CString :=
  if type = .javascript ∧ isSymbol key then none else some (.ofBytes key)

variable (ws : WsLib) (s : TaskView) (type : EngineType) (key : List UInt8) (scope : CString)

def TaskView.set (key value scope : CString) : Bool × TaskView :=
  if scope = scopeTask then setTaskScope ws s key value
  else if scope = scopeGlobal then (true, { s with global := globalSet s.global key value })
  else (true, s)

def TaskView.unset (key scope : CString) : TaskView :=
  { s with
    task := if scope = scopeTask ∨ scope = scopeAll then s.task.erase key else s.task
    global := if scope = scopeGlobal ∨ scope = scopeAll then globalUnset s.global key else s.global }

/-- `shared.set`; `none` is an error that was raised. -/
def setValue (v : Value Double) : Option TaskView :=
  match v with
  | .nil => (keyText type key).map fun key => if key.bytes = [] then s else s.unset key scope
  | _ =>
    match serializeIn N type v, keyText type key with
    | some text, some key => some (if key.bytes = [] then s else (s.set ws key (.ofBytes text) scope).2)
    | _, _ => none

def getValue : Option (Value Double) :=
  match keyText type key with
  | none => none
  | some key =>
    match (if key.bytes = [] then none else s.get ws key scope) with
    | none => some .nil
    | some svalue => unserializeIn N type svalue.bytes

def RoundTrips (v : Value Double) : Prop :=
  ∃ s', setValue N ws s type key scope v = some s' ∧ getValue N ws s' type key scope = some v

/-- The set does not fail, and the copy of a global value fits. -/
def EnoughWorkspace (key text : CString) : Prop :=
  if scope = scopeTask then (setTaskScope ws s key text).1 = true else ws.Fits s.free text

end Defs

/-- The values of the scripts: booleans, integers that are doubles, and strings of any bytes. -/
inductive Plain where
  | boolean (b : Bool)
  | integer (n : ℤ) (exact : |n| ≤ 2 ^ 53)
  | string (s : List UInt8)

def Plain.value : Plain → Value Double
  | .boolean b => .boolean b
  | .integer n h => .number (.finite n (representable_intCast h))
  | .string s => .string s

/-- The key is not cut to nothing, and is no symbol. -/
def KeyKept (type : EngineType) (key : List UInt8) : Prop :=
  key.head? ≠ some 0 ∧ (type = .javascript → isSymbol key = false)

/-- An integer that `%.14g` writes in full. -/
def FourteenDigits (n : ℤ) : Prop := |n| < 10 ^ 14 ∨ |n| < 10 ^ 15 ∧ 10 ∣ n ∨ 100 ∣ n

/-- A string that is not cut, and that JavaScript takes for a string before and after. -/
def StringKept (type : EngineType) (s : List UInt8) : Prop :=
  0 ∉ s ∧ (type = .javascript → ∀ c ∈ s.head?, isContinuation c = false ∧ c ≠ 0xff)

def Survives (type : EngineType) : Plain → Prop
  | .boolean _ => True
  | .integer n _ => type = .javascript ∨ FourteenDigits n
  | .string s => StringKept type s

/-! ## The store -/

section Store

variable {N : Numbers Double} {ws : WsLib} {s : TaskView} {key text scope : CString}

theorem setTaskScope_get (h : (setTaskScope ws s key text).1 = true) :
    (setTaskScope ws s key text).2.task[key]? = some (some text) := by
  have hcopy : ∀ s : TaskView, (copyValue ws s key text).1 = true →
      (copyValue ws s key text).2.task[key]? = some (some text) := by
    intro s hs
    unfold copyValue at hs ⊢
    cases hvalue : ws.copy s.free text with
    | none =>
      rw [hvalue] at hs
      cases hs
    | some free => exact Std.ExtTreeMap.getElem?_insert_self
  unfold setTaskScope at h ⊢
  cases hkey : s.task[key]? with
  | some old =>
    simp only [hkey] at h ⊢
    exact hcopy s h
  | none =>
    simp only [hkey] at h ⊢
    cases hnode : ws.alloc s.free ws.node with
    | none =>
      rw [hnode] at h
      cases h
    | some free =>
      simp only [hnode] at h ⊢
      cases hname : ws.copy free key with
      | none =>
        rw [hname] at h
        cases h
      | some free =>
        simp only [hname] at h ⊢
        exact hcopy _ h

theorem get_set (hscope : scope = scopeTask ∨ scope = scopeGlobal)
    (hroom : EnoughWorkspace ws s scope key text) :
    (s.set ws key text scope).2.get ws key scope = some text := by
  unfold EnoughWorkspace at hroom
  unfold TaskView.set
  obtain rfl | rfl := hscope
  · rw [if_pos rfl] at hroom ⊢
    rw [get_task, setTaskScope_get hroom]
    rfl
  · have hne : scopeGlobal ≠ scopeTask := by decide
    rw [if_neg hne] at hroom ⊢
    rw [if_pos rfl, get_global_eq_some_iff]
    refine ⟨?_, hroom⟩
    show (globalSet s.global key text).list[key]? = some text
    rw [globalSet_list, Function.update_self]

end Store

/-! ## Keys and texts -/

section Text

variable {N : Numbers Double} {ws : WsLib} {s : TaskView} {type : EngineType} {key : List UInt8}
  {scope : CString}

theorem ofBytes_eq_nil_iff {l : List UInt8} (h : l ≠ []) :
    (CString.ofBytes l).bytes = [] ↔ l.head? = some 0 := by
  obtain ⟨c, l, rfl⟩ := List.exists_cons_of_ne_nil h
  show (c :: l).takeWhile (· != 0) = [] ↔ _
  rw [List.takeWhile_cons, List.head?_cons, Option.some.injEq]
  by_cases hc : c = 0
  · simp [hc]
  · simp [hc]

theorem takeWhile_eq_self_iff {l : List UInt8} : l.takeWhile (· != 0) = l ↔ 0 ∉ l := by
  rw [List.takeWhile_eq_self_iff]
  constructor
  · intro h hmem
    exact absurd (h 0 hmem) (by decide)
  · intro h c hc
    simpa using ne_of_mem_of_not_mem hc h

theorem setValue_of_ne_nil {v : Value Double} (hnil : v ≠ .nil) :
    setValue N ws s type key scope v = (serializeIn N type v).bind fun text =>
      (keyText type key).map fun key =>
        if key.bytes = [] then s else (s.set ws key (.ofBytes text) scope).2 := by
  cases v with
  | nil => exact absurd rfl hnil
  | _ =>
    unfold setValue
    cases serializeIn N type _ <;> cases keyText type key <;> rfl

theorem getValue_of_get {k svalue : CString} (hkey : keyText type key = some k)
    (hk : k.bytes ≠ []) (hget : s.get ws k scope = some svalue) :
    getValue N ws s type key scope = unserializeIn N type svalue.bytes := by
  unfold getValue
  simp only [hkey, hk, if_false, hget]

theorem getValue_of_empty {k : CString} (hkey : keyText type key = some k) (hk : k.bytes = []) :
    getValue N ws s type key scope = some .nil := by
  unfold getValue
  simp only [hkey, hk, if_true]

/-- What is left of a round trip, with the store out of the way: the text is cut at a NUL between
the two conversions. -/
theorem roundTrips_iff (hkey : key ≠ []) (hscope : scope = scopeTask ∨ scope = scopeGlobal)
    {v : Value Double} (hnil : v ≠ .nil)
    (hroom : ∀ text, serializeIn N type v = some text →
      EnoughWorkspace ws s scope (.ofBytes key) (.ofBytes text)) :
    RoundTrips N ws s type key scope v ↔ KeyKept type key ∧ ∃ text,
      serializeIn N type v = some text ∧
        unserializeIn N type (text.takeWhile (· != 0)) = some v := by
  unfold RoundTrips KeyKept
  rw [setValue_of_ne_nil hnil]
  by_cases hsymbol : type = .javascript ∧ isSymbol key
  · have hnone : keyText type key = none := if_pos hsymbol
    constructor
    · rintro ⟨s', -, hget⟩
      unfold getValue at hget
      rw [hnone] at hget
      cases hget
    · rintro ⟨⟨-, hkept⟩, -⟩
      rw [hkept hsymbol.1] at hsymbol
      cases hsymbol.2
  · have hsome : keyText type key = some (.ofBytes key) := if_neg hsymbol
    have hkept : type = .javascript → isSymbol key = false := fun htype => by
      simpa [htype] using hsymbol
    by_cases hempty : (CString.ofBytes key).bytes = []
    · -- the set and the get do nothing
      have hhead := (ofBytes_eq_nil_iff hkey).mp hempty
      constructor
      · rintro ⟨s', -, hget⟩
        rw [getValue_of_empty hsome hempty] at hget
        exact absurd (Option.some.inj hget).symm hnil
      · rintro ⟨⟨hne, -⟩, -⟩
        exact absurd hhead hne
    · have hhead : key.head? ≠ some 0 := fun h => hempty ((ofBytes_eq_nil_iff hkey).mpr h)
      cases htext : serializeIn N type v with
      | none =>
        constructor
        · rintro ⟨s', hs', -⟩
          cases hs'
        · rintro ⟨-, text, htext', -⟩
          cases htext'
      | some text =>
        have hget := get_set hscope (hroom text htext)
        rw [hsome, Option.bind_some, Option.map_some, if_neg hempty]
        constructor
        · rintro ⟨s', hs', hvalue⟩
          obtain rfl := Option.some.inj hs'
          rw [getValue_of_get hsome hempty hget] at hvalue
          exact ⟨⟨hhead, hkept⟩, text, rfl, hvalue⟩
        · rintro ⟨-, text', htext', hvalue⟩
          obtain rfl := Option.some.inj htext'
          exact ⟨_, rfl, (getValue_of_get hsome hempty hget).trans hvalue⟩

end Text

/-! ## Strings -/

section Strings

variable {N : Numbers Double}

theorem luaString_survives_iff (s : List UInt8) :
    (∃ text, serializeIn N .lua (.string s) = some text ∧
      unserializeIn N .lua (text.takeWhile (· != 0)) = some (.string s)) ↔ StringKept .lua s := by
  have hcut : unserializeIn N .lua ((115 :: 58 :: s).takeWhile (· != 0)) =
      some (.string (s.takeWhile (· != 0))) := rfl
  unfold StringKept
  constructor
  · rintro ⟨text, htext, hvalue⟩
    cases htext
    rw [hcut] at hvalue
    refine ⟨takeWhile_eq_self_iff.mp ?_, fun h => by cases h⟩
    exact Value.string.inj (Option.some.inj hvalue)
  · rintro ⟨hzero, -⟩
    refine ⟨_, rfl, ?_⟩
    rw [hcut, takeWhile_eq_self_iff.mpr hzero]

/-- Two characters, and the continuation bytes that follow the second one. -/
theorem splitChars_two {a b : UInt8} (hb : isContinuation b = false) (l : List UInt8) :
    splitChars 2 (a :: b :: l) =
      (a :: b :: l.takeWhile isContinuation, l.dropWhile isContinuation) := by
  simp [splitChars, hb]

theorem charLength_two {a b : UInt8} (ha : isContinuation a = false)
    (hb : isContinuation b = false) (l : List UInt8) : 2 ≤ charLength (a :: b :: l) := by
  simp [charLength, ha, hb]

/-- After a tag, a continuation byte is taken for a part of it. -/
theorem jsUnserialize_continuation {a c : UInt8} {l : List UInt8} (ha : isContinuation a = false)
    (hc : isContinuation c = true) : jsUnserialize N (a :: 58 :: c :: l) = none := by
  unfold jsUnserialize
  rw [if_pos (charLength_two ha rfl _), splitChars_two rfl]
  simp [hc]

theorem jsUnserialize_tagged {a : UInt8} {l : List UInt8} (ha : isContinuation a = false)
    (hl : ∀ c ∈ l.head?, isContinuation c = false) :
    jsUnserialize N (a :: 58 :: l) =
      if a = 110 then ((numbers N .javascript).ofText l).map .number
      else if a = 115 then some (jsString l)
      else if a = 98 then some (.boolean (l = [49]))
      else none := by
  have hsplit : l.takeWhile isContinuation = [] ∧ l.dropWhile isContinuation = l := by
    cases l with
    | nil => exact ⟨rfl, rfl⟩
    | cons c l => simp [hl c rfl]
  unfold jsUnserialize
  rw [if_pos (charLength_two ha rfl _), splitChars_two rfl, hsplit.1, hsplit.2]
  simp

/-- A symbol starts with a continuation byte or with 0xff. -/
theorem isSymbol_eq_false {l : List UInt8}
    (h : ∀ c ∈ l.head?, isContinuation c = false ∧ c ≠ 0xff) : isSymbol l = false := by
  cases l with
  | nil => rfl
  | cons c l =>
    obtain ⟨hc, hff⟩ := h c rfl
    have hlow : ∀ d, isContinuation d = true → c ≠ d := by
      rintro d hd rfl
      rw [hd] at hc
      cases hc
    have h80 := hlow 0x80 rfl
    have h81 := hlow 0x81 rfl
    have h82 := hlow 0x82 rfl
    simp [isSymbol, h80, h81, h82, hff]

theorem jsString_survives_iff (s : List UInt8) :
    (∃ text, serializeIn N .javascript (.string s) = some text ∧
      unserializeIn N .javascript (text.takeWhile (· != 0)) = some (.string s)) ↔
      StringKept .javascript s := by
  unfold StringKept
  constructor
  · rintro ⟨text, htext, hvalue⟩
    have hsymbol : isSymbol s = false := by
      by_contra hsymbol
      have htrue : isSymbol s = true := by simpa using hsymbol
      simp [serializeIn, jsString, htrue, serialize] at htext
    have htext' : text = 115 :: 58 :: s := by
      simpa [serializeIn, jsString, hsymbol, serialize, eq_comm] using htext
    rw [htext'] at hvalue
    change jsUnserialize N (115 :: 58 :: s.takeWhile (· != 0)) = _ at hvalue
    cases hcut : s.takeWhile (· != 0) with
    | nil =>
      rw [hcut, jsUnserialize_tagged rfl (fun c hc => by cases hc)] at hvalue
      obtain rfl : [] = s := Value.string.inj (Option.some.inj hvalue)
      exact ⟨List.not_mem_nil, fun _ c hc => by cases hc⟩
    | cons c l =>
      have hc : isContinuation c = false := by
        by_contra hc
        rw [hcut, jsUnserialize_continuation rfl (by simpa using hc)] at hvalue
        cases hvalue
      rw [hcut, jsUnserialize_tagged rfl (fun d hd => by cases hd; exact hc)] at hvalue
      simp only [show (115 : UInt8) ≠ 110 by decide, if_true, if_false, Option.some.injEq] at hvalue
      unfold jsString at hvalue
      split at hvalue
      · cases hvalue
      · rename_i hnot
        have hself : c :: l = s := Value.string.inj hvalue
        refine ⟨takeWhile_eq_self_iff.mp (hcut.trans hself), fun _ d hd => ?_⟩
        rw [← hself] at hd
        cases hd
        refine ⟨hc, ?_⟩
        rintro rfl
        exact hnot rfl
  · rintro ⟨hzero, hhead⟩
    have hsymbol := isSymbol_eq_false (hhead rfl)
    have hstring : (jsString s : Value Double) = .string s := by simp [jsString, hsymbol]
    refine ⟨115 :: 58 :: s, ?_, ?_⟩
    · show serialize _ (jsString s) = _
      rw [hstring]
      rfl
    · show jsUnserialize N (115 :: 58 :: s.takeWhile (· != 0)) = _
      rw [takeWhile_eq_self_iff.mpr hzero,
        jsUnserialize_tagged rfl fun c hc => (hhead rfl c hc).1, hstring]
      rfl

theorem boolean_survives (type : EngineType) (b : Bool) :
    ∃ text, serializeIn N type (.boolean b) = some text ∧
      unserializeIn N type (text.takeWhile (· != 0)) = some (.boolean b) := by
  cases type with
  | lua => cases b <;> exact ⟨_, rfl, rfl⟩
  | javascript =>
    refine ⟨[98, 58, if b then 49 else 48], rfl, ?_⟩
    have hhead : ∀ c ∈ ([if b then 49 else 48] : List UInt8).head?, isContinuation c = false := by
      intro c hc
      cases hc
      cases b <;> rfl
    have hself : [98, 58, if b then 49 else 48].takeWhile (· != (0 : UInt8)) =
        98 :: 58 :: [if b then 49 else 48] := by cases b <;> rfl
    show jsUnserialize N _ = _
    rw [hself, jsUnserialize_tagged rfl hhead]
    cases b <;> rfl

end Strings

/-! ## Integers -/

section Integers

variable {N : Numbers Double}

theorem ofNumeral_text {x : Numeral} (h : x.WellFormed) (width : Nat) :
    ofNumeral (x.text width) = some (.ofRat x.value) := by
  rw [ofNumeral, Numeral.scan_text h]

theorem ofRat_eq_iff {q : ℚ} {n : ℤ} (h : |n| ≤ 2 ^ 53) :
    Double.ofRat q = .finite n (representable_intCast h) ↔ nearest q = n := by
  unfold Double.ofRat
  constructor
  · intro heq
    split at heq
    · exact Double.finite.inj heq
    · cases heq
  · intro hnearest
    have hlt : |nearest q| < 2 ^ 1024 := by
      rw [hnearest]
      exact (representable_intCast h).1
    rw [dif_pos hlt]
    simp only [hnearest]

def numeralIn (type : EngineType) (q : ℚ) : List UInt8 :=
  match type with
  | .lua => (Numeral.general 14 q).text 2
  | .javascript => (Numeral.ecma q).text 1

theorem integer_text (type : EngineType) {n : ℤ} (h : |n| ≤ 2 ^ 53) :
    serializeIn N type (Plain.integer n h).value = some (110 :: 58 :: numeralIn type n) := by
  cases type <;> rfl

theorem numeralIn_range (type : EngineType) (q : ℚ) : ∀ c ∈ numeralIn type q, 43 ≤ c ∧ c ≤ 101 := by
  cases type with
  | lua => exact Numeral.text_range (Numeral.wellFormed_general 14 q) 2
  | javascript => exact Numeral.text_range (Numeral.wellFormed_ecma q) 1

/-- The tag and the numeral are not cut, and are taken apart as they were put together. -/
theorem unserializeIn_numeral (type : EngineType) (q : ℚ) :
    unserializeIn N type ((110 :: 58 :: numeralIn type q).takeWhile (· != 0)) =
      (ofNumeral (numeralIn type q)).map .number := by
  have hrange := numeralIn_range type q
  have hzero : (0 : UInt8) ∉ 110 :: 58 :: numeralIn type q := by
    simp only [List.mem_cons, not_or]
    refine ⟨by decide, by decide, fun hmem => ?_⟩
    exact absurd (hrange 0 hmem).1 (by decide)
  rw [takeWhile_eq_self_iff.mpr hzero]
  cases type with
  | lua => rfl
  | javascript =>
    have hhead : ∀ c ∈ (numeralIn .javascript q).head?, isContinuation c = false := by
      intro c hc
      have hle := (hrange c (List.mem_of_mem_head? hc)).2
      have hlt : ¬ (0x80 : UInt8) ≤ c := fun hge => absurd (UInt8.le_trans hge hle) (by decide)
      simp [isContinuation, hlt]
    show jsUnserialize N _ = _
    rw [jsUnserialize_tagged rfl hhead]
    rfl

/-- The numeral denotes the number, to 14 digits or to as many as it takes. -/
theorem ofNumeral_numeralIn {n : ℤ} (hn : n ≠ 0) :
    ofNumeral (numeralIn .lua n) = some (.ofRat (Numeral.rounded 14 n)) ∧
      ofNumeral (numeralIn .javascript n) =
        some (.ofRat (Numeral.rounded (Numeral.shortest n) n)) := by
  have hq : (n : ℚ) ≠ 0 := Int.cast_ne_zero.mpr hn
  constructor
  · rw [← Numeral.value_general (by decide) hq]
    exact ofNumeral_text (Numeral.wellFormed_general 14 _) 2
  · rw [← Numeral.value_ecma hq]
    exact ofNumeral_text (Numeral.wellFormed_ecma _) 1

theorem ofNumeral_zero (type : EngineType) : ofNumeral (numeralIn type 0) = some (.ofRat 0) := by
  cases type with
  | lua =>
    have hzero : (Numeral.general 14 0).value = 0 := Numeral.value_zero
    rw [numeralIn, ofNumeral_text (Numeral.wellFormed_general 14 0), hzero]
  | javascript =>
    have hzero : (Numeral.ecma 0).value = 0 := Numeral.value_zero
    rw [numeralIn, ofNumeral_text (Numeral.wellFormed_ecma 0), hzero]

theorem natAbs_lt_of_le {n : ℤ} (h : |n| ≤ 2 ^ 53) : n.natAbs < 10 ^ 16 := by
  have hcast : (n.natAbs : ℤ) = |n| := Int.natCast_natAbs n
  have hpow : (2 : ℤ) ^ 53 < ((10 ^ 16 : Nat) : ℤ) := by norm_num
  omega

/-- The one multiple of 100 that an integer of 53 bits can be rounded to beyond 53 bits. -/
theorem nearest_beyond {r : ℤ} (h : |r| = 9007199254741000) : nearest (r : ℚ) = r := by
  have habs : |(r : ℚ)| = ((9007199254741000 : Nat) : ℚ) := by
    rw [← Int.cast_abs, h]
    norm_num
  have hlog : Nat.log 2 9007199254741000 = 53 :=
    Nat.log_eq_of_pow_le_of_lt_pow (by norm_num) (by norm_num)
  have hexp : exponent (r : ℚ) = 1 := by
    rw [exponent, habs, Int.log_natCast, hlog]
    decide
  refine @nearest_of_mul r (r / 2) ?_
  have heven : r = r / 2 * 2 := by
    rw [Int.abs_eq_natAbs] at h
    omega
  rw [hexp, zpow_one]
  exact_mod_cast heven

/-- Rounding to 14 digits loses an integer exactly if it loses a digit. -/
theorem nearest_rounded_iff {n : ℤ} (hn : n ≠ 0) (h : |n| ≤ 2 ^ 53) :
    nearest (Numeral.rounded 14 n) = n ↔ FourteenDigits n := by
  have hcast : (n.natAbs : ℤ) = |n| := Int.natCast_natAbs n
  have hlt := natAbs_lt_of_le h
  unfold FourteenDigits
  by_cases hsmall : n.natAbs < 10 ^ 14
  · rw [Numeral.rounded_intCast_of_lt (by decide) hn hsmall]
    refine iff_of_true (nearest_intCast h) (.inl ?_)
    omega
  · -- one or two digits too many
    obtain ⟨u, hu, hlo, hhi⟩ : ∃ u, (u = 1 ∨ u = 2) ∧ 10 ^ (13 + u) ≤ n.natAbs ∧
        n.natAbs < 10 ^ (14 + u) := by
      by_cases hmiddle : n.natAbs < 10 ^ 15
      · exact ⟨1, .inl rfl, not_lt.mp hsmall, hmiddle⟩
      · exact ⟨2, .inr rfl, not_lt.mp hmiddle, hlt⟩
    obtain ⟨hplace, hself⟩ := @Numeral.rounded_intCast_iff 14 u (by decide) n hlo hhi
    have hdigits : (10 : ℤ) ^ u ∣ n ↔ |n| < 10 ^ 14 ∨ |n| < 10 ^ 15 ∧ 10 ∣ n ∨ 100 ∣ n := by
      rcases hu with rfl | rfl
      · omega
      · omega
    rw [← hdigits, ← hself]
    constructor
    · intro hnearest
      obtain ⟨k, hk, hnear⟩ := Numeral.rounded_intCast_near (by decide) hn hplace
      rw [hk] at hnearest ⊢
      by_cases hfits : |k * 10 ^ u| ≤ 2 ^ 53
      · rw [nearest_intCast hfits] at hnearest
        exact hnearest
      · have hbeyond : |k * 10 ^ u| = 9007199254741000 := by
          rw [Int.abs_eq_natAbs] at h hnear hfits ⊢
          rcases hu with rfl | rfl
          · omega
          · omega
        rw [nearest_beyond hbeyond] at hnearest
        exact hnearest
    · intro heq
      rw [heq]
      exact nearest_intCast h

theorem integer_survives_iff (type : EngineType) {n : ℤ} (h : |n| ≤ 2 ^ 53) :
    (∃ text, serializeIn N type (Plain.integer n h).value = some text ∧
      unserializeIn N type (text.takeWhile (· != 0)) = some (Plain.integer n h).value) ↔
      type = .javascript ∨ FourteenDigits n := by
  have hread : (∃ text, serializeIn N type (Plain.integer n h).value = some text ∧
      unserializeIn N type (text.takeWhile (· != 0)) = some (Plain.integer n h).value) ↔
      ofNumeral (numeralIn type n) = some (.finite n (representable_intCast h)) := by
    constructor
    · rintro ⟨text, htext, hvalue⟩
      rw [integer_text] at htext
      obtain rfl := Option.some.inj htext
      rw [unserializeIn_numeral] at hvalue
      obtain ⟨x, hx, hnumber⟩ := Option.map_eq_some_iff.mp hvalue
      rw [hx]
      exact congrArg some (Value.number.inj hnumber)
    · intro hx
      refine ⟨_, integer_text type h, ?_⟩
      rw [unserializeIn_numeral, hx]
      rfl
  rw [hread]
  by_cases hn : n = 0
  · subst hn
    refine iff_of_true ?_ (.inr (.inl (by decide)))
    rw [← ofRat_intCast h, Int.cast_zero]
    exact ofNumeral_zero type
  · obtain ⟨hlua, hjs⟩ := ofNumeral_numeralIn hn
    cases type with
    | lua =>
      rw [hlua, Option.some.injEq, ofRat_eq_iff h, nearest_rounded_iff hn h]
      simp
    | javascript =>
      rw [hjs, Option.some.injEq, ofRat_eq_iff h]
      refine iff_of_true ?_ (.inl rfl)
      have hkept := Numeral.rounded_intCast_of_lt (p := 16) (by decide) hn (natAbs_lt_of_le h)
      refine Numeral.nearest_rounded_shortest (p := 16) (by decide) (by decide) ?_
      rw [hkept]
      exact nearest_intCast h

end Integers

/-! ## Which values survive -/

/-- **Shared values survive the store** exactly under `Survives`, with a key that is kept. -/
theorem shared_value_survives_iff (N : Numbers Double) (ws : WsLib) (s : TaskView)
    (type : EngineType) {key : List UInt8} (hkey : key ≠ []) {scope : CString}
    (hscope : scope = scopeTask ∨ scope = scopeGlobal) (v : Plain)
    (hroom : ∀ text, serializeIn N type v.value = some text →
      EnoughWorkspace ws s scope (.ofBytes key) (.ofBytes text)) :
    RoundTrips N ws s type key scope v.value ↔ KeyKept type key ∧ Survives type v := by
  cases v with
  | boolean b =>
    rw [roundTrips_iff hkey hscope (by intro h; cases h) hroom]
    exact and_congr_right fun _ => iff_of_true (boolean_survives type b) trivial
  | integer n h =>
    rw [roundTrips_iff hkey hscope (by intro h; cases h) hroom]
    exact and_congr_right fun _ => integer_survives_iff type h
  | string l =>
    rw [roundTrips_iff hkey hscope (by intro h; cases h) hroom]
    cases type with
    | lua => exact and_congr_right fun _ => luaString_survives_iff l
    | javascript => exact and_congr_right fun _ => jsString_survives_iff l

section Example

/-- The conversions of Lua, with an addition that nothing here uses. -/
abbrev someNumbers : Numbers Double := ⟨luaText, ofNumeral, fun _ => none, .ofRat 0, fun x _ => x⟩

/-- Nothing is set, and 64 bytes of workspace are free. -/
abbrev emptyView : TaskView := ⟨∅, ⟨0, ∅⟩, 64⟩

theorem emptyView_room {type : EngineType} {v : Value Double} {text : List UInt8}
    (htext : serializeIn someNumbers type v = some text) (hlength : text.length ≤ 55) {t : List UInt8}
    (ht : serializeIn someNumbers type v = some t) :
    EnoughWorkspace ws64 emptyView scopeGlobal (.ofBytes [107]) (.ofBytes t) := by
  obtain rfl := Option.some.inj (htext.symm.trans ht)
  have hne : scopeGlobal ≠ scopeTask := by decide
  have hcut : (CString.ofBytes text).bytes.length ≤ text.length :=
    (List.takeWhile_prefix _).length_le
  have hfits : ws64.round ((CString.ofBytes text).bytes.length + 1) ≤ 64 := by
    show ((CString.ofBytes text).bytes.length + 1 + 7) / 8 * 8 ≤ 64
    omega
  unfold EnoughWorkspace
  rw [if_neg hne]
  unfold WsLib.Fits WsLib.copy WsLib.alloc
  rw [if_pos hfits]
  rfl

theorem shared_value_survives_iff_integer :
    RoundTrips someNumbers ws64 emptyView .lua [107] scopeGlobal (.number (.ofRat (42 : ℤ))) := by
  have hle : |(42 : ℤ)| ≤ 2 ^ 53 := by decide
  have htext := @integer_text someNumbers .lua 42 hle
  rw [ofRat_intCast hle]
  refine (shared_value_survives_iff someNumbers ws64 emptyView .lua (by decide) (.inr rfl)
    (.integer 42 hle) fun t ht => emptyView_room htext (by decide +kernel) ht).mpr ?_
  exact ⟨⟨by decide, fun h => by cases h⟩, .inr (.inl (by decide))⟩

/-- Of the string `a`, NUL, `b` both engines get back `a`; of 123456789012345 Lua gets back
123456789012340. -/
theorem shared_value_lost :
    ¬ RoundTrips someNumbers ws64 emptyView .lua [107] scopeGlobal (.string [97, 0, 98]) ∧
      ¬ RoundTrips someNumbers ws64 emptyView .javascript [107] scopeGlobal (.string [97, 0, 98]) ∧
      ¬ RoundTrips someNumbers ws64 emptyView .lua [107] scopeGlobal
        (Plain.integer 123456789012345 (by decide)).value := by
  have hnil : ∀ {v : Value Double}, v ≠ .nil → ∀ type : EngineType, ∀ text : List UInt8,
      serializeIn someNumbers type v = some text → text.length ≤ 55 →
      RoundTrips someNumbers ws64 emptyView type [107] scopeGlobal v →
      unserializeIn someNumbers type (text.takeWhile (· != 0)) = some v := by
    intro v hv type text htext hlength h
    obtain ⟨-, t, ht, hvalue⟩ := (roundTrips_iff (List.cons_ne_nil _ _) (.inr rfl) hv fun t ht =>
      emptyView_room htext hlength ht).mp h
    rwa [Option.some.inj (htext.symm.trans ht)]
  have hstring : ∀ type : EngineType, serializeIn someNumbers type (.string [97, 0, 98]) =
      some [115, 58, 97, 0, 98] := by
    intro type
    cases type <;> rfl
  refine ⟨fun h => ?_, fun h => ?_, fun h => ?_⟩
  · have hvalue := hnil (by intro h; cases h) .lua _ (hstring .lua) (by decide) h
    have hcut := Value.string.inj (Option.some.inj hvalue)
    exact absurd hcut (by decide)
  · have hkept := (jsString_survives_iff [97, 0, 98]).mp
      ⟨_, hstring .javascript, hnil (by intro h; cases h) .javascript _ (hstring .javascript)
        (by decide) h⟩
    exact absurd hkept.1 (by decide)
  · have htext := @integer_text someNumbers .lua 123456789012345 (by decide)
    have hvalue := hnil (by intro h; cases h) .lua _ htext (by decide +kernel) h
    rcases (integer_survives_iff .lua (by decide)).mp ⟨_, htext, hvalue⟩ with hjs | hdigits
    · cases hjs
    · exact absurd hdigits (by unfold FourteenDigits; decide)

end Example

end VmodCfg.Script
