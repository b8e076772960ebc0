import Mathlib.Data.List.Basic

/-!
# JSON objects of strings, over bytes

The grammar of JSON texts without white space whose value is an object with strings as members, all
of them made of characters with a code below 256; each character denotes the byte of its code.
`decode` is the decoder of these texts: `decode_iff` says that it accepts exactly what the grammar
derives, with the members the grammar gives, so that a text has at most one meaning.
-/

namespace JsonText

theorem forall_byte {P : UInt8 → Prop} (h : ∀ n < 256, P (.ofNat n)) (c : UInt8) : P c := by
  have hc := h c.toNat c.toNat_lt
  rwa [UInt8.ofNat_toNat] at hc

/-- The character after a backslash, other than `u`. -/
def unescape (e : UInt8) : Option UInt8 :=
  if e = 34 ∨ e = 92 ∨ e = 47 then some e
  else if e = 98 then some 8
  else if e = 102 then some 12
  else if e = 110 then some 10
  else if e = 114 then some 13
  else if e = 116 then some 9
  else none

def hexDigit (d : UInt8) : Option UInt8 :=
  if 48 ≤ d ∧ d ≤ 57 then some (d - 48)
  else if 97 ≤ d ∧ d ≤ 102 then some (d - 87)
  else if 65 ≤ d ∧ d ≤ 70 then some (d - 55)
  else none

def Plain (c : UInt8) : Prop := 32 ≤ c ∧ c < 128 ∧ c ≠ 34 ∧ c ≠ 92

instance (c : UInt8) : Decidable (Plain c) := inferInstanceAs (Decidable (_ ∧ _ ∧ _ ∧ _))

/-! ## The grammar -/

/-- A character of a string, and its code. -/
inductive Char : List UInt8 → UInt8 → Prop
  | plain {c} (h : Plain c) : Char [c] c
  | escape {e c} (h : unescape e = some c) : Char [92, e] c
  | unicode {a b x y} (ha : hexDigit a = some x) (hb : hexDigit b = some y) :
    Char [92, 117, 48, 48, a, b] (x * 16 + y)

inductive Chars : List UInt8 → List UInt8 → Prop
  | nil : Chars [] []
  | cons {t c ts cs} (h : Char t c) (hs : Chars ts cs) : Chars (t ++ ts) (c :: cs)

inductive Str : List UInt8 → List UInt8 → Prop
  | mk {t s} (h : Chars t s) : Str (34 :: (t ++ [34])) s

inductive Members : List UInt8 → List (List UInt8 × List UInt8) → Prop
  | one {k v n m} (hk : Str k n) (hv : Str v m) : Members (k ++ 58 :: v) [(n, m)]
  | cons {k v n m t ps} (hk : Str k n) (hv : Str v m) (h : Members t ps) :
    Members (k ++ 58 :: (v ++ 44 :: t)) ((n, m) :: ps)

inductive Object : List UInt8 → List (List UInt8 × List UInt8) → Prop
  | empty : Object [123, 125] []
  | members {t ps} (h : Members t ps) : Object (123 :: (t ++ [125])) ps

theorem Chars.append {t u s r : List UInt8} (h : Chars t s) (h' : Chars u r) :
    Chars (t ++ u) (s ++ r) := by
  induction h with
  | nil => exact h'
  | cons hc hs ih =>
    rw [List.append_assoc]
    exact .cons hc ih

/-! ## The decoder -/

/-- After an opening quotation mark: the string, and what follows the closing one. -/
def decodeChars : List UInt8 → Option (List UInt8 × List UInt8)
  | [] => none
  | 92 :: 117 :: 48 :: 48 :: a :: b :: rest =>
    match hexDigit a, hexDigit b, decodeChars rest with
    | some x, some y, some (s, r) => some ((x * 16 + y) :: s, r)
    | _, _, _ => none
  | 92 :: e :: rest =>
    match unescape e, decodeChars rest with
    | some c, some (s, r) => some (c :: s, r)
    | _, _ => none
  | c :: rest =>
    if c = 34 then some ([], rest)
    else if Plain c then (decodeChars rest).map fun x => (c :: x.1, x.2)
    else none

def decodeStr : List UInt8 → Option (List UInt8 × List UInt8)
  | 34 :: rest => decodeChars rest
  | _ => none

/-- The members, at most `fuel` of them, and what follows. -/
def decodeMembers : Nat → List UInt8 → Option (List (List UInt8 × List UInt8) × List UInt8)
  | 0, _ => none
  | fuel + 1, text =>
    match decodeStr text with
    | some (n, 58 :: rest) =>
      match decodeStr rest with
      | some (m, 44 :: rest) => (decodeMembers fuel rest).map fun x => ((n, m) :: x.1, x.2)
      | some (m, rest) => some ([(n, m)], rest)
      | none => none
    | _ => none

def decode : List UInt8 → Option (List (List UInt8 × List UInt8))
  | [123, 125] => some []
  | 123 :: rest =>
    match decodeMembers rest.length rest with
    | some (ps, [125]) => some ps
    | _ => none
  | _ => none

/-! ## The decoder and the grammar -/

theorem decodeChars_complete {t s : List UInt8} (h : Chars t s) (r : List UInt8) :
    decodeChars (t ++ 34 :: r) = some (s, r) := by
  induction h with
  | nil => simp [decodeChars]
  | @cons t c ts cs hc hs ih =>
    cases hc with
    | plain hp =>
      obtain ⟨-, -, hq, hb⟩ := id hp
      simp only [List.cons_append, List.nil_append]
      rw [decodeChars]
      · simp [hq, hp, ih]
      · rintro a b rest rfl
        exact absurd rfl hb
      · rintro e rest rfl
        exact absurd rfl hb
    | @escape e c he =>
      have hu : e ≠ 117 := by
        rintro rfl
        have hnone : unescape 117 = none := by decide
        rw [hnone] at he
        cases he
      simp only [List.cons_append, List.nil_append]
      rw [decodeChars]
      · simp [he, ih]
      · rintro a b rest rfl
        exact absurd rfl hu
    | unicode ha hb =>
      simp only [List.cons_append, List.nil_append]
      rw [decodeChars]
      simp [ha, hb, ih]

theorem decodeChars_sound {l s r : List UInt8} (h : decodeChars l = some (s, r)) :
    ∃ t, Chars t s ∧ l = t ++ 34 :: r := by
  fun_induction decodeChars l generalizing s with
  | case1 => cases h
  | case2 a b rest x y s' r' hrest hb ha ih =>
    cases h
    obtain ⟨t, ht, rfl⟩ := ih hrest
    exact ⟨_, .cons (.unicode ha hb) ht, rfl⟩
  | case3 => cases h
  | case4 e rest _ c s' r' hrest he ih =>
    cases h
    obtain ⟨t, ht, rfl⟩ := ih hrest
    exact ⟨_, .cons (.escape he) ht, rfl⟩
  | case5 => cases h
  | case6 rest _ _ =>
    cases h
    exact ⟨[], .nil, rfl⟩
  | case7 c rest _ _ _ hp ih =>
    obtain ⟨⟨s', r'⟩, hrest, hs⟩ := Option.map_eq_some_iff.mp h
    cases hs
    obtain ⟨t, ht, rfl⟩ := ih hrest
    exact ⟨_, .cons (.plain hp) ht, rfl⟩
  | case8 => cases h

theorem decodeStr_complete {t s : List UInt8} (h : Str t s) (r : List UInt8) :
    decodeStr (t ++ r) = some (s, r) := by
  obtain ⟨ht⟩ := h
  have hd := decodeChars_complete ht r
  simpa [decodeStr] using hd

theorem decodeStr_sound {l s r : List UInt8} (h : decodeStr l = some (s, r)) :
    ∃ t, Str t s ∧ l = t ++ r := by
  unfold decodeStr at h
  split at h
  · obtain ⟨t, ht, rfl⟩ := decodeChars_sound h
    exact ⟨_, .mk ht, by simp⟩
  · cases h

theorem decodeMembers_complete {t : List UInt8} {ps : List (List UInt8 × List UInt8)}
    (h : Members t ps) {r : List UInt8} (hr : ∀ r', r ≠ 44 :: r') {fuel : Nat}
    (hfuel : ps.length ≤ fuel) : decodeMembers fuel (t ++ r) = some (ps, r) := by
  induction h generalizing fuel with
  | @one k v n m hk hv =>
    cases fuel with
    | zero => simp at hfuel
    | succ fuel =>
      rw [List.append_assoc, List.cons_append]
      simp only [decodeMembers, decodeStr_complete hk, decodeStr_complete hv]
  | @cons k v n m t ps hk hv h ih =>
    cases fuel with
    | zero => simp at hfuel
    | succ fuel =>
      have hlen : ps.length ≤ fuel := by
        simp only [List.length_cons] at hfuel
        omega
      rw [List.append_assoc, List.cons_append, List.append_assoc, List.cons_append]
      simp only [decodeMembers, decodeStr_complete hk, decodeStr_complete hv, ih hlen,
        Option.map_some]

theorem decodeMembers_sound {fuel : Nat} {l r : List UInt8}
    {ps : List (List UInt8 × List UInt8)} (h : decodeMembers fuel l = some (ps, r)) :
    ∃ t, Members t ps ∧ l = t ++ r := by
  induction fuel generalizing l ps with
  | zero => cases h
  | succ fuel ih =>
    unfold decodeMembers at h
    split at h
    · rename_i n rest hkd
      obtain ⟨k, hk, rfl⟩ := decodeStr_sound hkd
      split at h
      · rename_i m rest' hvd
        obtain ⟨v, hv, rfl⟩ := decodeStr_sound hvd
        obtain ⟨⟨ps', r'⟩, hps, heq⟩ := Option.map_eq_some_iff.mp h
        cases heq
        obtain ⟨t, ht, rfl⟩ := ih hps
        exact ⟨_, .cons hk hv ht, by simp⟩
      · rename_i m _ hvd
        cases h
        obtain ⟨v, hv, rfl⟩ := decodeStr_sound hvd
        exact ⟨_, .one hk hv, by simp⟩
      · cases h
    · cases h

theorem Members.head {t : List UInt8} {ps : List (List UInt8 × List UInt8)} (h : Members t ps) :
    ∃ t', t = 34 :: t' ∧ ps.length ≤ t.length := by
  induction h with
  | one hk hv =>
    obtain ⟨ht⟩ := hk
    exact ⟨_, rfl, by simp⟩
  | cons hk hv h ih =>
    obtain ⟨ht⟩ := hk
    obtain ⟨t', -, hlen⟩ := ih
    refine ⟨_, rfl, ?_⟩
    simp only [List.length_append, List.length_cons]
    omega

/-- **The decoder decides the grammar.** -/
theorem decode_iff {text : List UInt8} {ps : List (List UInt8 × List UInt8)} :
    decode text = some ps ↔ Object text ps := by
  constructor
  · intro h
    unfold decode at h
    split at h
    · cases h
      exact .empty
    · split at h
      · rename_i hm
        cases h
        obtain ⟨t, ht, rfl⟩ := decodeMembers_sound hm
        exact .members ht
      · cases h
    · cases h
  · intro h
    cases h with
    | empty => rfl
    | @members t ps ht =>
      obtain ⟨t', rfl, hlen⟩ := ht.head
      have hfuel : ps.length ≤ (34 :: t' ++ [125]).length := by
        rw [List.length_append]
        omega
      have hd := decodeMembers_complete ht (r := [125]) (fun r' hr => by cases hr) hfuel
      change (match decodeMembers (34 :: t' ++ [125]).length (34 :: t' ++ [125]) with
        | some (ps, [125]) => some ps
        | _ => none) = some ps
      rw [hd]
      rfl

/-- A text has at most one meaning. -/
theorem Object.unique {text : List UInt8} {ps qs : List (List UInt8 × List UInt8)}
    (h : Object text ps) (h' : Object text qs) : ps = qs :=
  Option.some.inj ((decode_iff.2 h).symm.trans (decode_iff.2 h'))

theorem Members.length_pos {t : List UInt8} {ps : List (List UInt8 × List UInt8)}
    (h : Members t ps) : 0 < ps.length := by
  cases h <;> simp

theorem Members.not_object {t r : List UInt8} {c : UInt8} (hc : c ≠ 44)
    {ps qs : List (List UInt8 × List UInt8)} (h : Members t ps) :
    ¬ Object (123 :: (t ++ c :: r ++ [125])) qs := by
  intro hobj
  obtain ⟨t', rfl, hlen⟩ := h.head
  have hd := decode_iff.2 hobj
  have hfuel : ps.length ≤ (34 :: t' ++ c :: r ++ [125]).length := by
    simp only [List.length_append, List.length_cons] at hlen ⊢
    omega
  have hm := decodeMembers_complete h (r := c :: r ++ [125])
    (fun r' hr => hc (List.cons.inj hr).1) hfuel
  have hm' : decodeMembers (34 :: t' ++ c :: r ++ [125]).length (34 :: t' ++ c :: r ++ [125]) =
      some (ps, c :: r ++ [125]) := by
    rw [List.append_assoc] at hm ⊢
    exact hm
  change (match decodeMembers (34 :: t' ++ c :: r ++ [125]).length
      (34 :: t' ++ c :: r ++ [125]) with
    | some (ps, [125]) => some ps
    | _ => none) = some qs at hd
  rw [hm'] at hd
  cases r <;> simp at hd

end JsonText
