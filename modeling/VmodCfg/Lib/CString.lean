import Mathlib.Algebra.GroupWithZero.Nat
import Mathlib.Data.List.GetD
import Mathlib.Data.List.TakeWhile

/-!
# C strings and character buffers

`CString` is what a `char *` without a length denotes: the bytes before the
first NUL. `Buffer` is the memory behind it. Positions in a buffer stand for
pointers; reading past the end gives NUL, so a buffer may be written with or
without its terminator.
-/

structure CString where
  bytes : List UInt8
  no_nul : 0 ∉ bytes
  deriving DecidableEq

namespace CString

theorem zero_not_mem_takeWhile (l : List UInt8) : 0 ∉ l.takeWhile (· != 0) := fun h => by
  simpa using List.mem_takeWhile_imp h

/-- The string that starts at the first of the bytes. -/
def ofBytes (l : List UInt8) : CString := ⟨l.takeWhile (· != 0), zero_not_mem_takeWhile l⟩

def ofString (s : String) : CString := ofBytes s.toUTF8.toList

def empty : CString := ⟨[], List.not_mem_nil⟩

theorem ext {s t : CString} (h : s.bytes = t.bytes) : s = t := by
  cases s
  cases t
  cases h
  rfl

def append (s t : CString) : CString :=
  ⟨s.bytes ++ t.bytes, fun h => (List.mem_append.mp h).elim s.no_nul t.no_nul⟩

instance : Append CString := ⟨append⟩

@[simp] theorem bytes_append (s t : CString) : (s ++ t).bytes = s.bytes ++ t.bytes := rfl

theorem append_assoc (s t r : CString) : s ++ t ++ r = s ++ (t ++ r) := ext (List.append_assoc ..)

theorem empty_append (s : CString) : empty ++ s = s := ext (List.nil_append _)

/-- The strings, with a delimiter between them. -/
def intercalate (delimiter : CString) : List CString → CString
  | [] => empty
  | [s] => s
  | s :: l => s ++ delimiter ++ intercalate delimiter l

theorem intercalate_cons (delimiter s : CString) {l : List CString} (h : l ≠ []) :
    intercalate delimiter (s :: l) = s ++ delimiter ++ intercalate delimiter l := by
  cases l with
  | nil => exact absurd rfl h
  | cons t l => rfl

theorem intercalate_concat (delimiter s : CString) {l : List CString} (h : l ≠ []) :
    intercalate delimiter (l ++ [s]) = intercalate delimiter l ++ delimiter ++ s := by
  induction l with
  | nil => exact absurd rfl h
  | cons t l ih =>
    cases l with
    | nil => rfl
    | cons r l =>
      rw [List.cons_append, intercalate_cons _ _ (by simp), ih (List.cons_ne_nil _ _),
        intercalate_cons _ _ (List.cons_ne_nil _ _)]
      simp only [append_assoc]

/-- `strcmp`: bytes compare as unsigned characters. -/
def strcmp (s t : CString) : Ordering := compare s.bytes t.bytes

instance : Std.TransCmp strcmp := inferInstanceAs (Std.TransCmp (compareOn CString.bytes))

instance : Std.LawfulEqCmp strcmp where
  eq_of_compare h := ext (Std.LawfulEqOrd.eq_of_compare h)

def strncmp (s t : CString) (n : Nat) : Ordering := compare (s.bytes.take n) (t.bytes.take n)

@[simp] theorem ofBytes_bytes (s : CString) : ofBytes s.bytes = s := by
  apply ext
  show s.bytes.takeWhile (· != 0) = s.bytes
  rw [List.takeWhile_eq_self_iff]
  intro c hc
  have hne : c ≠ 0 := by
    rintro rfl
    exact s.no_nul hc
  simpa using hne

theorem bytes_ofBytes {l : List UInt8} (h : 0 ∉ l) : (ofBytes l).bytes = l :=
  congrArg bytes (ofBytes_bytes ⟨l, h⟩)

/-- `k` in binary, the lowest digit first. -/
def binary (k : Nat) : CString :=
  .ofBytes ((List.range 64).map fun j => if k.testBit j then 49 else 48)

theorem binary_injective {k l : Nat} (hk : k < 2 ^ 64) (hl : l < 2 ^ 64)
    (h : binary k = binary l) : k = l := by
  have hbytes : ∀ m, (binary m).bytes =
      (List.range 64).map fun j => if m.testBit j then 49 else 48 := by
    intro m
    apply bytes_ofBytes
    intro hzero
    obtain ⟨j, -, hj⟩ := List.mem_map.mp hzero
    split at hj <;> cases hj
  have hmap := congrArg CString.bytes h
  rw [hbytes, hbytes, List.map_inj_left] at hmap
  apply Nat.eq_of_testBit_eq
  intro j
  rcases Nat.lt_or_ge j 64 with hj | hj
  · have hbit := hmap j (List.mem_range.mpr hj)
    cases hkj : k.testBit j <;> cases hlj : l.testBit j <;> simp_all
  · have hpow : 2 ^ 64 ≤ 2 ^ j := Nat.pow_le_pow_right (by decide) hj
    rw [Nat.testBit_lt_two_pow (by omega), Nat.testBit_lt_two_pow (by omega)]

/-- What `asprintf` returns for a text: its length, or -1 if that does not fit an `int`. -/
def asprintf (s : CString) : Int := if s.bytes.length < 2 ^ 31 then s.bytes.length else -1

theorem asprintf_nonneg {s : CString} : 0 ≤ s.asprintf ↔ s.bytes.length < 2 ^ 31 := by
  unfold asprintf
  split <;> omega

theorem asprintf_pos {s : CString} : 0 < s.asprintf ↔ s ≠ empty ∧ s.bytes.length < 2 ^ 31 := by
  have hne : s ≠ empty ↔ 0 < s.bytes.length :=
    ⟨fun h => List.length_pos_iff.mpr fun hnil => h (ext hnil), fun h he => by simp [he, empty] at h⟩
  rw [hne]
  unfold asprintf
  split <;> omega

/-- `n` times the letter a. -/
def letters (n : Nat) : CString where
  bytes := List.replicate n 97
  no_nul h := by
    have hzero := List.eq_of_mem_replicate h
    cases hzero

theorem length_letters (n : Nat) : (letters n).bytes.length = n := List.length_replicate

/-- `isspace` in the C locale. -/
def isspace (c : UInt8) : Bool := c == 32 || (9 ≤ c && c ≤ 13)

end CString

/-- The bytes behind a `char *`. -/
abbrev Buffer := List UInt8

namespace Buffer

open CString

variable (buf : Buffer)

def byte (i : Nat) : UInt8 := buf.getD i 0

def put (i : Nat) (c : UInt8) : Buffer := buf.set i c

/-- The string that starts at `buf + i`. -/
def str (i : Nat) : CString := ofBytes (buf.drop i)

def strlen (i : Nat) : Nat := (buf.str i).bytes.length

def strchr (i : Nat) (c : UInt8) : Option Nat := ((buf.str i).bytes.idxOf? c).map (i + ·)

/-- The index of the first occurrence of `pat`. -/
def findSub (pat : List UInt8) : List UInt8 → Option Nat
  | [] => if pat = [] then some 0 else none
  | c :: cs => if pat <+: c :: cs then some 0 else (findSub pat cs).map (· + 1)

def strstr (i : Nat) (pat : List UInt8) : Option Nat :=
  (findSub pat (buf.str i).bytes).map (i + ·)

/-- `for (; *p != '\0' && isspace(*p); p++);` -/
def skipSpaces (i : Nat) : Nat := i + ((buf.drop i).takeWhile isspace).length

/-- `for (; hi > lo && isspace(*(hi - 1)); hi--);` -/
def trimEnd (lo : Nat) : Nat → Nat
  | 0 => 0
  | hi + 1 => if lo < hi + 1 ∧ isspace (buf.byte hi) then trimEnd lo hi else hi + 1

/-! ## Writing and restoring a byte -/

@[simp] theorem length_put (i : Nat) (c : UInt8) : (buf.put i c).length = buf.length :=
  List.length_set

theorem byte_put_ne {i j : Nat} (h : i ≠ j) (c : UInt8) : (buf.put i c).byte j = buf.byte j := by
  simp [byte, put, List.getD_eq_getElem?_getD, List.getElem?_set_ne h]

theorem byte_put_zero (i : Nat) : (buf.put i 0).byte i = 0 := by
  simp only [byte, put, List.getD_eq_getElem?_getD, List.getElem?_set_self']
  cases buf[i]? <;> rfl

theorem put_put (i : Nat) (c d : UInt8) : (buf.put i c).put i d = buf.put i d :=
  List.set_set ..

theorem put_comm {i j : Nat} (h : i ≠ j) (c d : UInt8) :
    (buf.put i c).put j d = (buf.put j d).put i c :=
  List.set_comm _ _ h

theorem put_byte (i : Nat) : buf.put i (buf.byte i) = buf := by
  by_cases h : i < buf.length
  · rw [byte, put, List.getD_eq_getElem _ _ h]
    exact List.set_getElem_self h
  · exact List.set_eq_of_length_le (Nat.le_of_not_lt h)

theorem put_restore {i j : Nat} (h : i ≠ j) :
    (((buf.put i 0).put j 0).put i (buf.byte i)).put j ((buf.put i 0).byte j) = buf := by
  rw [byte_put_ne buf h, put_comm _ h, put_put, put_comm _ h.symm, put_put, put_comm _ h, put_byte,
    put_byte]

/-! ## What the string functions find -/

theorem byte_add_drop (i j : Nat) : buf.byte (i + j) = byte (buf.drop i) j := by
  simp [byte, List.getD_eq_getElem?_getD, List.getElem?_drop]

theorem byte_of_takeWhile {p : UInt8 → Bool} {j : Nat} (h : j < (buf.takeWhile p).length) :
    p (buf.byte j) = true := by
  have hj : buf[j]? = (buf.takeWhile p)[j]? :=
    ((List.prefix_iff_getElem?.mp (List.takeWhile_prefix p)) j h ▸ by simp [h])
  rw [byte, List.getD_eq_getElem?_getD, hj, List.getElem?_eq_getElem h, Option.getD_some]
  exact List.mem_takeWhile_imp (List.getElem_mem h)

theorem byte_takeWhile_length {p : UInt8 → Bool} (hp : p 0 = false) :
    p (buf.byte (buf.takeWhile p).length) = false := by
  induction buf with
  | nil => exact hp
  | cons c cs ih =>
    by_cases h : p c
    · rw [List.takeWhile_cons_of_pos h]
      exact ih
    · rw [List.takeWhile_cons_of_neg h]
      simpa [byte] using h

theorem byte_ne_zero {i j : Nat} (h : j < buf.strlen i) : buf.byte (i + j) ≠ 0 := by
  rw [byte_add_drop]
  simpa using byte_of_takeWhile (p := (· != 0)) _ h

theorem byte_strlen (i : Nat) : buf.byte (i + buf.strlen i) = 0 := by
  rw [byte_add_drop]
  have h := byte_takeWhile_length (p := (· != 0)) (buf.drop i) (by decide)
  rw [bne_eq_false_iff_eq] at h
  exact h

theorem str_bytes_getElem? {i j : Nat} (h : j < buf.strlen i) :
    (buf.str i).bytes[j]? = some (buf.byte (i + j)) := by
  have hl : j < ((buf.drop i).takeWhile (· != 0)).length := h
  have hj := (List.prefix_iff_getElem?.mp (List.takeWhile_prefix (p := (· != 0)) (l := buf.drop i))) j hl
  rw [byte_add_drop, byte, List.getD_eq_getElem?_getD, hj]
  exact List.getElem?_eq_getElem hl

theorem strchr_some {i e : Nat} {c : UInt8} (h : buf.strchr i c = some e) :
    i ≤ e ∧ e < i + buf.strlen i ∧ buf.byte e = c := by
  obtain ⟨j, hj, rfl⟩ := Option.map_eq_some_iff.mp h
  obtain ⟨hlt, hc, -⟩ := List.findIdx?_eq_some_iff_getElem.mp hj
  refine ⟨Nat.le_add_right .., Nat.add_lt_add_left hlt i, ?_⟩
  have hget := buf.str_bytes_getElem? hlt
  rw [List.getElem?_eq_getElem hlt, Option.some.injEq] at hget
  rw [← hget]
  simpa using hc

theorem findSub_some {pat l : List UInt8} {j : Nat} (h : findSub pat l = some j) :
    j + pat.length ≤ l.length := by
  induction l generalizing j with
  | nil =>
    simp only [findSub] at h
    split at h
    · rename_i hp
      cases h
      simp [hp]
    · cases h
  | cons c cs ih =>
    simp only [findSub] at h
    split at h
    · rename_i hp
      cases h
      simpa using hp.length_le
    · obtain ⟨k, hk, rfl⟩ := Option.map_eq_some_iff.mp h
      have := ih hk
      simp only [List.length_cons]
      omega

theorem strstr_some {i p : Nat} {pat : List UInt8} (h : buf.strstr i pat = some p) :
    i ≤ p ∧ p + pat.length ≤ i + buf.strlen i := by
  obtain ⟨j, hj, rfl⟩ := Option.map_eq_some_iff.mp h
  have : j + pat.length ≤ buf.strlen i := findSub_some hj
  omega

theorem le_skipSpaces (i : Nat) : i ≤ buf.skipSpaces i := Nat.le_add_right ..

/-- The spaces never run past a NUL. -/
theorem skipSpaces_le {i e : Nat} (hi : i ≤ e) (he : buf.byte e = 0) : buf.skipSpaces i ≤ e := by
  by_contra hlt
  have hj : e - i < ((buf.drop i).takeWhile isspace).length := by
    simp only [skipSpaces] at hlt
    omega
  have hsp := byte_of_takeWhile (buf.drop i) hj
  rw [← byte_add_drop, Nat.add_sub_cancel' hi, he] at hsp
  exact absurd hsp (by decide)

theorem add_strlen_le {i e : Nat} (hi : i ≤ e) (he : buf.byte e = 0) : i + buf.strlen i ≤ e := by
  by_contra hlt
  refine buf.byte_ne_zero (i := i) (j := e - i) (by omega) ?_
  rwa [Nat.add_sub_cancel' hi]

theorem trimEnd_le (lo hi : Nat) : buf.trimEnd lo hi ≤ hi := by
  induction hi with
  | zero => exact Nat.le_refl 0
  | succ hi ih =>
    simp only [trimEnd]
    split
    · omega
    · omega

theorem min_le_trimEnd (lo hi : Nat) : min lo hi ≤ buf.trimEnd lo hi := by
  induction hi with
  | zero => omega
  | succ hi ih =>
    simp only [trimEnd]
    split
    · omega
    · omega

end Buffer
