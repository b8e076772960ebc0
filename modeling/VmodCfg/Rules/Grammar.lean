import Mathlib.Data.List.DropRight
import VmodCfg.Rules.Parse

/-!
# The grammar of rules

`rulesOf` says what a text of rules means: its lines that are not blank are cut
at their first arrow, and both sides are trimmed. The parser walks over one
buffer with pointers instead; a buffer is seen here as what stands before the
pointer, the bytes it points to, and the NUL behind them.
-/

namespace VmodCfg.Rules

open CString

section Defs

def trim (l : List UInt8) : List UInt8 := (l.dropWhile isspace).rdropWhile isspace

/-- The text before the first arrow, and the text behind it. -/
def cutArrow : List UInt8 → Option (List UInt8 × List UInt8)
  | [] => none
  | c :: cs =>
    if arrow <+: c :: cs then some ([], cs.drop 1)
    else (cutArrow cs).map fun x => (c :: x.1, x.2)

def blank (line : List UInt8) : Bool := line.all isspace

variable {V : Type*} (vreCompile : CString → Option V)

/-- The rule that a line stands for. -/
def lineRule (line : List UInt8) : Option (Rule V) :=
  match cutArrow line with
  | none => none
  | some (regexp, value) =>
    if trim regexp = [] then none
    else (vreCompile (.ofBytes (trim regexp))).map fun vre => ⟨vre, .ofBytes (trim value)⟩

/-- The rules of a text: one for each line that is not blank, in order, if all of these lines are
rules. -/
def rulesOf (text : List UInt8) : Option (List (Rule V)) :=
  ((text.splitOn 10).filter fun line => !blank line).mapM (lineRule vreCompile)

end Defs

/-! ## The lookup -/

section Get

variable {V Q : Type*} (reMatch : Q → V → Bool)

def getRule (value : Q) : List (Rule V) → Option CString → Option CString
  | [], result => result
  | r :: rules, result => if reMatch value r.vre then some r.value else getRule value rules result

/-- `vmod_rules_get` from the read lock on, with the list that it finds; `room` tells whether a string
fits the workspace. -/
def vmodRulesGetOn (room : CString → Bool) (rules : List (Rule V)) (value : Q)
    (fallback : Option CString) : Option CString :=
  match getRule reMatch value rules fallback with
  | none => none
  | some s => if room s then some s else none

variable {reMatch}

theorem getRule_eq (value : Q) (rules : List (Rule V)) (result : Option CString) :
    getRule reMatch value rules result = (firstMatch reMatch rules value).or result := by
  induction rules with
  | nil => rfl
  | cons r rules ih =>
    unfold getRule firstMatch
    rw [List.find?_cons]
    cases hm : reMatch value r.vre with
    | true => rfl
    | false => exact ih

theorem vmodRulesGetOn_eq (room : CString → Bool) (rules : List (Rule V)) (value : Q)
    (fallback : Option CString) :
    vmodRulesGetOn reMatch room rules value fallback =
      ((firstMatch reMatch rules value).or fallback).filter room := by
  unfold vmodRulesGetOn
  rw [getRule_eq]
  cases (firstMatch reMatch rules value).or fallback with
  | none => rfl
  | some s => rw [Option.filter_some]

end Get

/-! ## Cutting and trimming -/

theorem cutArrow_some {l regexp value : List UInt8} (h : cutArrow l = some (regexp, value)) :
    l = regexp ++ (arrow ++ value) ∧ Buffer.findSub arrow l = some regexp.length := by
  induction l generalizing regexp with
  | nil => cases h
  | cons c cs ih =>
    unfold cutArrow at h
    unfold Buffer.findSub
    split at h
    · rename_i hp
      cases h
      obtain ⟨rest, hrest⟩ := hp
      rw [if_pos ⟨rest, hrest⟩]
      cases hrest
      exact ⟨rfl, rfl⟩
    · rename_i hp
      obtain ⟨⟨r, v⟩, hcs, heq⟩ := Option.map_eq_some_iff.mp h
      cases heq
      obtain ⟨rfl, hfind⟩ := ih hcs
      rw [if_neg hp, hfind]
      exact ⟨rfl, rfl⟩

theorem cutArrow_none {l : List UInt8} (h : cutArrow l = none) : Buffer.findSub arrow l = none := by
  induction l with
  | nil => rfl
  | cons c cs ih =>
    unfold cutArrow at h
    unfold Buffer.findSub
    split at h
    · cases h
    · rename_i hp
      rw [if_neg hp, ih (Option.map_eq_none_iff.mp h)]
      rfl

theorem cutArrow_spaces {sp : List UInt8} (hsp : ∀ c ∈ sp, isspace c = true) (l : List UInt8) :
    cutArrow (sp ++ l) = (cutArrow l).map fun x => (sp ++ x.1, x.2) := by
  induction sp with
  | nil => simp
  | cons c sp ih =>
    have hp : ¬ arrow <+: c :: (sp ++ l) := by
      rintro ⟨rest, hrest⟩
      obtain rfl : 45 = c := (List.cons.inj hrest).1
      exact absurd (hsp 45 List.mem_cons_self) (by decide)
    rw [List.cons_append, cutArrow, if_neg hp, ih fun d hd => hsp d (List.mem_cons_of_mem c hd),
      Option.map_map]
    rfl

theorem takeWhile_append_stop {p : UInt8 → Bool} {c : UInt8} (hc : p c = false)
    (l q : List UInt8) : (l ++ c :: q).takeWhile p = l.takeWhile p := by
  induction l with
  | nil => simp [hc]
  | cons d l ih =>
    rw [List.cons_append, List.takeWhile_cons, List.takeWhile_cons, ih]

theorem dropWhile_head {l m : List UInt8} {c : UInt8} (h : l.dropWhile isspace = c :: m) :
    isspace c = false := by
  have hne : l.dropWhile isspace ≠ [] := by simp [h]
  have hhead := List.head_dropWhile_not isspace hne
  simpa [h] using hhead

theorem blank_iff (line : List UInt8) : blank line = true ↔ line.dropWhile isspace = [] := by
  rw [blank, List.all_eq_true, List.dropWhile_eq_nil_iff]

/-! ## Pointers into a buffer -/

section Pointers

variable (p l q : List UInt8)

theorem byte_append (c : UInt8) : Buffer.byte (p ++ c :: q) p.length = c := by
  simp [Buffer.byte, List.getD_eq_getElem?_getD]

theorem put_append (c d : UInt8) : Buffer.put (p ++ c :: q) p.length d = p ++ d :: q := by
  simp [Buffer.put]

theorem put_append_right (k : Nat) (d : UInt8) :
    Buffer.put (p ++ q) (p.length + k) d = p ++ Buffer.put q k d := by
  simp [Buffer.put, List.set_append_right]

theorem put_append_left {k : Nat} (hk : k < p.length) (d : UInt8) :
    Buffer.put (p ++ q) k d = Buffer.put p k d ++ q := List.set_append_left _ _ hk

theorem str_append (h : 0 ∉ l) : (Buffer.str (p ++ (l ++ 0 :: q)) p.length).bytes = l := by
  unfold Buffer.str CString.ofBytes
  rw [List.drop_left]
  simp only
  rw [takeWhile_append_stop (by decide)]
  exact CString.bytes_ofBytes h

theorem skipSpaces_append {c : UInt8} (hc : isspace c = false) :
    Buffer.skipSpaces (p ++ (l ++ c :: q)) p.length = p.length + (l.takeWhile isspace).length := by
  rw [Buffer.skipSpaces, List.drop_left, takeWhile_append_stop hc]

theorem trimEnd_append :
    Buffer.trimEnd (p ++ (l ++ q)) p.length (p.length + l.length) =
      p.length + (l.rdropWhile isspace).length := by
  induction l using List.reverseRecOn generalizing q with
  | nil =>
    simp only [List.length_nil, Nat.add_zero, List.rdropWhile_nil]
    cases p with
    | nil => rfl
    | cons c p =>
      rw [List.length_cons, Buffer.trimEnd, if_neg fun h => Nat.lt_irrefl _ h.1]
  | append_singleton l c ih =>
    have hbyte : Buffer.byte (p ++ (l ++ [c] ++ q)) (p.length + l.length) = c := by
      have h := byte_append (p ++ l) q c
      rw [List.length_append] at h
      simpa using h
    rw [List.length_append, List.length_singleton, ← Nat.add_assoc, Buffer.trimEnd, hbyte]
    cases hc : isspace c with
    | true =>
      rw [if_pos ⟨by omega, rfl⟩, List.rdropWhile_concat_pos _ _ _ hc]
      have h := ih (c :: q)
      simpa using h
    | false =>
      rw [if_neg fun h => Bool.false_ne_true h.2, List.rdropWhile_concat_neg _ _ _ (by simp [hc]),
        List.length_append, List.length_singleton]
      omega

end Pointers

/-! ## One line -/

section Line

variable {V : Type*} {vreCompile : CString → Option V}

/-- What a row adds to the rules, if it is no error. -/
def Row.rules : Row V → Option (List (Rule V))
  | .blank => some []
  | .error _ => none
  | .rule r => some [r]

def lineRules (vreCompile : CString → Option V) (line : List UInt8) : Option (List (Rule V)) :=
  if blank line then some [] else (lineRule vreCompile line).map fun r => [r]

/-- A NUL behind a string ends it, and one further on does not matter. -/
theorem str_put_put {pre l q : List UInt8} {e : Nat} (h : 0 ∉ l)
    (he : pre.length + l.length < e) (hq : q ≠ []) :
    (((Buffer.put (pre ++ (l ++ q)) (pre.length + l.length) 0).put e 0).str pre.length).bytes = l := by
  obtain ⟨c, q, rfl⟩ := List.exists_cons_of_ne_nil hq
  obtain ⟨k, rfl⟩ : ∃ k, e = (pre ++ l).length + (k + 1) := by
    refine ⟨e - (pre.length + l.length) - 1, ?_⟩
    rw [List.length_append]
    omega
  have hput := put_append (pre ++ l) q c 0
  rw [List.length_append, List.append_assoc] at hput
  rw [hput, put_append_right, List.append_assoc]
  exact str_append pre l _ h

/-- A NUL in front of a string does not matter, and one behind it ends it. -/
theorem str_put_behind {pre l q : List UInt8} {e : Nat} (h : 0 ∉ l) (he : e < pre.length)
    (hq : q ≠ []) :
    (((Buffer.put (pre ++ (l ++ q)) e 0).put (pre.length + l.length) 0).str pre.length).bytes = l := by
  obtain ⟨c, q, rfl⟩ := List.exists_cons_of_ne_nil hq
  rw [put_append_left _ _ he]
  have hlen : pre.length = (Buffer.put pre e 0).length := (Buffer.length_put ..).symm
  have hput := put_append (Buffer.put pre e 0 ++ l) q c 0
  rw [List.length_append, List.append_assoc, ← hlen] at hput
  rw [hput, List.append_assoc, hlen]
  exact str_append _ l q h

/-- The two strings that the parser isolates, with the arrow behind the regexp and the end of the
line behind the value: `pre` is what stands before the regexp. -/
theorem isolated_strings {pre regexp value q : List UInt8} (hre : 0 ∉ regexp) (hval : 0 ∉ value)
    {buf : Buffer} (hbuf : buf = pre ++ (regexp ++ (arrow ++ (value ++ 0 :: q))))
    {sep regexpEnd start valueEnd : Nat} (hsep : sep = pre.length + regexp.length)
    (hend : regexpEnd = buf.trimEnd pre.length sep) (hstart : start = buf.skipSpaces (sep + 2))
    (hvend : valueEnd = buf.trimEnd start (sep + 2 + value.length)) :
    (((buf.put regexpEnd 0).put valueEnd 0).str pre.length).bytes = regexp.rdropWhile isspace ∧
      (((buf.put regexpEnd 0).put valueEnd 0).str start).bytes = trim value := by
  obtain ⟨tl, htl⟩ := List.rdropWhile_prefix isspace regexp
  obtain ⟨vt, hvt⟩ := List.rdropWhile_prefix isspace (value.dropWhile isspace)
  have hsplit := List.takeWhile_append_dropWhile (p := isspace) (l := value)
  rw [hsep, hbuf, trimEnd_append] at hend
  -- the value starts behind the white space that follows the arrow
  have hbuf₁ : buf = (pre ++ regexp ++ arrow) ++ (value ++ 0 :: q) := by
    rw [hbuf]
    simp
  have hsep₁ : sep + 2 = (pre ++ regexp ++ arrow).length := by
    rw [hsep, List.length_append, List.length_append]
    rfl
  have hbuf₂ : buf = (pre ++ regexp ++ arrow ++ value.takeWhile isspace) ++
      (value.dropWhile isspace ++ 0 :: q) := by
    rw [hbuf₁, List.append_assoc (pre ++ regexp ++ arrow), ← List.append_assoc (value.takeWhile isspace),
      hsplit]
  have hstart₁ : start = (pre ++ regexp ++ arrow ++ value.takeWhile isspace).length := by
    rw [hstart, hsep₁, hbuf₁, skipSpaces_append _ _ _ (by decide), ← List.length_append]
  have hlineEnd : sep + 2 + value.length = start + (value.dropWhile isspace).length := by
    have hlen := congrArg List.length hsplit
    rw [List.length_append] at hlen
    have happend : (pre ++ regexp ++ arrow ++ value.takeWhile isspace).length =
        (pre ++ regexp ++ arrow).length + (value.takeWhile isspace).length := List.length_append
    rw [hstart₁, hsep₁, happend]
    omega
  rw [hlineEnd, hbuf₂, hstart₁, trimEnd_append, ← hstart₁] at hvend
  have hle : regexpEnd < start := by
    have hprefix := (List.rdropWhile_prefix isspace regexp).length_le
    have harrow : arrow.length = 2 := rfl
    rw [hend, hstart₁]
    simp only [List.length_append]
    omega
  constructor
  · -- the regexp: what is behind it starts with white space, or with the arrow
    have hbuf₃ : buf = pre ++ (regexp.rdropWhile isspace ++ (tl ++ (arrow ++ (value ++ 0 :: q)))) := by
      rw [hbuf, ← List.append_assoc (regexp.rdropWhile isspace), htl]
    rw [hend, hbuf₃]
    refine str_put_put (fun h => hre (htl ▸ List.mem_append_left tl h)) ?_ (by simp [arrow])
    omega
  · have hbuf₃ : buf = (pre ++ regexp ++ arrow ++ value.takeWhile isspace) ++
        (trim value ++ (vt ++ 0 :: q)) := by
      rw [hbuf₂, trim, ← List.append_assoc _ vt, hvt]
    rw [hvend, hstart₁, hbuf₃]
    rw [hstart₁] at hle
    refine str_put_behind (fun h => ?_) hle (by simp)
    have hdrop : 0 ∈ value.dropWhile isspace := by
      rw [← hvt]
      exact List.mem_append_left vt h
    rw [← hsplit] at hval
    exact hval (List.mem_append_right _ hdrop)

section Spaces

variable {sp body : List UInt8} (hsp : ∀ c ∈ sp, isspace c = true)
include hsp

theorem lineRule_none (hcut : cutArrow body = none) : lineRule vreCompile (sp ++ body) = none := by
  rw [lineRule, cutArrow_spaces hsp, hcut]
  rfl

/-- White space in front of a line changes nothing, and its regexp is empty only if the rest of the
line starts with the arrow. -/
theorem lineRule_some (hbody : ∀ c m, body = c :: m → isspace c = false)
    {regexp value : List UInt8} (hcut : cutArrow body = some (regexp, value)) :
    lineRule vreCompile (sp ++ body) =
      if regexp = [] then none
      else (vreCompile (.ofBytes (regexp.rdropWhile isspace))).map
        fun vre => ⟨vre, .ofBytes (trim value)⟩ := by
  have hdrop : (sp ++ regexp).dropWhile isspace = regexp := by
    rw [List.dropWhile_append_of_pos hsp]
    cases regexp with
    | nil => rfl
    | cons c m =>
      have hc := hbody c (m ++ (arrow ++ value)) (cutArrow_some hcut).1
      rw [List.dropWhile_cons, if_neg (by simp [hc])]
  have htrim : trim (sp ++ regexp) = regexp.rdropWhile isspace := by rw [trim, hdrop]
  have hempty : regexp.rdropWhile isspace = [] ↔ regexp = [] := by
    rw [List.rdropWhile_eq_nil_iff]
    constructor
    · intro hall
      cases regexp with
      | nil => rfl
      | cons c m =>
        have hc := hbody c (m ++ (arrow ++ value)) (cutArrow_some hcut).1
        rw [hall c List.mem_cons_self] at hc
        cases hc
    · rintro rfl c hc
      cases hc
  rw [lineRule, cutArrow_spaces hsp, hcut]
  simp only [Option.map_some, htrim, hempty]

end Spaces

theorem strstr_arrow (pre q : List UInt8) {body : List UInt8} (h0 : 0 ∉ body) :
    Buffer.strstr (pre ++ (body ++ 0 :: q)) pre.length arrow =
      (cutArrow body).map fun x => pre.length + x.1.length := by
  rw [Buffer.strstr, str_append pre body q h0]
  cases hcut : cutArrow body with
  | none =>
    rw [cutArrow_none hcut]
    rfl
  | some x =>
    rw [(cutArrow_some hcut).2]
    rfl

/-- **A row is what the line stands for**, wherever the line is in the buffer. -/
theorem parseRow_rules (vreCompile : CString → Option V) (pre : List UInt8) {line : List UInt8}
    (q : List UInt8) (h0 : 0 ∉ line) :
    (parseRow vreCompile (pre ++ (line ++ 0 :: q)) pre.length (pre.length + line.length)).1.rules =
      lineRules vreCompile line := by
  have hsplit := List.takeWhile_append_dropWhile (p := isspace) (l := line)
  have hskip : Buffer.skipSpaces (pre ++ (line ++ 0 :: q)) pre.length =
      (pre ++ line.takeWhile isspace).length := by
    rw [skipSpaces_append _ _ _ (by decide), ← List.length_append]
  have hsp : ∀ c ∈ line.takeWhile isspace, isspace c = true := fun c hc => List.mem_takeWhile_imp hc
  have hbuf : pre ++ (line ++ 0 :: q) =
      (pre ++ line.takeWhile isspace) ++ (line.dropWhile isspace ++ 0 :: q) := by
    rw [List.append_assoc, ← List.append_assoc (line.takeWhile isspace), hsplit]
  have hend : pre.length + line.length =
      (pre ++ line.takeWhile isspace).length + (line.dropWhile isspace).length := by
    have hlen := congrArg List.length hsplit
    rw [List.length_append] at hlen ⊢
    omega
  unfold parseRow lineRules
  have hline : lineRule vreCompile line =
      lineRule vreCompile (line.takeWhile isspace ++ line.dropWhile isspace) := by rw [hsplit]
  rw [hskip, hbuf, hend, hline]
  have hhead : ∀ c m, line.dropWhile isspace = c :: m → isspace c = false :=
    fun c m h => dropWhile_head h
  have hnul : 0 ∉ line.dropWhile isspace := by
    rw [← hsplit] at h0
    exact fun h => h0 (List.mem_append_right _ h)
  have hblank := blank_iff line
  generalize line.dropWhile isspace = body at hnul hblank hhead ⊢
  generalize pre ++ line.takeWhile isspace = pre₁
  simp only
  cases body with
  | nil =>
    rw [if_pos (by simpa using byte_append pre₁ q 0), if_pos (hblank.2 rfl)]
    rfl
  | cons c m =>
    have hc : c ≠ 0 := by
      rintro rfl
      exact hnul List.mem_cons_self
    have hbyte := byte_append pre₁ (m ++ 0 :: q) c
    rw [← List.cons_append] at hbyte
    rw [if_neg (by rwa [hbyte]), if_neg fun h => List.cons_ne_nil _ _ (hblank.1 h)]
    rw [strstr_arrow pre₁ q hnul]
    cases hcut : cutArrow (c :: m) with
    | none =>
      rw [lineRule_none hsp hcut]
      rfl
    | some x =>
      obtain ⟨regexp, value⟩ := x
      have hbody := (cutArrow_some hcut).1
      rw [lineRule_some hsp hhead hcut]
      simp only [Option.map_some]
      by_cases hnil : regexp = []
      · rw [if_pos (by simp [hnil]), if_pos hnil]
        rfl
      · have hne : pre₁.length + regexp.length ≠ pre₁.length := by
          have := List.length_pos_iff.mpr hnil
          omega
        have hlineEnd : pre₁.length + (c :: m).length =
            pre₁.length + regexp.length + 2 + value.length := by
          rw [hbody]
          simp only [List.length_append, arrow, List.length_cons, List.length_nil]
          omega
        rw [hbody] at hnul
        have hbuf₁ : pre₁ ++ (c :: m ++ 0 :: q) =
            pre₁ ++ (regexp ++ (arrow ++ (value ++ 0 :: q))) := by
          rw [hbody]
          simp only [List.append_assoc]
        obtain ⟨hre, hval⟩ := isolated_strings (fun h => hnul (List.mem_append_left _ h))
          (fun h => hnul (List.mem_append_right _ (List.mem_append_right _ h))) hbuf₁ rfl rfl rfl rfl
        rw [if_neg hne, if_neg hnil, hlineEnd]
        have hstr : ∀ {s : CString} {l : List UInt8}, s.bytes = l → s = .ofBytes l :=
          fun h => (h ▸ CString.ofBytes_bytes _).symm
        rw [hstr hre, hstr hval]
        cases vreCompile (.ofBytes (regexp.rdropWhile isspace)) <;> rfl

end Line

/-! ## All lines -/

section Lines

variable {V : Type*} {vreCompile : CString → Option V}

/-- The first line of a text: there is a line feed behind it, or it is all of the text. -/
theorem first_line (l : List UInt8) :
    (l.idxOf? 10 = none ∧ 10 ∉ l) ∨
      ∃ line rest, l = line ++ 10 :: rest ∧ 10 ∉ line ∧ l.idxOf? 10 = some line.length := by
  induction l with
  | nil => exact .inl ⟨rfl, List.not_mem_nil⟩
  | cons c l ih =>
    rw [List.idxOf?_cons]
    by_cases hc : c = 10
    · subst hc
      exact .inr ⟨[], l, rfl, List.not_mem_nil, rfl⟩
    · rw [if_neg (by simpa using hc)]
      obtain ⟨hnone, hmem⟩ | ⟨line, rest, rfl, hmem, hsome⟩ := ih
      · refine .inl ⟨by rw [hnone]; rfl, ?_⟩
        rw [List.mem_cons, not_or]
        exact ⟨fun h => hc h.symm, hmem⟩
      · refine .inr ⟨c :: line, rest, rfl, ?_, by rw [hsome]; rfl⟩
        rw [List.mem_cons, not_or]
        exact ⟨fun h => hc h.symm, hmem⟩

/-- The rules of a line come before those of the lines behind it. -/
theorem rulesOf_cons {line : List UInt8} (h : 10 ∉ line) (rest : List UInt8) :
    rulesOf vreCompile (line ++ 10 :: rest) =
      (lineRules vreCompile line).bind fun rs => (rulesOf vreCompile rest).map (rs ++ ·) := by
  have hsplit : (line ++ 10 :: rest).splitOn 10 = line :: rest.splitOn 10 := by
    refine List.splitOnP_append_cons_of_forall_mem (fun c hc => ?_) 10 rfl rest
    rw [beq_eq_false_iff_ne]
    rintro rfl
    exact h hc
  unfold rulesOf lineRules
  rw [hsplit, List.filter_cons]
  cases hb : blank line with
  | true => simp
  | false =>
    cases hr : lineRule vreCompile line with
    | none => simp [hr]
    | some r =>
      simp only [Bool.not_false, if_true, List.mapM_cons, hr]
      cases ((rest.splitOn 10).filter fun line => !blank line).mapM (lineRule vreCompile) <;> rfl

theorem rulesOf_last {line : List UInt8} (h : 10 ∉ line) :
    rulesOf vreCompile line = lineRules vreCompile line := by
  have hsplit : line.splitOn 10 = [line] := by
    refine List.splitOnP_eq_singleton fun c hc => ?_
    rw [beq_eq_false_iff_ne]
    rintro rfl
    exact h hc
  unfold rulesOf lineRules
  rw [hsplit, List.filter_cons]
  cases hb : blank line with
  | true => rfl
  | false => cases hr : lineRule vreCompile line <;> simp [hr]

theorem parseLines_step {fuel : Nat} {buf : Buffer} {line e : Nat} {ch : UInt8}
    (hline : buf.byte line ≠ 0) (hisolate : isolateLine buf line = (e, ch))
    {rs : Option (List (Rule V))}
    (hrow : (parseRow vreCompile (buf.put e 0) line e).1.rules = rs) (row : UInt32)
    (acc : List (Rule V)) :
    (parseLines vreCompile (fuel + 1) buf line row acc).1.toOption =
      rs.bind fun rs => (parseLines vreCompile fuel buf (if ch = 10 then e + 1 else e) (row + 1)
        (acc ++ rs)).1.toOption := by
  have hrestore : (parseRow vreCompile (buf.put (isolateLine buf line).1 0) line
      (isolateLine buf line).1).2.put (isolateLine buf line).1 (isolateLine buf line).2 = buf :=
    parseRow_restores buf line
  have hbyte := isolateLine_byte buf line
  rw [hisolate] at hrestore hbyte
  rw [parseLines, if_neg hline, hisolate]
  simp only [hrestore, hbyte]
  cases hr : (parseRow vreCompile (buf.put e 0) line e).1 with
  | blank =>
    rw [hr] at hrow
    cases hrow
    simp [Row.rules]
  | error code =>
    rw [hr] at hrow
    cases hrow
    simp [Row.rules, Except.toOption]
  | rule r =>
    rw [hr] at hrow
    cases hrow
    simp [Row.rules]

theorem parseLines_end {buf : Buffer} {line : Nat} (hline : buf.byte line = 0) (fuel : Nat)
    (row : UInt32) (acc : List (Rule V)) :
    (parseLines vreCompile fuel buf line row acc).1.toOption = some acc := by
  cases fuel with
  | zero => rfl
  | succ fuel =>
    rw [parseLines, if_pos hline]
    rfl

/-- The last line ends at the terminator, and the one byte that is overwritten is that. -/
theorem isolateLine_last (pre : List UInt8) {rest : List UInt8} (h0 : 0 ∉ rest)
    (hnone : rest.idxOf? 10 = none) :
    isolateLine (pre ++ (rest ++ [0])) pre.length = (pre.length + rest.length, 0) ∧
      Buffer.put (pre ++ (rest ++ [0])) (pre.length + rest.length) 0 = pre ++ (rest ++ [0]) ∧
      Buffer.byte (pre ++ (rest ++ [0])) (pre.length + rest.length) = 0 := by
  refine ⟨?_, ?_, ?_⟩
  · unfold isolateLine Buffer.strchr Buffer.strlen
    rw [str_append pre rest [] h0, hnone]
    rfl
  · have hput := put_append (pre ++ rest) [] 0 0
    rwa [List.length_append, List.append_assoc] at hput
  · have hbyte := byte_append (pre ++ rest) [] 0
    rwa [List.length_append, List.append_assoc] at hbyte

theorem isolateLine_line (pre : List UInt8) {line tail : List UInt8} (h0 : 0 ∉ line ++ 10 :: tail)
    (hsome : (line ++ 10 :: tail).idxOf? 10 = some line.length) :
    isolateLine (pre ++ (line ++ 10 :: tail ++ [0])) pre.length = (pre.length + line.length, 10) ∧
      Buffer.put (pre ++ (line ++ 10 :: tail ++ [0])) (pre.length + line.length) 0 =
        pre ++ (line ++ 0 :: (tail ++ [0])) := by
  constructor
  · unfold isolateLine Buffer.strchr
    rw [str_append pre (line ++ 10 :: tail) [] h0, hsome]
    rfl
  · have hput := put_append (pre ++ line) (tail ++ [0]) 10 0
    rw [List.length_append] at hput
    simpa using hput

theorem parseLines_rules (vreCompile : CString → Option V) (fuel : Nat) (pre rest : List UInt8)
    (row : UInt32) (acc : List (Rule V))
    (h0 : 0 ∉ rest) (hfuel : rest.length < fuel) :
    (parseLines vreCompile fuel (pre ++ (rest ++ [0])) pre.length row acc).1.toOption =
      (rulesOf vreCompile rest).map (acc ++ ·) := by
  induction fuel generalizing pre rest row acc with
  | zero => exact absurd hfuel (Nat.not_lt_zero _)
  | succ fuel ih =>
    cases hrest : rest with
    | nil =>
      have hbyte : Buffer.byte (pre ++ ([] ++ [0])) pre.length = 0 := byte_append pre [] 0
      have hnil : rulesOf vreCompile [] = some [] := rfl
      rw [parseLines_end hbyte, hnil, Option.map_some, List.append_nil]
    | cons c m =>
      rw [← hrest]
      have hc : c ≠ 0 := by
        rintro rfl
        exact h0 (hrest ▸ List.mem_cons_self)
      have hbyte : Buffer.byte (pre ++ (rest ++ [0])) pre.length ≠ 0 := by
        have := byte_append pre (m ++ [0]) c
        rw [hrest]
        rwa [List.cons_append, this]
      clear hrest
      obtain ⟨hnone, hmem⟩ | ⟨line, tail, rfl, hmem, hsome⟩ := first_line rest
      · obtain ⟨hisolate, hput, hlast⟩ := isolateLine_last pre h0 hnone
        have hrow := parseRow_rules vreCompile pre [] h0
        rw [← hput] at hrow
        rw [parseLines_step hbyte hisolate hrow, rulesOf_last hmem]
        simp only [if_neg (show (0 : UInt8) ≠ 10 by decide), parseLines_end hlast]
        exact (Option.map_eq_bind ..).symm
      · have hline0 : 0 ∉ line := fun h => h0 (List.mem_append_left _ h)
        have htail0 : 0 ∉ tail := fun h => h0 (List.mem_append_right _ (List.mem_cons_of_mem _ h))
        obtain ⟨hisolate, hput⟩ := isolateLine_line pre h0 hsome
        have hrow := parseRow_rules vreCompile pre (tail ++ [0]) hline0
        rw [← hput] at hrow
        have hbuf : pre ++ (line ++ 10 :: tail ++ [0]) = (pre ++ line ++ [10]) ++ (tail ++ [0]) := by
          simp
        have hnext : pre.length + line.length + 1 = (pre ++ line ++ [10]).length := by
          rw [List.length_append, List.length_append]
          rfl
        have hlen : tail.length < fuel := by
          rw [List.length_append, List.length_cons] at hfuel
          omega
        rw [parseLines_step hbyte hisolate hrow, rulesOf_cons hmem, if_pos rfl, hbuf, hnext,
          Option.map_bind]
        refine congrArg _ (funext fun rs => ?_)
        rw [ih _ tail _ _ htail0 hlen, Function.comp_apply, Option.map_map]
        refine congrArg (fun f => Option.map f _) (funext fun l => ?_)
        exact List.append_assoc ..

end Lines

/-- **`rules_parse` is its grammar**, for every contents, and `vmod_rules_get` gives the value of the
first rule that matches, or else the fallback, as far as the workspace has room for it. -/
theorem rulesParse_eq_grammar {V Q : Type*} (vreCompile : CString → Option V)
    (reMatch : Q → V → Bool) (contents : CString) :
    (rulesParse vreCompile (contents.bytes ++ [0])).1.toOption =
        rulesOf vreCompile contents.bytes ∧
      ∀ (rules : List (Rule V)) (value : Q) (fallback : Option CString) (room : CString → Bool),
        vmodRulesGetOn reMatch room rules value fallback =
          ((firstMatch reMatch rules value).or fallback).filter room := by
  refine ⟨?_, fun rules value fallback room => vmodRulesGetOn_eq room rules value fallback⟩
  have hstr := str_append [] contents.bytes [] contents.no_nul
  have hlen : Buffer.strlen (contents.bytes ++ [0]) 0 = contents.bytes.length :=
    congrArg List.length hstr
  have hrun := parseLines_rules vreCompile (contents.bytes.length + 1) []
    contents.bytes 1 [] contents.no_nul (Nat.lt_succ_self _)
  rw [rulesParse, hlen]
  refine hrun.trans ?_
  simp

/-- A line with two arrows, a blank line with a carriage return, and a rule with no value at the
end of a text that has no line feed there. -/
example : rulesOf some
    [32, 97, 45, 62, 98, 45, 62, 99, 13, 10, 13, 10, 100, 9, 45, 62] =
      some [⟨.ofBytes [97], .ofBytes [98, 45, 62, 99]⟩, ⟨.ofBytes [100], .empty⟩] := by
  decide

end VmodCfg.Rules
