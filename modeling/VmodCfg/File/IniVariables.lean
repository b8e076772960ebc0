import Mathlib.Data.List.Dedup
import Mathlib.Data.List.DropRight
import VmodCfg.File.IniSafety

/-!
# What the handler of the INI parser collects

A call of the handler contributes a value to a name. The variables are the names that were
contributed to, each with its values joined; names that come from different sections are kept apart
by a delimiter that no name contains.
-/

namespace VmodCfg.File

open CString

/-! ## Values -/

/-- The values without the leading empty ones, joined. -/
def joinValues (delimiter : CString) (values : List CString) : CString :=
  intercalate delimiter (values.dropWhile (· = .empty))

/-- What is contributed to a key. -/
def valuesAt {K : Type*} [DecidableEq K] (k : K) (l : List (K × CString)) : List CString :=
  (l.filter fun x => x.1 = k).map Prod.snd

theorem intercalate_ne_empty (delimiter : CString) {s : CString} {l : List CString}
    (h : s ≠ .empty) : intercalate delimiter (s :: l) ≠ .empty := by
  cases l with
  | nil => exact h
  | cons t l =>
    intro hempty
    have hbytes := congrArg CString.bytes hempty
    rw [intercalate_cons _ _ (List.cons_ne_nil _ _)] at hbytes
    simp only [bytes_append] at hbytes
    exact h (bytes_eq_nil.mp (List.append_eq_nil_iff.mp (List.append_eq_nil_iff.mp hbytes).1).1)

theorem joinValues_concat (delimiter : CString) (values : List CString) (value : CString) :
    joinValues delimiter (values ++ [value]) =
      (if (joinValues delimiter values).bytes ≠ [] then
        joinValues delimiter values ++ delimiter
      else joinValues delimiter values) ++ value := by
  unfold joinValues
  cases hdrop : values.dropWhile (· = .empty) with
  | nil =>
    have hall : (values ++ [value]).dropWhile (· = .empty) =
        [value].dropWhile (· = .empty) := by
      rw [List.dropWhile_append, hdrop]
      rfl
    rw [hall]
    by_cases hvalue : value = .empty
    · rw [List.dropWhile_cons_of_pos (by simpa using hvalue), hvalue]
      rfl
    · rw [List.dropWhile_cons_of_neg (by simpa using hvalue)]
      exact (empty_append value).symm
  | cons s l =>
    have hs : s ≠ .empty := by
      have hhead := List.head_dropWhile_not (fun v => decide (v = CString.empty))
        (show values.dropWhile _ ≠ [] by rw [hdrop]; exact List.cons_ne_nil _ _)
      simpa [hdrop] using hhead
    have hne : (intercalate delimiter (s :: l)).bytes ≠ [] := fun h =>
      intercalate_ne_empty delimiter hs (bytes_eq_nil.mp h)
    rw [if_pos hne, List.dropWhile_append, hdrop]
    exact intercalate_concat delimiter value (List.cons_ne_nil s l)

/-- The value of a variable, after one more call. -/
def accumulate (delimiter : CString) (old : Option CString) (value : CString) : CString :=
  old.elim value fun old => (if old.bytes ≠ [] then old ++ delimiter else old) ++ value

section ValuesAt

variable {K : Type*} [DecidableEq K] (k : K) (l : List (K × CString))

theorem valuesAt_concat (x : K × CString) :
    valuesAt k (l ++ [x]) = if x.1 = k then valuesAt k l ++ [x.2] else valuesAt k l := by
  unfold valuesAt
  rw [List.filter_append, List.map_append]
  split
  · rename_i h
    rw [List.filter_cons_of_pos (by simpa using h)]
    rfl
  · rename_i h
    rw [List.filter_cons_of_neg (by simpa using h), List.filter_nil, List.map_nil, List.append_nil]

theorem valuesAt_eq_nil_iff : valuesAt k l = [] ↔ k ∉ l.map Prod.fst := by
  unfold valuesAt
  rw [List.map_eq_nil_iff, List.filter_eq_nil_iff, List.mem_map]
  constructor
  · rintro h ⟨x, hx, hk⟩
    exact h x hx (by simpa using hk)
  · intro h x hx hk
    exact h ⟨x, hx, by simpa using hk⟩

theorem valuesAt_map {L : Type*} [DecidableEq L] {f : K → L}
    (hf : ∀ x ∈ l, f x.1 = f k → x.1 = k) :
    valuesAt (f k) (l.map fun x => (f x.1, x.2)) = valuesAt k l := by
  unfold valuesAt
  rw [List.filter_map, List.map_map]
  have hfilter : l.filter ((fun x => decide (x.1 = f k)) ∘ fun x => (f x.1, x.2)) =
      l.filter fun x => decide (x.1 = k) := by
    refine List.filter_congr fun x hx => ?_
    simp only [Function.comp_apply, decide_eq_decide]
    exact ⟨hf x hx, fun h => by rw [h]⟩
  rw [hfilter]
  rfl

theorem joined_map {L : Type*} [DecidableEq L] (delimiter : CString) {f : K → L}
    (hf : ∀ x ∈ l, ∀ y ∈ l, f x.1 = f y.1 → x.1 = y.1) :
    (((l.map fun x => (f x.1, x.2)).map Prod.fst).dedup.map fun name =>
      (name, joinValues delimiter (valuesAt name (l.map fun x => (f x.1, x.2))))).Perm
      ((l.map Prod.fst).dedup.map fun k => (f k, joinValues delimiter (valuesAt k l))) := by
  have hvalues : ∀ x ∈ l, valuesAt (f x.1) (l.map fun x => (f x.1, x.2)) = valuesAt x.1 l :=
    fun x hx => valuesAt_map x.1 l fun y hy h => hf y hy x hx h
  rw [List.perm_ext_iff_of_nodup]
  · intro ⟨name, value⟩
    simp only [List.mem_map, List.mem_dedup, List.map_map, Function.comp_apply]
    constructor
    · rintro ⟨_, ⟨x, hx, rfl⟩, heq⟩
      rw [hvalues x hx] at heq
      exact ⟨x.1, ⟨x, hx, rfl⟩, heq⟩
    · rintro ⟨_, ⟨x, hx, rfl⟩, heq⟩
      rw [← hvalues x hx] at heq
      exact ⟨f x.1, ⟨x, hx, rfl⟩, heq⟩
  · exact (List.nodup_dedup _).map fun a b hab => congrArg Prod.fst hab
  · refine (List.nodup_dedup _).map_on fun a ha b hb hab => ?_
    obtain ⟨x, hx, rfl⟩ := List.mem_map.mp (List.mem_dedup.mp ha)
    obtain ⟨y, hy, rfl⟩ := List.mem_map.mp (List.mem_dedup.mp hb)
    exact hf x hx y hy (congrArg Prod.fst hab)

end ValuesAt

/-! ## The handler -/

/-- The variables are what was contributed. -/
def Represents (delimiter : CString) (vars : Variables) (l : List (CString × CString)) : Prop :=
  ∀ name : CString, vars[name]? =
    if valuesAt name l = [] then none else some (joinValues delimiter (valuesAt name l))

structure IniCall where
  sect : CString
  name : CString
  value : CString
  deriving DecidableEq

namespace IniCall

def key (c : IniCall) : CString × CString := (c.sect, c.name)

def flat (cfg : FileCfg) (c : IniCall) : CString := flattenName cfg c.sect c.name

def contribution (cfg : FileCfg) (c : IniCall) : CString × CString := (c.flat cfg, c.value)

end IniCall

def handleAll (cfg : FileCfg) (vars : Variables) : List IniCall → Option Variables
  | [] => some vars
  | c :: calls =>
    (fileParseIniHandler cfg vars c.sect c.name c.value).bind fun x => handleAll cfg x.2 calls

section Handler

variable {cfg : FileCfg} {vars vars' : Variables}

theorem represents_empty (delimiter : CString) : Represents delimiter ∅ [] := by
  intro name
  simp [valuesAt]

theorem fileParseIniHandler_eq_some {c : IniCall} {ok : Bool}
    (h : fileParseIniHandler cfg vars c.sect c.name c.value = some (ok, vars')) :
    vars' = vars.insert (c.flat cfg) (accumulate cfg.valueDelimiter vars[c.flat cfg]? c.value) := by
  have hbuffer : (if c.sect.bytes ≠ [] then c.sect ++ cfg.nameDelimiter ++ c.name else c.name) =
      c.flat cfg := rfl
  unfold fileParseIniHandler at h
  simp only [hbuffer] at h
  split at h
  · cases hfind : vars.findVariable (c.flat cfg) with
    | none =>
      rw [hfind] at h
      obtain ⟨_, hinsert, heq⟩ := Option.map_eq_some_iff.mp h
      cases heq
      obtain ⟨-, rfl⟩ := Variables.insertNew_eq_some hinsert
      rw [show vars[c.flat cfg]? = none from hfind]
      rfl
    | some old =>
      rw [hfind] at h
      cases h
      rw [show vars[c.flat cfg]? = some old from hfind]
      rfl
  · cases h

/-- **A call contributes its value to its name.** -/
theorem represents_handler {l : List (CString × CString)}
    (hvars : Represents cfg.valueDelimiter vars l) {c : IniCall} {ok : Bool}
    (h : fileParseIniHandler cfg vars c.sect c.name c.value = some (ok, vars')) :
    Represents cfg.valueDelimiter vars' (l ++ [c.contribution cfg]) := by
  rw [fileParseIniHandler_eq_some h]
  intro name
  have hconcat : valuesAt name (l ++ [c.contribution cfg]) =
      if c.flat cfg = name then valuesAt name l ++ [c.value] else valuesAt name l :=
    valuesAt_concat ..
  rw [Std.ExtTreeMap.getElem?_insert, hconcat]
  by_cases hname : c.flat cfg = name
  · subst hname
    rw [if_pos (Std.LawfulEqCmp.compare_eq_iff_eq.mpr rfl), if_pos rfl, if_neg (by simp),
      joinValues_concat, hvars]
    split
    · rename_i hnil
      rw [hnil]
      exact congrArg some (empty_append _).symm
    · rfl
  · rw [if_neg (mt Std.LawfulEqCmp.compare_eq_iff_eq.mp hname), if_neg hname]
    exact hvars name

theorem represents_handleAll {l : List (CString × CString)} {calls : List IniCall}
    (hvars : Represents cfg.valueDelimiter vars l) (h : handleAll cfg vars calls = some vars') :
    Represents cfg.valueDelimiter vars' (l ++ calls.map (IniCall.contribution cfg)) := by
  induction calls generalizing vars l with
  | nil =>
    cases h
    simpa using hvars
  | cons c calls ih =>
    obtain ⟨⟨ok, vars''⟩, hc, hcalls⟩ := Option.bind_eq_some_iff.mp h
    have hstep := ih (represents_handler hvars hc) hcalls
    rwa [List.append_assoc] at hstep

theorem handleAll_isSome_iff (vars : Variables) (calls : List IniCall) :
    (handleAll cfg vars calls).isSome ↔ ∀ c ∈ calls, 0 < (c.flat cfg).asprintf := by
  induction calls generalizing vars with
  | nil => simp [handleAll]
  | cons c calls ih =>
    rw [List.forall_mem_cons]
    rcases fileParseIniHandler_spec cfg vars c.sect c.name c.value with ⟨hpos, vars', h⟩ | ⟨hpos, h⟩
    · rw [handleAll, h]
      exact (ih vars').trans (and_iff_right hpos).symm
    · rw [handleAll, h]
      exact iff_of_false (by simp) fun hall => hpos hall.1

/-- **The set of variables**: each name that was contributed to, with its values joined. -/
theorem toList_of_represents {delimiter : CString} {l : List (CString × CString)}
    (h : Represents delimiter vars l) :
    vars.toList.Perm
      ((l.map Prod.fst).dedup.map fun name => (name, joinValues delimiter (valuesAt name l))) := by
  have hnodup : ((l.map Prod.fst).dedup.map fun name =>
      (name, joinValues delimiter (valuesAt name l))).Nodup :=
    (List.nodup_dedup _).map fun a b hab => congrArg Prod.fst hab
  rw [List.perm_ext_iff_of_nodup (Variables.nodup_toList vars) hnodup]
  intro ⟨name, value⟩
  rw [Std.ExtTreeMap.mem_toList_iff_getElem?_eq_some, h, List.mem_map]
  have hmem := not_congr (valuesAt_eq_nil_iff name l)
  rw [not_not] at hmem
  constructor
  · intro hvalue
    split at hvalue
    · cases hvalue
    · rename_i hne
      cases hvalue
      exact ⟨name, List.mem_dedup.mpr (hmem.mp hne), rfl⟩
  · rintro ⟨name', hname, heq⟩
    cases heq
    rw [if_neg (hmem.mpr (List.mem_dedup.mp hname))]

end Handler

/-! ## Flattened names -/

/-- A character that ends a name. -/
def isDelimiter (c : UInt8) : Bool := c == 61 || c == 58

/-- The delimiter cannot be part of a name, so that the last one is where the name starts. -/
theorem append_delimiter_inj {a b d x y : List UInt8} (hd : ∃ c ∈ d, isDelimiter c = true)
    (hx : ∀ c ∈ x, isDelimiter c = false) (hy : ∀ c ∈ y, isDelimiter c = false)
    (h : a ++ d ++ x = b ++ d ++ y) : a = b ∧ x = y := by
  have hdrop : ∀ l z : List UInt8, (∀ c ∈ z, isDelimiter c = false) →
      (l ++ d ++ z).rdropWhile (fun c => !isDelimiter c) =
        l ++ d.rdropWhile fun c => !isDelimiter c := by
    intro l z hz
    obtain ⟨c, hc, hdelim⟩ := hd
    have hne : (d.reverse.dropWhile fun c => !isDelimiter c) ≠ [] := by
      intro hnil
      have hall := List.dropWhile_eq_nil_iff.mp hnil c (List.mem_reverse.mpr hc)
      rw [hdelim] at hall
      cases hall
    unfold List.rdropWhile
    rw [List.reverse_append, List.reverse_append,
      List.dropWhile_append_of_pos (fun c hc => by rw [hz c (List.mem_reverse.mp hc)]; rfl),
      List.dropWhile_append, if_neg (by simpa using hne), List.reverse_append, List.reverse_reverse]
  have hleft := congrArg (List.rdropWhile fun c => !isDelimiter c) h
  rw [hdrop a x hx, hdrop b y hy, List.append_left_inj] at hleft
  subst hleft
  exact ⟨rfl, List.append_cancel_left h⟩

/-- A name that the line parser hands over: it is split off at the first delimiter. -/
def PlainName (name : CString) : Prop := ∀ c ∈ name.bytes, isDelimiter c = false

/-- **Names of different sections are kept apart.** -/
theorem flattenName_inj {cfg : FileCfg}
    (hd : ∃ c ∈ cfg.nameDelimiter.bytes, isDelimiter c = true) {sect sect' name name' : CString}
    (hname : PlainName name) (hname' : PlainName name')
    (h : flattenName cfg sect name = flattenName cfg sect' name') :
    sect = sect' ∧ name = name' := by
  have hmixed : ∀ {s n n' : CString}, PlainName n' → s ++ cfg.nameDelimiter ++ n ≠ n' := by
    rintro s n n' hn' rfl
    obtain ⟨c, hc, hdelim⟩ := hd
    have hplain := hn' c (List.mem_append_left _ (List.mem_append_right _ hc))
    rw [hdelim] at hplain
    cases hplain
  unfold flattenName at h
  split at h
  · split at h
    · obtain ⟨hsect, hname⟩ := append_delimiter_inj hd hname hname' (congrArg CString.bytes h)
      exact ⟨CString.ext hsect, CString.ext hname⟩
    · exact absurd h (hmixed hname')
  · rename_i hs
    split at h
    · exact absurd h.symm (hmixed hname)
    · rename_i hs'
      rw [ne_eq, not_not, bytes_eq_nil] at hs hs'
      exact ⟨hs.trans hs'.symm, h⟩

/-- **What the handler collects**: one variable for each pair of a section and a name, with the
values of that pair, in order. -/
theorem handler_collects (cfg : FileCfg) {calls : List IniCall}
    (hnames : ∀ c ∈ calls, c.name ≠ .empty ∧ PlainName c.name)
    (hd : ∃ c ∈ cfg.nameDelimiter.bytes, isDelimiter c = true)
    (hlengths : ∀ c ∈ calls, (c.flat cfg).bytes.length < 2 ^ 31) :
    (∀ c ∈ calls, ∀ c' ∈ calls, c.flat cfg = c'.flat cfg → c.key = c'.key) ∧
    ∃ vars, handleAll cfg ∅ calls = some vars ∧
      vars.toList.Perm ((calls.map IniCall.key).dedup.map fun k =>
        (flattenName cfg k.1 k.2, joinValues cfg.valueDelimiter
          (valuesAt k (calls.map fun c => (c.key, c.value))))) := by
  have hinj : ∀ c ∈ calls, ∀ c' ∈ calls, c.flat cfg = c'.flat cfg → c.key = c'.key := by
    intro c hc c' hc' hflat
    obtain ⟨hsect, hname⟩ := flattenName_inj hd (hnames c hc).2 (hnames c' hc').2 hflat
    exact Prod.ext hsect hname
  refine ⟨hinj, ?_⟩
  have hsome : (handleAll cfg ∅ calls).isSome := by
    rw [handleAll_isSome_iff]
    intro c hc
    exact flattenName_asprintf.mpr ⟨.inr (hnames c hc).1, hlengths c hc⟩
  obtain ⟨vars, hvars⟩ := Option.isSome_iff_exists.mp hsome
  refine ⟨vars, hvars, ?_⟩
  have htoList := toList_of_represents
    (represents_handleAll (represents_empty cfg.valueDelimiter) hvars)
  have hcontributions : [] ++ calls.map (IniCall.contribution cfg) =
      (calls.map fun c => (c.key, c.value)).map fun x =>
        (flattenName cfg x.1.1 x.1.2, x.2) := by
    rw [List.nil_append, List.map_map]
    rfl
  have hkeys : (calls.map fun c => (c.key, c.value)).map Prod.fst = calls.map IniCall.key := by
    rw [List.map_map]
    rfl
  rw [hcontributions] at htoList
  rw [← hkeys]
  refine htoList.trans (joined_map (f := fun k : CString × CString => flattenName cfg k.1 k.2) _ _ ?_)
  intro x hx y hy h
  obtain ⟨c, hc, rfl⟩ := List.mem_map.mp hx
  obtain ⟨c', hc', rfl⟩ := List.mem_map.mp hy
  exact hinj c hc c' hc' h

/-- Three calls with the delimiters `:` and `,`: `a = ""` and `a = 1` in the section `s`, and
`a = 2` outside of sections. -/
theorem handler_collects_three :
    ∃ vars : Variables, handleAll ⟨.ofBytes [58], .ofBytes [44]⟩ ∅
        [⟨.ofBytes [115], .ofBytes [97], .empty⟩, ⟨.empty, .ofBytes [97], .ofBytes [50]⟩,
          ⟨.ofBytes [115], .ofBytes [97], .ofBytes [49]⟩] = some vars ∧
      vars.toList.Perm
        [(.ofBytes [97], .ofBytes [50]), (.ofBytes [115, 58, 97], .ofBytes [49])] :=
  (@handler_collects ⟨.ofBytes [58], .ofBytes [44]⟩
    [⟨.ofBytes [115], .ofBytes [97], .empty⟩, ⟨.empty, .ofBytes [97], .ofBytes [50]⟩,
      ⟨.ofBytes [115], .ofBytes [97], .ofBytes [49]⟩]
    (by unfold PlainName; decide +kernel) ⟨58, by decide, rfl⟩ (by decide +kernel)).2

/-- The call of a handler with a name that is too long: the assertion on `asprintf` fails. -/
theorem long_name_panics :
    letters (2 ^ 31) ≠ .empty ∧ PlainName (letters (2 ^ 31)) ∧
      handleAll ⟨.ofBytes [58], .ofBytes [44]⟩ ∅ [⟨.empty, letters (2 ^ 31), .empty⟩] = none := by
  have hlength := length_letters (2 ^ 31)
  refine ⟨fun hempty => ?_, fun c hc => ?_, ?_⟩
  · rw [hempty] at hlength
    cases hlength
  · rw [List.eq_of_mem_replicate hc]
    rfl
  · rw [← Option.not_isSome_iff_eq_none, handleAll_isSome_iff]
    intro hall
    have hpos := hall _ (List.mem_singleton_self _)
    have hlt := (asprintf_pos.mp hpos).2
    rw [show (IniCall.flat ⟨.ofBytes [58], .ofBytes [44]⟩
      ⟨.empty, letters (2 ^ 31), .empty⟩).bytes.length = 2 ^ 31 from hlength] at hlt
    exact Nat.lt_irrefl _ hlt

end VmodCfg.File
