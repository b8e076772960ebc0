import VmodCfg.File.JsonSafety

/-!
# Flattening

An item of a document is where the names of the objects around it lead. `flattened` says which
variables a document stands for by these paths, with no prefix carried along, and with the text of
each kind of leaf; the walk gives exactly these, whatever the order of the members.
-/

namespace VmodCfg.File

universe u

open CString

/-! ## What a document stands for -/

section Texts

open Binary64

/-- An `int`, or the one next to it. -/
def CJson.saturated (n : ℤ) : ℤ := max (-2 ^ 31) (min n (2 ^ 31 - 1))

/-- The text of a number: the numeral of a whole one, brought into the range of `int`; any other
number with three decimals. -/
def numberText : Double → CString
  | .infinite negative =>
    .ofBytes (Decimal.text (if negative then -2 ^ 31 else 2 ^ 31 - 1))
  | .finite q hq =>
    .ofBytes (if q.den = 1 then Decimal.text (CJson.saturated q.num)
      else CJson.fixed3 (.finite q hq))

/-- The text of a leaf: booleans, numbers and strings have one. -/
def leafText : Json Double → Option CString
  | .false => some (.ofString "false")
  | .true => some (.ofString "true")
  | .number x => some (numberText x.valuedouble)
  | .string s => some s
  | .null | .array _ | .object _ | .raw _ => none

def IsNumber (x : JsonNumber Double) : Prop := x.valueint = CJson.valueint x.valuedouble

end Texts

section Paths

variable {D : Type u}

/-- The items that are no objects, by their paths. -/
def paths : JsonItems D → List (List CString × Json D)
  | .nil => []
  | .cons none _ next => paths next
  | .cons (some string) (.object items) next =>
    (paths items).map (fun x => (string :: x.1, x.2)) ++ paths next
  | .cons (some string) item next => ([string], item) :: paths next

/-- One variable for each leaf that has a text. -/
def flattened (cfg : FileCfg) (items : JsonItems Binary64.Double) : List (CString × CString) :=
  (paths items).filterMap fun x => (leafText x.2).map (intercalate cfg.nameDelimiter x.1, ·)

/-- The same members in another order, in any of the objects; what is in an array does not
matter. -/
inductive JsonItems.Reorders : JsonItems D → JsonItems D → Prop where
  | refl (items : JsonItems D) : Reorders items items
  | swap (string string' : Option CString) (item item' : Json D) (next : JsonItems D) :
      Reorders (.cons string item (.cons string' item' next))
        (.cons string' item' (.cons string item next))
  | cons (string : Option CString) (item : Json D) {next next' : JsonItems D} :
      Reorders next next' → Reorders (.cons string item next) (.cons string item next')
  | object (string : Option CString) {items items' : JsonItems D} (next : JsonItems D) :
      Reorders items items' →
        Reorders (.cons string (.object items) next) (.cons string (.object items') next)
  | array (string : Option CString) (items items' next : JsonItems D) :
      Reorders (.cons string (.array items) next) (.cons string (.array items') next)
  | trans {items items' items'' : JsonItems D} :
      Reorders items items' → Reorders items' items'' → Reorders items items''

/-! ## Paths and prefixes -/

theorem paths_ne_nil {items : JsonItems D} {x : List CString × Json D} (h : x ∈ paths items) :
    x.1 ≠ [] := by
  fun_induction paths items with
  | case1 => cases h
  | case2 item next ih => exact ih h
  | case3 string items next ihitems ih =>
    rcases List.mem_append.mp h with h | h
    · obtain ⟨y, -, rfl⟩ := List.mem_map.mp h
      exact List.cons_ne_nil _ _
    · exact ih h
  | case4 string item next hitem ih =>
    rcases List.mem_cons.mp h with rfl | h
    · exact List.cons_ne_nil _ _
    · exact ih h

/-- The prefix of the walk is the path so far. -/
theorem leaves_eq_paths (cfg : FileCfg) (path : CString) (items : JsonItems D) :
    leaves cfg path items =
      (paths items).map fun x => (path ++ intercalate cfg.nameDelimiter x.1, x.2) := by
  fun_induction leaves cfg path items with
  | case1 => rfl
  | case2 path item next ih => simpa only [paths] using ih
  | case3 path string items next ihitems ih =>
    rw [ihitems, ih, paths, List.map_append, List.map_map]
    congr 1
    apply List.map_congr_left
    intro x hx
    simp only [Function.comp_apply, intercalate_cons _ _ (paths_ne_nil hx), append_assoc]
  | case4 path string item next hitem ih =>
    rw [ih, paths, List.map_cons, intercalate]
    exact hitem

theorem plain_of_paths {P : JsonNumber D → Prop} {items : JsonItems D} (h : items.Plain P) :
    ∀ x ∈ paths items, x.2.Plain P := by
  fun_induction paths items with
  | case1 => exact List.forall_mem_nil _
  | case2 item next ih => exact ih ((JsonItems.plain_cons ..).mp h).2
  | case3 string items next ihitems ih =>
    have hplain := (JsonItems.plain_cons ..).mp h
    rw [List.forall_mem_append, List.forall_mem_map]
    exact ⟨ihitems hplain.1, ih hplain.2⟩
  | case4 string item next hitem ih =>
    have hplain := (JsonItems.plain_cons ..).mp h
    exact List.forall_mem_cons.mpr ⟨hplain.1, ih hplain.2⟩

/-! ## The texts -/

namespace CJson

open Binary64

theorem saturated_eq_iff (n : ℤ) : saturated n = n ↔ -2 ^ 31 ≤ n ∧ n < 2 ^ 31 := by
  unfold saturated
  omega

theorem toInt_valueint {q : ℚ} (hq : Representable q) (hwhole : q.den = 1) :
    (valueint (.finite q hq)).toInt = saturated q.num := by
  obtain ⟨n, rfl⟩ : ∃ n : ℤ, q = n := ⟨q.num, (Rat.den_eq_one_iff q).mp hwhole |>.symm⟩
  rw [valueint, truncate_intCast, Rat.num_intCast]
  have hmax : (2147483647 : ℚ) ≤ n ↔ 2147483647 ≤ n := by
    exact_mod_cast Iff.rfl
  have hmin : (n : ℚ) ≤ -2147483648 ↔ n ≤ -2147483648 := by
    exact_mod_cast Iff.rfl
  unfold saturated
  split
  · rename_i hle
    have := hmax.mp hle
    rw [show Int32.maxValue.toInt = 2147483647 from rfl]
    omega
  · rename_i hnle
    have := mt hmax.mpr hnle
    split
    · rename_i hge
      have := hmin.mp hge
      rw [show Int32.minValue.toInt = -2147483648 from rfl]
      omega
    · rename_i hnge
      have := mt hmin.mpr hnge
      rw [Int32.toInt_ofInt_of_le (by omega) (by omega)]
      omega

theorem isNumber_ofNumeral (x : Numeral) : IsNumber (ofNumeral x) := by
  simp only [IsNumber, ofNumeral]

theorem jsonText_number {x : JsonNumber Double} (hx : IsNumber x) :
    jsonText lib (.number x) = some (numberText x.valuedouble) := by
  obtain ⟨value, int⟩ := x
  obtain rfl : int = valueint value := hx
  cases value with
  | infinite negative => cases negative <;> rfl
  | finite q hq =>
    show some (if (q.den == 1) = true then decimal (valueint (.finite q hq))
      else .ofBytes (fixed3 (.finite q hq))) = _
    by_cases hwhole : q.den = 1
    · simp only [numberText, hwhole, beq_self_eq_true, if_true, decimal_eq, toInt_valueint hq hwhole]
    · simp only [numberText, hwhole, beq_iff_eq, if_false]

theorem jsonText_eq_leafText {item : Json Double} (h : item.Plain IsNumber) :
    jsonText lib item = leafText item := by
  cases item with
  | number x => exact jsonText_number h
  | raw s => cases h
  | false | true => exact congrArg some (by decide +kernel)
  | _ => rfl

end CJson

theorem entries_eq_flattened (cfg : FileCfg) {items : JsonItems Binary64.Double}
    (hplain : items.Plain IsNumber) :
    entries cfg CJson.lib .empty items = flattened cfg items := by
  unfold entries flattened
  rw [leaves_eq_paths, List.filterMap_map]
  refine List.filterMap_congr fun x hx => ?_
  simp only [Function.comp_apply, empty_append,
    CJson.jsonText_eq_leafText (plain_of_paths hplain x hx)]

/-! ## The order of the members -/

theorem entries_cons (lib : JsonLib D) (cfg : FileCfg) (path : CString) (string : Option CString)
    (item : Json D) (next : JsonItems D) :
    entries cfg lib path (.cons string item next) =
      entries cfg lib path (.cons string item .nil) ++ entries cfg lib path next := by
  unfold entries
  rw [← List.filterMap_append]
  congr 1
  cases string with
  | none => simp only [leaves, List.nil_append]
  | some string => cases item <;> simp [leaves]

theorem newPrefixes_cons (cfg : FileCfg) (path : CString) (string : Option CString)
    (item : Json D) (next : JsonItems D) :
    newPrefixes cfg path (.cons string item next) =
      newPrefixes cfg path (.cons string item .nil) ++ newPrefixes cfg path next := by
  cases string with
  | none => simp only [newPrefixes, List.nil_append]
  | some string => cases item <;> simp [newPrefixes]

/-- What is collected member by member is the same for every order of them. -/
theorem perm_of_reorders {A : Type*} {f : CString → JsonItems D → List A}
    (hcons : ∀ path string item next,
      f path (.cons string item next) = f path (.cons string item .nil) ++ f path next)
    (hobject : ∀ path string items items', (∀ path, (f path items).Perm (f path items')) →
      (f path (.cons string (.object items) .nil)).Perm (f path (.cons string (.object items') .nil)))
    (harray : ∀ path string items items',
      f path (.cons string (.array items) .nil) = f path (.cons string (.array items') .nil))
    {items items' : JsonItems D} (h : items.Reorders items') (path : CString) :
    (f path items).Perm (f path items') := by
  induction h generalizing path with
  | refl => exact .refl _
  | swap string string' item item' next =>
    rw [hcons path string, hcons path string' item' next,
      hcons path string' item' (.cons string item next), hcons path string item next,
      ← List.append_assoc, ← List.append_assoc]
    exact List.perm_append_comm.append_right _
  | @cons string item next next' _ ih =>
    rw [hcons path string item next, hcons path string item next']
    exact (ih path).append_left _
  | @object string items items' next _ ih =>
    rw [hcons path string (.object items) next, hcons path string (.object items') next]
    exact (hobject path string items items' ih).append_right _
  | array string items items' next =>
    rw [hcons path string (.array items) next, hcons path string (.array items') next,
      harray path string items items']
  | trans _ _ ih ih' => exact (ih path).trans (ih' path)

theorem entries_reorders (lib : JsonLib D) (cfg : FileCfg) {items items' : JsonItems D}
    (h : items.Reorders items') (path : CString) :
    (entries cfg lib path items).Perm (entries cfg lib path items') := by
  refine perm_of_reorders (entries_cons lib cfg) ?_ ?_ h path
  · intro path string items items' ih
    cases string with
    | none => exact .refl _
    | some string =>
      rw [entries_object, entries_object]
      exact (ih _).append_right _
  · intro path string items items'
    cases string <;> rfl

theorem newPrefixes_reorders (cfg : FileCfg) {items items' : JsonItems D}
    (h : items.Reorders items') (path : CString) :
    (newPrefixes cfg path items).Perm (newPrefixes cfg path items') := by
  refine perm_of_reorders (newPrefixes_cons cfg) ?_ ?_ h path
  · intro path string items items' ih
    cases string with
    | none => exact .refl _
    | some string =>
      simp only [newPrefixes]
      exact ((ih _).append_right _).cons _
  · intro path string items items'
    cases string <;> rfl

theorem named_reorders {items items' : JsonItems D} (h : items.Reorders items') :
    items.Named ↔ items'.Named := by
  induction h with
  | refl => exact .rfl
  | swap string string' item item' next =>
    cases string <;> cases string' <;> simp [JsonItems.Named, and_left_comm]
  | cons string item _ ih =>
    cases string with
    | none => exact .rfl
    | some string => simp only [JsonItems.named_cons, ih]
  | object string next _ ih =>
    cases string with
    | none => exact .rfl
    | some string => simp only [JsonItems.Named, ih]
  | array string items items' next => cases string <;> exact .rfl
  | trans _ _ ih ih' => exact ih.trans ih'

end Paths

/-! ## The walk -/

open Binary64

theorem toList_of_walk (cfg : FileCfg) {items : JsonItems Double} (hnamed : items.Named)
    {vars : Variables} (h : fileParseJsonWalk CJson.lib cfg .empty ∅ items = some vars) :
    vars.toList.Perm (entries cfg CJson.lib .empty items) := by
  exact Variables.toList_insertAll
    ((fileParseJsonWalk_eq_some cfg CJson.lib_prints _ _ _ hnamed).mp h).2

theorem walk_reorders (cfg : FileCfg) {items items' : JsonItems Double} (hnamed : items.Named)
    (h : items.Reorders items') {vars : Variables}
    (hwalk : fileParseJsonWalk CJson.lib cfg .empty ∅ items = some vars) :
    fileParseJsonWalk CJson.lib cfg .empty ∅ items' = some vars := by
  have hnamed' := (named_reorders h).mp hnamed
  have hentries := entries_reorders CJson.lib cfg h .empty
  have hflat : Flattens cfg CJson.lib items := by
    rw [← fileParseJsonWalk_isSome_iff cfg CJson.lib_prints hnamed, hwalk]
    rfl
  have hflat' : Flattens cfg CJson.lib items' := by
    refine ⟨fun x hx => hflat.names x (hentries.mem_iff.mpr hx),
      (hentries.map Prod.fst).nodup_iff.mp hflat.distinct, fun p hp => ?_⟩
    exact hflat.prefixes p ((newPrefixes_reorders cfg h .empty).mem_iff.mpr hp)
  obtain ⟨vars', hwalk'⟩ := Option.isSome_iff_exists.mp
    ((fileParseJsonWalk_isSome_iff cfg CJson.lib_prints hnamed').mpr hflat')
  have htoList := toList_of_walk cfg hnamed hwalk
  have htoList' := toList_of_walk cfg hnamed' hwalk'
  rw [hwalk', Std.ExtTreeMap.ext_toList (htoList'.trans (hentries.symm.trans htoList.symm))]

/-- Every object that cJSON builds is one that `flattening_exact` is about. -/
theorem built_of_parse {contents : CString} {items : JsonItems Double}
    (h : CJson.lib.parse contents = some (.object items)) : items.Named ∧ items.Plain IsNumber := by
  refine ⟨CJson.named_of_parseWithOpts CJson.ofNumeral h, ?_⟩
  refine JsonItems.Plain.imp ?_ (CJson.plain_of_parseWithOpts CJson.ofNumeral h)
  rintro _ ⟨numeral, rfl⟩
  exact CJson.isNumber_ofNumeral numeral

/-- **Flattening is exact**: a document whose names are good and different becomes one variable for
each leaf that has a text, whatever the order of the members. -/
theorem flattening_exact (cfg : FileCfg) {items : JsonItems Double} (hnamed : items.Named)
    (hplain : items.Plain IsNumber) (hnames : ∀ x ∈ flattened cfg items, x.1 ≠ .empty)
    (hdistinct : ((flattened cfg items).map Prod.fst).Nodup)
    (hlengths : ∀ x ∈ flattened cfg items, x.1.bytes.length < 2 ^ 31)
    (hprefixes : ∀ p ∈ newPrefixes cfg .empty items, p.bytes.length < 2 ^ 31) :
    ∃ vars, fileParseJsonWalk CJson.lib cfg .empty ∅ items = some vars ∧
      vars.toList.Perm (flattened cfg items) ∧
      ∀ items', items.Reorders items' →
        fileParseJsonWalk CJson.lib cfg .empty ∅ items' = some vars := by
  have hentries := entries_eq_flattened cfg hplain
  have hflat : Flattens cfg CJson.lib items := by
    refine ⟨?_, ?_, fun p hp => asprintf_nonneg.mpr (hprefixes p hp)⟩
    · rw [hentries]
      exact fun x hx => asprintf_pos.mpr ⟨hnames x hx, hlengths x hx⟩
    · rwa [hentries]
  obtain ⟨vars, hwalk⟩ := Option.isSome_iff_exists.mp
    ((fileParseJsonWalk_isSome_iff cfg CJson.lib_prints hnamed).mpr hflat)
  exact ⟨vars, hwalk, hentries ▸ toList_of_walk cfg hnamed hwalk,
    fun _ h => walk_reorders cfg hnamed h hwalk⟩

/-- `{"a":{"b":true,"c":[]},"d":""}`, and the delimiter `:`. -/
theorem flattening_exact_nested :
    ∃ vars : Variables, fileParseJsonWalk CJson.lib ⟨.ofBytes [58], .empty⟩ .empty ∅
        (.cons (some (.ofBytes [97]))
          (.object (.cons (some (.ofBytes [98])) .true
            (.cons (some (.ofBytes [99])) (.array .nil) .nil)))
          (.cons (some (.ofBytes [100])) (.string .empty) .nil)) = some vars ∧
      vars.toList.Perm
        [(.ofBytes [97, 58, 98], .ofString "true"), (.ofBytes [100], .empty)] := by
  obtain ⟨vars, hwalk, htoList, -⟩ := @flattening_exact ⟨.ofBytes [58], .empty⟩
    (.cons (some (.ofBytes [97]))
      (.object (.cons (some (.ofBytes [98])) .true
        (.cons (some (.ofBytes [99])) (.array .nil) .nil)))
      (.cons (some (.ofBytes [100])) (.string .empty) .nil))
    ⟨trivial, trivial⟩ ⟨trivial, trivial⟩ (by decide) (by decide) (by decide) (by decide)
  exact ⟨vars, hwalk, htoList⟩

/-- An object with one member, whose name is too long: the assertion on `asprintf` fails. -/
theorem huge_name_panics :
    (∀ x ∈ flattened ⟨.empty, .empty⟩ (.cons (some (letters (2 ^ 31))) .true .nil),
      x.1 ≠ .empty) ∧
    ((flattened ⟨.empty, .empty⟩ (.cons (some (letters (2 ^ 31))) .true .nil)).map
      Prod.fst).Nodup ∧
    fileParseJsonWalk CJson.lib ⟨.empty, .empty⟩ .empty ∅ (.cons (some (letters (2 ^ 31))) .true .nil) =
      none := by
  have hlength := length_letters (2 ^ 31)
  have hflat : flattened ⟨.empty, .empty⟩ (.cons (some (letters (2 ^ 31))) .true .nil) =
      [(letters (2 ^ 31), .ofString "true")] := rfl
  rw [hflat]
  refine ⟨fun x hx hempty => ?_, List.nodup_singleton _, ?_⟩
  · obtain rfl := List.mem_singleton.mp hx
    rw [show letters (2 ^ 31) = .empty from hempty] at hlength
    cases hlength
  · rw [Option.eq_none_iff_forall_ne_some]
    intro vars hwalk
    have hnamed : (JsonItems.cons (some (letters (2 ^ 31))) (.true : Json Double) .nil).Named := trivial
    have hflattens := (fileParseJsonWalk_isSome_iff ⟨.empty, .empty⟩ CJson.lib_prints hnamed).mp
      (by rw [hwalk]; rfl)
    have hpos := hflattens.names (letters (2 ^ 31), .ofString "true") (by
      rw [entries_eq_flattened _ (by trivial), hflat]
      exact List.mem_singleton_self _)
    have hlt := (asprintf_pos.mp hpos).2
    rw [show ((letters (2 ^ 31), CString.ofString "true").1).bytes.length = 2 ^ 31 from hlength]
      at hlt
    exact Nat.lt_irrefl _ hlt

end VmodCfg.File
