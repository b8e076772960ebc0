import VmodCfg.Vtree.Store

/-!
# The environment

`load_env` of an `env` object: a variable for each entry of `environ` that has a
`=`, in a set that was emptied. The assertion on `VRBT_INSERT` is about the
names: the process must not have two entries with the same one.
-/

namespace VmodCfg.Vtree

open RedBlack RedBlack.RbTree Footprint

open File (Variables)

section Load

/-- An entry of `environ`, split at its first `=`. -/
def splitEntry (e : CString) : Option Variable :=
  match e.bytes.dropWhile (· != 61) with
  | [] => none
  | _ :: value => some (.ofBytes (e.bytes.takeWhile (· != 61)), .ofBytes value)

variable {P : Type} [DecidableEq P] (bound : Nat)

/-- The loop of `load_env`, with the address that `malloc` chooses for each entry. -/
def loadEntries : List (CString × P) → Prog P Variable Answer
  | [] => return .done
  | (e, p) :: es => do
    match splitEntry e with
    | none => loadEntries es
    | some (name, value) =>
      match ← insertNew bound p name value with
      | .panic => return .panic
      | _ => loadEntries es

def loadEnv (es : List (CString × P)) : Prog P Variable Answer := do
  flush bound
  loadEntries bound es

def vmodEnvIsSet (name : Option CString) : Prog P Variable Bool :=
  match name with
  | none => return false
  | some name => return (← findVariable bound name).isSome

/-- `vmod_env_get`, up to the copy of the result to the workspace. -/
def vmodEnvGet (name fallback : Option CString) : Prog P Variable (Option CString) :=
  match name with
  | none => return fallback
  | some name => do
    match ← findVariable bound name with
    | none => return fallback
    | some found => return some (← data (some found)).2

/-- What `malloc` returns in the loop is not in use. -/
def Mallocs : List (CString × P) → Store P → Prop
  | [], _ => True
  | (e, p) :: es, s =>
    match splitEntry e with
    | none => Mallocs es s
    | some (name, value) =>
      s.mem p = none ∧
        match insertNew bound p name value s with
        | some (.done, s') => Mallocs es s'
        | _ => True

instance decidableMallocs : ∀ (es : List (CString × P)) (s : Store P),
    Decidable (Mallocs bound es s)
  | [], _ => isTrue trivial
  | (e, p) :: es, s =>
    have : Decidable (match splitEntry e with
        | none => Mallocs bound es s
        | some (name, value) =>
          s.mem p = none ∧
            match insertNew bound p name value s with
            | some (.done, s') => Mallocs bound es s'
            | _ => True) :=
      match splitEntry e with
      | none => decidableMallocs es s
      | some (name, value) =>
        have : Decidable (match insertNew bound p name value s with
            | some (.done, s') => Mallocs bound es s'
            | _ => True) :=
          match insertNew bound p name value s with
          | some (.done, s') => decidableMallocs es s'
          | some (.panic, _) | some (.value _, _) | some (.variables _, _) | none => isTrue trivial
        inferInstanceAs (Decidable (_ ∧ _))
    this

def environment (es : List (CString × P)) : List Variable := es.filterMap fun e => splitEntry e.1

/-- The methods of the object answer from the environment; the walk of `vmod_env_dump` sees each
variable once, by name; and `vmod_env__fini` frees whatever was allocated. -/
structure Serves (s : Store P) (env : List Variable) : Prop where
  isSet : ∀ name, vmodEnvIsSet bound name s = some ((name.bind (env.lookup ·)).isSome, s)
  get : ∀ name fallback,
    vmodEnvGet bound name fallback s = some ((name.bind (env.lookup ·)).or fallback, s)
  dump : ∃ list, walk bound s = some (list, s) ∧ list.Perm env ∧
    list.Pairwise fun a b => CString.strcmp a.1 b.1 = .lt
  fini : ∃ s', flush bound s = some ((), s') ∧ ∀ p, s'.mem p = none

end Load

variable {P : Type} [DecidableEq P] [Fintype P] {bound : Nat} {t : RbTree (P × Variable)}
  {s : Store P} {vars : Variables} {n : Nat} {es : List (CString × P)}

/-- The loop adds the variables, up to the first whose name is there. -/
theorem Represents.loadEntries (h : Represents s t vars n) (hbound : Fintype.card P < bound)
    (hmalloc : Mallocs bound es s) :
    if ((environment es).map Prod.fst).Nodup ∧ ∀ v ∈ environment es, v.1 ∉ vars then
      ∃ s' t', loadEntries bound es s = some (.done, s') ∧
        Represents s' t' ((environment es).foldl (fun vars v => vars.insert v.1 v.2) vars) n
    else ∃ s', loadEntries bound es s = some (.panic, s') := by
  induction es generalizing s t vars with
  | nil =>
    rw [if_pos ⟨List.nodup_nil, nofun⟩]
    exact ⟨s, t, rfl, h⟩
  | cons x es ih =>
    obtain ⟨e, p⟩ := x
    rw [Mallocs] at hmalloc
    rw [environment, List.filterMap_cons]
    unfold Vtree.loadEntries
    cases hsplit : splitEntry e with
    | none =>
      rw [hsplit] at hmalloc
      exact ih h hmalloc
    | some v =>
      obtain ⟨name, value⟩ := v
      rw [hsplit] at hmalloc
      simp only at hmalloc ⊢
      obtain ⟨hp, hrest⟩ := hmalloc
      rcases h.insertNew hbound hp name value with ⟨hin, s', hrun⟩ | ⟨hnew, s₁, t₁, hrun, h₁⟩
      · rw [if_neg fun hgood => hgood.2 _ List.mem_cons_self hin]
        refine ⟨s', ?_⟩
        show (Vtree.insertNew bound p name value s).bind _ = _
        rw [hrun]
        rfl
      · rw [hrun] at hrest
        have hload := ih h₁ hrest
        have hgood : (((environment es).map Prod.fst).Nodup ∧
            ∀ v ∈ environment es, v.1 ∉ vars.insert name value) ↔
            ((((name, value) :: environment es).map Prod.fst).Nodup ∧
              ∀ v ∈ (name, value) :: environment es, v.1 ∉ vars) := by
          simp only [Std.ExtTreeMap.mem_insert, Std.LawfulEqCmp.compare_eq_iff_eq, not_or,
            List.map_cons, List.nodup_cons, List.mem_map, List.forall_mem_cons, hnew]
          constructor
          · rintro ⟨hnd, hall⟩
            exact ⟨⟨fun ⟨v, hv, heq⟩ => (hall v hv).1 heq.symm, hnd⟩, not_false,
              fun v hv => (hall v hv).2⟩
          · rintro ⟨⟨hname, hnd⟩, -, hall⟩
            exact ⟨hnd, fun v hv => ⟨fun heq => hname ⟨v, hv, heq.symm⟩, hall v hv⟩⟩
        rw [if_congr hgood rfl rfl] at hload
        have hstep : ∀ {r}, Vtree.loadEntries bound es s₁ = r →
            (Vtree.insertNew bound p name value >>= fun a =>
              match a with
              | .panic => return .panic
              | _ => Vtree.loadEntries bound es) s = r := by
          intro r hr
          show (Vtree.insertNew bound p name value s).bind _ = _
          rw [hrun]
          exact hr
        split at hload
        · rename_i hall
          obtain ⟨s', t', hrun', hs'⟩ := hload
          exact (if_pos hall).mpr ⟨s', t', hstep hrun', hs'⟩
        · rename_i hall
          obtain ⟨s', hrun'⟩ := hload
          exact (if_neg hall).mpr ⟨s', hstep hrun'⟩

theorem getElem?_added {l : List Variable} (hnd : (l.map Prod.fst).Nodup) {vars : Variables}
    (hnew : ∀ v ∈ l, v.1 ∉ vars) (name : CString) :
    (l.foldl (fun vars v => vars.insert v.1 v.2) vars)[name]? = (l.lookup name).or vars[name]? := by
  induction l generalizing vars with
  | nil => rfl
  | cons v l ih =>
    obtain ⟨hnotin, hnd⟩ := List.nodup_cons.mp hnd
    obtain ⟨hv, hnew⟩ := List.forall_mem_cons.mp hnew
    have hnew' : ∀ w ∈ l, w.1 ∉ vars.insert v.1 v.2 := by
      intro w hw
      rw [Std.ExtTreeMap.mem_insert, Std.LawfulEqCmp.compare_eq_iff_eq, not_or]
      exact ⟨fun heq => hnotin (heq ▸ List.mem_map_of_mem hw), hnew w hw⟩
    rw [List.foldl_cons, ih hnd hnew', Std.ExtTreeMap.getElem?_insert, List.lookup_cons]
    by_cases hname : name = v.1
    · subst hname
      have hnone : l.lookup v.1 = none := by
        rw [List.lookup_eq_none_iff]
        intro w hw
        simpa using fun heq : v.1 = w.1 => hnotin (heq ▸ List.mem_map_of_mem hw)
      rw [hnone, if_pos Std.ReflCmp.compare_self, beq_self_eq_true]
      rfl
    · rw [if_neg fun heq => hname (Std.LawfulEqCmp.eq_of_compare heq).symm, beq_false_of_ne hname]

theorem lookup_eq_some_iff_mem {l : List Variable} (hnd : (l.map Prod.fst).Nodup)
    {name value : CString} : l.lookup name = some value ↔ (name, value) ∈ l := by
  rw [List.lookup_eq_some_iff]
  constructor
  · rintro ⟨l₁, l₂, rfl, -⟩
    simp
  · intro hmem
    obtain ⟨l₁, l₂, rfl⟩ := List.append_of_mem hmem
    refine ⟨l₁, l₂, rfl, fun v hv => ?_⟩
    rw [List.map_append, List.map_cons] at hnd
    have hdisjoint := List.disjoint_of_nodup_append hnd
    have hne : name ≠ v.1 := fun heq =>
      hdisjoint (List.mem_map_of_mem (f := Prod.fst) hv) (heq ▸ List.mem_cons_self)
    simpa using hne

theorem Represents.serves (h : Represents s t vars 0) (hbound : Fintype.card P < bound)
    {env : List Variable} (hnd : (env.map Prod.fst).Nodup)
    (hvars : ∀ name, vars[name]? = env.lookup name) : Serves bound s env := by
  have hheight := h.height_lt hbound
  refine ⟨fun name => ?_, fun name fallback => ?_, ?_, ?_⟩
  · cases name with
    | none => rfl
    | some name =>
      rcases h.found (k := fun found => return found.isSome) hheight name with
        ⟨hnot, hrun⟩ | ⟨q, value, -, hvalue, hrun⟩
      · rw [Option.bind_some, ← hvars, Std.ExtTreeMap.getElem?_eq_none hnot]
        exact hrun
      · rw [Option.bind_some, ← hvars, show vars[name]? = some value from hvalue]
        exact hrun
  · cases name with
    | none => rfl
    | some name =>
      rcases h.found (k := fun found => match found with
          | none => return fallback
          | some found => return some (← Vtree.data (some found)).2) hheight name with
        ⟨hnot, hrun⟩ | ⟨q, value, hq, hvalue, hrun⟩
      · rw [Option.bind_some, ← hvars, Std.ExtTreeMap.getElem?_eq_none hnot]
        exact hrun
      · rw [Option.bind_some, ← hvars, show vars[name]? = some value from hvalue]
        refine hrun.trans ?_
        show (Vtree.data (some q) s).bind _ = _
        rw [h.data hq]
        rfl
  · have hwalk := Does.walk (Nat.lt_of_le_of_lt h.length_le hbound) h.distinct
    refine ⟨_, h.reads hwalk, ?_, List.pairwise_map.mpr h.ordered⟩
    rw [h.toList_eq]
    refine (List.perm_ext_iff_of_nodup vars.nodup_toList (.of_map _ hnd)).mpr ?_
    rintro ⟨name, value⟩
    rw [Std.ExtTreeMap.mem_toList_iff_getElem?_eq_some, hvars, lookup_eq_some_iff_mem hnd]
  · obtain ⟨k, hbal⟩ := h.balanced
    have hflush := Does.flush (Nat.lt_of_le_of_lt h.length_le hbound) hbal h.distinct
    obtain ⟨others, hcard, hmem⟩ := h.memory
    obtain ⟨h', hrun, hmem'⟩ := hflush s.mem others hmem
    rw [← h.root] at hrun
    refine ⟨_, hrun, fun p => Option.eq_none_iff_forall_ne_some.mpr fun c hc => ?_⟩
    rw [Multiset.card_eq_zero.mp hcard] at hmem'
    exact absurd ((hmem'.2 p c).mp hc) (by simp [cells])

/-- **An `env` object serves the environment** of the process, and its creation fails an assertion
exactly when a name occurs twice. -/
theorem env_serves_environment (hbound : Fintype.card P < bound)
    (hmalloc : Mallocs bound es initial) :
    if ((environment es).map Prod.fst).Nodup then
      ∃ s, loadEnv bound es initial = some (.done, s) ∧ Serves bound s (environment es)
    else ∃ s, loadEnv bound es initial = some (.panic, s) := by
  have hflush : (Vtree.flush bound : Prog P Variable Unit) initial = some ((), initial) := by
    have hdoes : Does (.nil : RbTree (P × Variable)) (Vtree.flush bound) () .nil :=
      Does.flush (Nat.zero_lt_of_lt hbound) .nil List.nodup_nil
    obtain ⟨h', hrun, hmem⟩ := hdoes (fun _ => none) 0 (by simp [Holds, cells])
    have hempty : Holds (fun _ => none) (cells none (.nil : RbTree (P × Variable)) + 0) := by
      simp [Holds, cells]
    rw [Holds.eq hempty hmem] at hrun
    exact hrun
  have hstart : ∀ {r}, loadEntries bound es initial = r → loadEnv bound es initial = r := by
    intro r hr
    show (Vtree.flush bound (initial : Store P)).bind _ = _
    rw [hflush]
    exact hr
  have hload := represents_initial.loadEntries hbound hmalloc
  have hnew : ∀ v ∈ environment es, v.1 ∉ (∅ : Variables) := fun v _ => Std.ExtTreeMap.not_mem_empty
  by_cases hnd : ((environment es).map Prod.fst).Nodup
  · rw [if_pos ⟨hnd, hnew⟩] at hload
    rw [if_pos hnd]
    obtain ⟨s, t, hrun, hs⟩ := hload
    refine ⟨s, hstart hrun, hs.serves hbound hnd fun name => ?_⟩
    rw [getElem?_added hnd hnew, Std.ExtTreeMap.getElem?_empty, Option.or_none]
  · rw [if_neg fun hgood => hnd hgood.1] at hload
    rw [if_neg hnd]
    obtain ⟨s, hrun⟩ := hload
    exact ⟨s, hstart hrun⟩

/-- `A=1`, an entry without a `=`, and `B=x=y`. -/
def twoEntries : List (CString × Option Bool) :=
  [(.ofString "A=1", none), (.ofString "A", some false), (.ofString "B=x=y", some true)]

theorem env_serves_environment_two : ∃ s, loadEnv 4 twoEntries initial = some (.done, s) ∧
    Serves 4 s [(.ofString "A", .ofString "1"), (.ofString "B", .ofString "x=y")] := by
  have henv : environment twoEntries =
      [(.ofString "A", .ofString "1"), (.ofString "B", .ofString "x=y")] := by decide +kernel
  have hmalloc : Mallocs 4 twoEntries initial := by decide +kernel
  have hload := env_serves_environment (by decide) hmalloc
  rwa [henv, if_pos (by decide +kernel)] at hload

end VmodCfg.Vtree
