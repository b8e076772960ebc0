import VmodCfg.Lib.Arena
import VmodCfg.Lib.RwLock
import VmodCfg.Script.Shared

/-!
# The regexp cache

Any number of threads call `varnish_regmatch_command` and `varnish_regsub_command` on one script
object. `init_regexp` looks the text up, compiles it, and looks it up once more before it inserts
it: three sections, of which the first and the last hold `regexps.rwlock`. Compiled regexps live in
an arena; a regexp that was freed reads as whatever took its place.
-/

namespace VmodCfg.Script.RegexpCache

open Locking Machine

section Defs

variable {T X R : Type*}

/-- `VRE_compile`, `VRT_re_match`, `VRT_regsub` and `WS_Printf`; `X` is the context of a call. -/
structure RegexpLib (X R : Type*) where
  compile : CString → Option R
  reMatch : X → CString → R → Bool
  regsub : X → Bool → CString → R → CString → Option CString
  wsPrintf : X → CString → Option CString

inductive Command where
  | regmatch (string : CString)
  | regsub (string sub : CString) (all : Bool)
  deriving DecidableEq

structure Call (X : Type*) where
  ctx : X
  command : Command
  regexp : CString
  cache : Bool

inductive Answer where
  | matched (result : Bool)
  | replaced (result : Option CString)
  | failed (error : Option CString)
  deriving DecidableEq

variable (lib : RegexpLib X R)

/-- The command, with a compiled regexp. -/
def RegexpLib.apply (c : Call X) (re : R) : Answer :=
  match c.command with
  | .regmatch string => .matched (lib.reMatch c.ctx string re)
  | .regsub string sub all => .replaced (lib.regsub c.ctx all string re sub)

/-- The command, when `init_regexp` returned NULL. -/
def RegexpLib.fail (c : Call X) : Answer := .failed (lib.wsPrintf c.ctx (regexpError c.regexp))

/-- The command with a regexp that was compiled for it. -/
def RegexpLib.fresh (c : Call X) : Answer :=
  match lib.compile c.regexp with
  | some re => lib.apply c re
  | none => lib.fail c

/-- Where a call stands: up to `unlocking` in `init_regexp`. -/
inductive Pc where
  | start
  | searching
  | searched (found : Option Ref)
  | compiling
  | caching (own : Ref)
  | checking (own : Ref)
  | inserting (own : Ref)
  | dropping (own cached : Ref)
  | unlocking (re : Ref)
  | matching (re : Ref)
  | freeing (re : Ref) (ans : Answer)
  | returned (ans : Answer)
  deriving DecidableEq

def Pc.hold : Pc → Option Mode
  | .searching | .searched _ => some .read
  | .checking _ | .inserting _ | .dropping .. | .unlocking _ => some .write
  | _ => none

inductive Thread (X : Type*) where
  | idle
  | run (c : Call X) (pc : Pc)

def Thread.hold : Thread X → Option Mode
  | .idle => none
  | .run _ pc => pc.hold

/-- `state.regexps`, the compiled regexps, and the threads. -/
structure CacheSys (T X R : Type*) where
  regexps : Regexps Ref
  vres : Arena R
  thr : T → Thread X

/-- A thread is called, or goes on; `junk` is what it reads where a freed regexp was. -/
inductive Act (T X R : Type*) where
  | call (t : T) (c : Call X)
  | go (t : T) (junk : R)

namespace CacheSys

def init : CacheSys T X R := ⟨⟨0, ∅⟩, ⟨[]⟩, fun _ => .idle⟩

def deref (s : CacheSys T X R) (re : Ref) (junk : R) : R :=
  if s.vres.Live re then (s.vres.val? re).getD junk else junk

variable [DecidableEq T]

def goto (s : CacheSys T X R) (t : T) (c : Call X) (pc : Pc) : CacheSys T X R :=
  { s with thr := Function.update s.thr t (.run c pc) }

variable [Fintype T] (s : CacheSys T X R)

def acquire (t : T) (c : Call X) (m : Mode) (pc : Pc) : Option (CacheSys T X R) :=
  if RwLock.Free (fun u => (s.thr u).hold) m then some (s.goto t c pc) else none

def next (t : T) (c : Call X) (junk : R) : Pc → Option (CacheSys T X R)
  | .start => if c.cache then s.acquire t c .read .searching else some (s.goto t c .compiling)
  | .searching => some (s.goto t c (.searched s.regexps.list[c.regexp]?))
  | .searched (some cached) => some (s.goto t c (.matching cached))
  | .searched none => some (s.goto t c .compiling)
  | .compiling =>
    match lib.compile c.regexp with
    | none => some (s.goto t c (.returned (lib.fail c)))
    | some re =>
      some
        { s.goto t c (if c.cache then .caching s.vres.size else .matching s.vres.size) with
          vres := s.vres.alloc re }
  | .caching own => s.acquire t c .write (.checking own)
  | .checking own =>
    match s.regexps.list[c.regexp]? with
    | none => some (s.goto t c (.inserting own))
    | some cached => some (s.goto t c (.dropping own cached))
  | .inserting own =>
    -- the assertion on `VRBT_INSERT`
    if c.regexp ∈ s.regexps.list then none
    else
      some
        { s.goto t c (.unlocking own) with
          regexps := ⟨s.regexps.n + 1, s.regexps.list.insert c.regexp own⟩ }
  | .dropping own cached => some { s.goto t c (.unlocking cached) with vres := s.vres.free own }
  | .unlocking re => some (s.goto t c (.matching re))
  | .matching re =>
    let ans := lib.apply c (s.deref re junk)
    some (s.goto t c (if c.cache then .returned ans else .freeing re ans))
  | .freeing re ans => some { s.goto t c (.returned ans) with vres := s.vres.free re }
  | .returned _ => none

def step : Act T X R → Option (CacheSys T X R)
  | .call t c =>
    match s.thr t with
    | .idle | .run _ (.returned _) => some (s.goto t c .start)
    | _ => none
  | .go t junk =>
    match s.thr t with
    | .idle => none
    | .run c pc => s.next lib t c junk pc

end CacheSys

/-! ## What the calls do with compiled regexps -/

/-- The regexp that the call compiled, and has neither cached nor freed. -/
def Pc.owned (cache : Bool) : Pc → Option Ref
  | .caching own | .checking own | .inserting own | .dropping own _ => some own
  | .matching re => if cache then none else some re
  | .freeing re _ => some re
  | _ => none

def Thread.owned : Thread X → Option Ref
  | .idle => none
  | .run c pc => pc.owned c.cache

/-- The regexp that the call uses next. -/
def Thread.used : Thread X → Option Ref
  | .run _ (.matching re) => some re
  | _ => none

/-- The regexp that the call frees next. -/
def Thread.freed : Thread X → Option Ref
  | .run _ (.dropping own _) | .run _ (.freeing own _) => some own
  | _ => none

/-- A regexp that is used is live. -/
def UsesLive (s : CacheSys T X R) : Act T X R → Prop
  | .go t _ => ∀ re ∈ (s.thr t).used, s.vres.Live re
  | _ => True

/-- A regexp that is freed is live, is not in the cache, and no other call has it. -/
def FreesOwn (s : CacheSys T X R) : Act T X R → Prop
  | .go t _ => ∀ re ∈ (s.thr t).freed, s.vres.Live re ∧
    (∀ text : CString, s.regexps.list[text]? ≠ some re) ∧
    ∀ u, u ≠ t → (s.thr u).owned ≠ some re ∧ (s.thr u).used ≠ some re
  | _ => True

/-! ## The invariant -/

def Compiled (vres : Arena R) (text : CString) (re : Ref) : Prop :=
  vres.Live re ∧ ∃ r, vres.val? re = some r ∧ lib.compile text = some r

/-- The call is where only calls with `cache` come. -/
def Pc.InCache : Pc → Prop
  | .searching | .searched _ | .caching _ | .checking _ | .inserting _ | .dropping ..
  | .unlocking _ => True
  | _ => False

/-- What a call relies on. -/
def CallOk (regexps : Regexps Ref) (vres : Arena R) (c : Call X) : Pc → Prop
  | .searched (some re) | .unlocking re => regexps.list[c.regexp]? = some re
  | .caching own | .checking own => Compiled lib vres c.regexp own
  | .inserting own => Compiled lib vres c.regexp own ∧ regexps.list[c.regexp]? = none
  | .dropping own cached =>
    Compiled lib vres c.regexp own ∧ regexps.list[c.regexp]? = some cached
  | .matching re =>
    if c.cache then regexps.list[c.regexp]? = some re else Compiled lib vres c.regexp re
  | .freeing re ans => Compiled lib vres c.regexp re ∧ ans = lib.fresh c
  | .returned ans => ans = lib.fresh c
  | _ => True

def ThreadOk (regexps : Regexps Ref) (vres : Arena R) : Thread X → Prop
  | .idle => True
  | .run c pc => CallOk lib regexps vres c pc ∧ (pc.InCache → c.cache = true)

/-- What holds of the cache between any two actions. -/
structure CacheInv (s : CacheSys T X R) : Prop where
  cached : ∀ (text : CString) re, s.regexps.list[text]? = some re → Compiled lib s.vres text re
  count : s.regexps.n = UInt32.ofNat s.regexps.list.size
  threads : ∀ t, ThreadOk lib s.regexps s.vres (s.thr t)
  private_ : ∀ t re, (s.thr t).owned = some re → ∀ text : CString, s.regexps.list[text]? ≠ some re
  owners : ∀ t u re, (s.thr t).owned = some re → (s.thr u).owned = some re → t = u
  lock : RwLock.Excluded fun t => (s.thr t).hold

end Defs

section Invariant

variable {T X R : Type*} {lib : RegexpLib X R} {s : CacheSys T X R}

theorem not_mem_of_none {list : Std.ExtTreeMap CString Ref CString.strcmp} {text : CString}
    (h : list[text]? = none) : text ∉ list := by
  intro hmem
  rw [Std.ExtTreeMap.mem_iff_isSome_getElem?, h] at hmem
  cases hmem

theorem CacheInv.init : CacheInv lib (CacheSys.init : CacheSys T X R) := by
  refine ⟨fun text re h => ?_, rfl, fun _ => trivial, nofun, nofun, RwLock.excluded_init⟩
  simp [CacheSys.init] at h

theorem Compiled.alloc {vres : Arena R} {text : CString} {re : Ref} (h : Compiled lib vres text re)
    (r : R) : Compiled lib (vres.alloc r) text re := by
  obtain ⟨hlive, r', hval, hcomp⟩ := h
  exact ⟨hlive.alloc, r', vres.val?_alloc hval, hcomp⟩

theorem Compiled.free {vres : Arena R} {text : CString} {re own : Ref}
    (h : Compiled lib vres text re) (hne : re ≠ own) : Compiled lib (vres.free own) text re := by
  obtain ⟨hlive, r', hval, hcomp⟩ := h
  exact ⟨hlive.free hne, r', (vres.val?_free re).trans hval, hcomp⟩

/-- The regexp that a call owns, or has from the cache, is a live compilation of its text. -/
theorem CacheInv.used (hi : CacheInv lib s) {t : T} {c : Call X} {re : Ref}
    (ht : s.thr t = .run c (.matching re)) : Compiled lib s.vres c.regexp re := by
  have hok := hi.threads t
  rw [ht] at hok
  have hre := hok.1
  simp only [CallOk] at hre
  split at hre
  · exact hi.cached c.regexp re hre
  · exact hre

theorem ThreadOk.owned {regexps : Regexps Ref} {vres : Arena R} {th : Thread X}
    (h : ThreadOk lib regexps vres th) {re : Ref} (hre : th.owned = some re) :
    ∃ text, Compiled lib vres text re := by
  cases th with
  | idle => cases hre
  | run c pc =>
    refine ⟨c.regexp, ?_⟩
    have hok := h.1
    cases pc with
    | caching own | checking own =>
      cases hre
      exact hok
    | inserting own | dropping own cached | freeing own ans =>
      cases hre
      exact hok.1
    | matching own =>
      simp only [CallOk] at hok
      simp only [Thread.owned, Pc.owned] at hre
      split at hre
      · cases hre
      · rename_i hc
        cases hre
        rwa [if_neg hc] at hok
    | _ => cases hre

/-- What a call computes with a regexp of its text is what it computes with a fresh one. -/
theorem Compiled.apply_eq {c : Call X} {re : Ref} (h : Compiled lib s.vres c.regexp re) (junk : R) :
    lib.apply c (s.deref re junk) = lib.fresh c := by
  obtain ⟨hlive, r, hval, hcomp⟩ := h
  simp [CacheSys.deref, RegexpLib.fresh, hlive, hval, hcomp]

/-- A call relies on less when regexps are added to the cache or compiled. -/
theorem ThreadOk.grow {regexps regexps' : Regexps Ref} {vres vres' : Arena R} {th : Thread X}
    (h : ThreadOk lib regexps vres th)
    (hsome : ∀ (text : CString) re, regexps.list[text]? = some re →
      regexps'.list[text]? = some re)
    (hnone : th.hold = some .write → ∀ text : CString, regexps.list[text]? = none →
      regexps'.list[text]? = none)
    (hcomp : ∀ text re, th.owned = some re → Compiled lib vres text re →
      Compiled lib vres' text re) : ThreadOk lib regexps' vres' th := by
  cases th with
  | idle => trivial
  | run c pc =>
    obtain ⟨hok, hcache⟩ := h
    refine ⟨?_, hcache⟩
    cases pc with
    | searched found =>
      cases found with
      | none => trivial
      | some re => exact hsome _ _ hok
    | caching own | checking own => exact hcomp _ _ rfl hok
    | inserting own => exact ⟨hcomp _ _ rfl hok.1, hnone rfl _ hok.2⟩
    | dropping own cached => exact ⟨hcomp _ _ rfl hok.1, hsome _ _ hok.2⟩
    | unlocking re => exact hsome _ _ hok
    | matching re =>
      simp only [CallOk] at hok ⊢
      split at hok
      · rename_i hc
        rw [if_pos hc]
        exact hsome _ _ hok
      · rename_i hc
        rw [if_neg hc]
        exact hcomp _ _ (by simp [Thread.owned, Pc.owned, hc]) hok
    | freeing re ans => exact ⟨hcomp _ _ rfl hok.1, hok.2⟩
    | returned ans => exact hok
    | _ => trivial

variable [DecidableEq T]

/-- Whose regexps are whose, after a step in which no thread but `t` gets one. -/
theorem CacheInv.owned_goto {t : T} {th : Thread X} {u : T} {re : Ref}
    (h : (Function.update s.thr t th u).owned = some re) :
    (u = t ∧ th.owned = some re) ∨ (u ≠ t ∧ (s.thr u).owned = some re) := by
  by_cases hut : u = t
  · subst hut
    rw [Function.update_self] at h
    exact .inl ⟨rfl, h⟩
  · rw [Function.update_of_ne hut] at h
    exact .inr ⟨hut, h⟩

theorem hold_update (t : T) (th : Thread X) :
    (fun u => (Function.update s.thr t th u).hold) =
      Function.update (fun u => (s.thr u).hold) t th.hold :=
  funext fun u => Function.apply_update (fun _ th => Thread.hold th) s.thr t th u

theorem CacheInv.calm (hi : CacheInv lib s) {t : T} {c : Call X} {pc : Pc}
    (hok : ThreadOk lib s.regexps s.vres (.run c pc))
    (hown : ∀ re, pc.owned c.cache = some re → (s.thr t).owned = some re)
    (hhold : pc.hold = (s.thr t).hold ∨ pc.hold = none ∨
      ∃ m, pc.hold = some m ∧ RwLock.Free (fun u => (s.thr u).hold) m) :
    CacheInv lib (s.goto t c pc) := by
  have howned : ∀ u re, ((s.goto t c pc).thr u).owned = some re → (s.thr u).owned = some re := by
    intro u re h
    rcases CacheInv.owned_goto h with ⟨rfl, h'⟩ | ⟨-, h'⟩
    · exact hown re h'
    · exact h'
  refine ⟨hi.cached, hi.count, ?_, fun u re h => hi.private_ u re (howned u re h),
    fun u v re hu hv => hi.owners u v re (howned u re hu) (howned v re hv), ?_⟩
  · exact (Function.forall_update_iff s.thr fun _ x => ThreadOk lib s.regexps s.vres x).mpr
      ⟨hok, fun u _ => hi.threads u⟩
  · show RwLock.Excluded fun u => (Function.update s.thr t (.run c pc) u).hold
    rw [hold_update]
    exact hi.lock.update hhold

/-- A regexp is compiled: no thread has it yet. -/
theorem CacheInv.compile (hi : CacheInv lib s) {t : T} {c : Call X} {pc : Pc} {r : R}
    (hcomp : lib.compile c.regexp = some r)
    (hok : Compiled lib (s.vres.alloc r) c.regexp s.vres.size →
      ThreadOk lib s.regexps (s.vres.alloc r) (.run c pc))
    (hown : pc.owned c.cache = some s.vres.size) (hhold : pc.hold = none) :
    CacheInv lib { s.goto t c pc with vres := s.vres.alloc r } := by
  have hlt : ∀ u re, (s.thr u).owned = some re → re < s.vres.size := by
    intro u re hu
    obtain ⟨text, hre⟩ := (hi.threads u).owned hu
    exact hre.1.lt
  have hnew : Compiled lib (s.vres.alloc r) c.regexp s.vres.size :=
    ⟨Arena.live_alloc_self _, r, Arena.val?_alloc_self _, hcomp⟩
  refine ⟨fun text re h => (hi.cached text re h).alloc r, hi.count, ?_, fun u re h => ?_,
    fun u v re hu hv => ?_, ?_⟩
  · refine (Function.forall_update_iff s.thr fun _ x => ThreadOk lib s.regexps (s.vres.alloc r)
      x).mpr ⟨hok hnew, fun u _ => ?_⟩
    exact (hi.threads u).grow (fun _ _ h => h) (fun _ _ h => h) fun _ _ _ h => h.alloc r
  · rcases CacheInv.owned_goto h with ⟨-, h'⟩ | ⟨-, h'⟩
    · intro text htext
      cases hown.symm.trans h'
      exact Nat.lt_irrefl _ (hi.cached text _ htext).1.lt
    · exact hi.private_ u re h'
  · rcases CacheInv.owned_goto hu with ⟨hut, hu'⟩ | ⟨-, hu'⟩
    · rcases CacheInv.owned_goto hv with ⟨hvt, -⟩ | ⟨-, hv'⟩
      · exact hut.trans hvt.symm
      · cases hown.symm.trans hu'
        exact absurd (hlt v _ hv') (Nat.lt_irrefl _)
    · rcases CacheInv.owned_goto hv with ⟨-, hv'⟩ | ⟨-, hv'⟩
      · cases hown.symm.trans hv'
        exact absurd (hlt u _ hu') (Nat.lt_irrefl _)
      · exact hi.owners u v re hu' hv'
  · show RwLock.Excluded fun u => (Function.update s.thr t (.run c pc) u).hold
    rw [hold_update]
    exact hi.lock.update (.inr (.inl hhold))

/-- A call inserts the regexp it compiled: what it owned is in the cache now. -/
theorem CacheInv.insert (hi : CacheInv lib s) {t : T} {c : Call X} {own : Ref}
    (ht : s.thr t = .run c (.inserting own)) :
    CacheInv lib
      { s.goto t c (.unlocking own) with
        regexps := ⟨s.regexps.n + 1, s.regexps.list.insert c.regexp own⟩ } := by
  have hok := hi.threads t
  rw [ht] at hok
  obtain ⟨⟨hown, hnone⟩, hcache⟩ := hok
  have howner : (s.thr t).owned = some own := by rw [ht]; rfl
  have hself : (s.regexps.list.insert c.regexp own)[c.regexp]? = some own := by simp
  have hget : ∀ (text : CString) re, (s.regexps.list.insert c.regexp own)[text]? = some re →
      (text = c.regexp ∧ re = own) ∨ s.regexps.list[text]? = some re := by
    intro text re h
    rw [Std.ExtTreeMap.getElem?_insert] at h
    split at h
    · rename_i heq
      cases Std.LawfulEqCmp.eq_of_compare heq
      cases h
      exact .inl ⟨rfl, rfl⟩
    · exact .inr h
  have hkeep : ∀ text : CString, text ≠ c.regexp →
      (s.regexps.list.insert c.regexp own)[text]? = s.regexps.list[text]? := by
    intro text hne
    rw [Std.ExtTreeMap.getElem?_insert, if_neg]
    exact fun heq => hne (Std.LawfulEqCmp.eq_of_compare heq).symm
  have howned : ∀ u re, (Function.update s.thr t (.run c (.unlocking own)) u).owned = some re →
      u ≠ t ∧ (s.thr u).owned = some re := by
    intro u re h
    rcases CacheInv.owned_goto h with ⟨-, h'⟩ | h'
    · cases h'
    · exact h'
  refine ⟨fun text re h => ?_, ?_, ?_, fun u re hu text htext => ?_,
    fun u v re hu hv => hi.owners u v re (howned u re hu).2 (howned v re hv).2, ?_⟩
  · rcases hget text re h with ⟨rfl, rfl⟩ | h'
    · exact hown
    · exact hi.cached text re h'
  · have hmem : c.regexp ∉ s.regexps.list := not_mem_of_none hnone
    show s.regexps.n + 1 = UInt32.ofNat (s.regexps.list.insert c.regexp own).size
    rw [Std.ExtTreeMap.size_insert, if_neg (by simpa using hmem), hi.count, UInt32.ofNat_add]
    rfl
  · refine (Function.forall_update_iff s.thr fun _ x => ThreadOk lib
      ⟨s.regexps.n + 1, s.regexps.list.insert c.regexp own⟩ s.vres x).mpr
      ⟨⟨hself, fun _ => hcache trivial⟩, fun u hu => ?_⟩
    refine (hi.threads u).grow (fun text re h => ?_) (fun hw text _ => ?_) fun _ _ _ h => h
    · rw [← h]
      apply hkeep
      rintro rfl
      rw [hnone] at h
      cases h
    · -- `t` holds the lock for writing
      have hexcl : (s.thr u).hold = none := hi.lock t u hu.symm (by simp only [ht]; rfl)
      rw [hw] at hexcl
      cases hexcl
  · obtain ⟨hut, hu'⟩ := howned u re hu
    rcases hget text re htext with ⟨-, rfl⟩ | htext'
    · exact hut (hi.owners u t re hu' howner)
    · exact hi.private_ u re hu' text htext'
  · show RwLock.Excluded fun u => (Function.update s.thr t (.run c (.unlocking own)) u).hold
    rw [hold_update]
    exact hi.lock.update (.inl (by simp only [ht]; rfl))

theorem CacheInv.release (hi : CacheInv lib s) {t : T} {c : Call X} {pc : Pc} {own : Ref}
    (howner : (s.thr t).owned = some own) (hown : pc.owned c.cache = none)
    (hok : ThreadOk lib s.regexps s.vres (.run c pc)) (hhold : pc.hold = (s.thr t).hold) :
    CacheInv lib { s.goto t c pc with vres := s.vres.free own } := by
  have howned : ∀ u re, (Function.update s.thr t (.run c pc) u).owned = some re →
      u ≠ t ∧ (s.thr u).owned = some re := by
    intro u re h
    rcases CacheInv.owned_goto h with ⟨-, h'⟩ | h'
    · cases hown.symm.trans h'
    · exact h'
  refine ⟨fun text re h => (hi.cached text re h).free ?_, hi.count, ?_,
    fun u re hu => hi.private_ u re (howned u re hu).2,
    fun u v re hu hv => hi.owners u v re (howned u re hu).2 (howned v re hv).2, ?_⟩
  · rintro rfl
    exact hi.private_ t re howner text h
  · refine (Function.forall_update_iff s.thr fun _ x => ThreadOk lib s.regexps (s.vres.free own)
      x).mpr ⟨hok.grow (fun _ _ h => h) (fun _ _ h => h) fun _ re hre _ => ?_, fun u hu => ?_⟩
    · cases hown.symm.trans hre
    · refine (hi.threads u).grow (fun _ _ h => h) (fun _ _ h => h) fun _ re hre h => h.free ?_
      rintro rfl
      exact hu (hi.owners u t re hre howner)
  · show RwLock.Excluded fun u => (Function.update s.thr t (.run c pc) u).hold
    rw [hold_update]
    exact hi.lock.update (.inl hhold)

variable [Fintype T] {s' : CacheSys T X R}

theorem CacheInv.acquire (hi : CacheInv lib s) {t : T} {c : Call X} {m : Mode} {pc : Pc}
    (hs : s.acquire t c m pc = some s') (hok : ThreadOk lib s.regexps s.vres (.run c pc))
    (hown : ∀ re, pc.owned c.cache = some re → (s.thr t).owned = some re)
    (hhold : pc.hold = some m) : CacheInv lib s' := by
  unfold CacheSys.acquire at hs
  split at hs
  · rename_i hfree
    cases hs
    exact hi.calm hok hown (.inr (.inr ⟨m, hhold, hfree⟩))
  · cases hs

theorem CacheInv.next (hi : CacheInv lib s) {t : T} {c : Call X} {pc : Pc} {junk : R}
    (ht : s.thr t = .run c pc) (hs : s.next lib t c junk pc = some s') : CacheInv lib s' := by
  have hok := hi.threads t
  rw [ht] at hok
  obtain ⟨hcall, hcache⟩ := hok
  have howner : (s.thr t).owned = pc.owned c.cache := by rw [ht]; rfl
  have hhold : (s.thr t).hold = pc.hold := by rw [ht]; rfl
  cases pc with
  | start =>
    simp only [CacheSys.next] at hs
    split at hs
    · rename_i hc
      exact hi.acquire hs ⟨trivial, fun _ => hc⟩ nofun rfl
    · cases hs
      exact hi.calm ⟨trivial, nofun⟩ nofun (.inr (.inl rfl))
  | searching =>
    cases hs
    refine hi.calm ⟨?_, fun _ => hcache trivial⟩ nofun (.inl hhold.symm)
    cases hfound : s.regexps.list[c.regexp]? with
    | none => trivial
    | some re => exact hfound
  | searched found =>
    cases found with
    | none =>
      cases hs
      exact hi.calm ⟨trivial, nofun⟩ nofun (.inr (.inl rfl))
    | some re =>
      cases hs
      have hc := hcache trivial
      refine hi.calm ⟨?_, nofun⟩ ?_ (.inr (.inl rfl))
      · simpa [CallOk, hc] using hcall
      · simp [Pc.owned, hc]
  | compiling =>
    simp only [CacheSys.next] at hs
    split at hs
    · rename_i hnone
      cases hs
      refine hi.calm ⟨?_, nofun⟩ nofun (.inr (.inl rfl))
      simp [CallOk, RegexpLib.fresh, hnone]
    · rename_i r hsome
      cases hs
      by_cases hc : c.cache = true
      · rw [if_pos hc]
        exact hi.compile hsome (fun h => ⟨h, fun _ => hc⟩) rfl rfl
      · rw [if_neg hc]
        refine hi.compile hsome (fun h => ⟨?_, nofun⟩) ?_ rfl
        · simpa [CallOk, hc] using h
        · simp [Pc.owned, hc]
  | caching own =>
    exact hi.acquire hs ⟨hcall, fun _ => hcache trivial⟩ (fun re h => howner.trans h) rfl
  | checking own =>
    simp only [CacheSys.next] at hs
    split at hs
    · rename_i hnone
      cases hs
      exact hi.calm ⟨⟨hcall, hnone⟩, fun _ => hcache trivial⟩ (fun re h => howner.trans h)
        (.inl hhold.symm)
    · rename_i cached hsome
      cases hs
      exact hi.calm ⟨⟨hcall, hsome⟩, fun _ => hcache trivial⟩ (fun re h => howner.trans h)
        (.inl hhold.symm)
  | inserting own =>
    simp only [CacheSys.next] at hs
    split at hs
    · cases hs
    · cases hs
      exact hi.insert ht
  | dropping own cached =>
    cases hs
    exact hi.release howner rfl ⟨hcall.2, fun _ => hcache trivial⟩ hhold.symm
  | unlocking re =>
    cases hs
    have hc := hcache trivial
    refine hi.calm ⟨?_, nofun⟩ ?_ (.inr (.inl rfl))
    · simpa [CallOk, hc] using hcall
    · simp [Pc.owned, hc]
  | matching re =>
    have hre := hi.used ht
    have heq := hre.apply_eq (s := s) junk
    cases hs
    simp only [heq]
    by_cases hc : c.cache = true
    · rw [if_pos hc]
      exact hi.calm ⟨rfl, nofun⟩ nofun (.inr (.inl rfl))
    · rw [if_neg hc]
      refine hi.calm ⟨⟨hre, rfl⟩, nofun⟩ (fun re' h => ?_) (.inr (.inl rfl))
      rw [howner]
      simpa [Pc.owned, hc] using h
  | freeing re ans =>
    cases hs
    exact hi.release howner rfl ⟨hcall.2, nofun⟩ hhold.symm
  | returned ans => cases hs

theorem CacheInv.step {a : Act T X R} (hi : CacheInv lib s)
    (hs : s.step lib a = some s') : CacheInv lib s' := by
  cases a with
  | call t c =>
    simp only [CacheSys.step] at hs
    split at hs
    · cases hs
      exact hi.calm ⟨trivial, nofun⟩ nofun (.inr (.inl rfl))
    · cases hs
      exact hi.calm ⟨trivial, nofun⟩ nofun (.inr (.inl rfl))
    · cases hs
  | go t junk =>
    simp only [CacheSys.step] at hs
    split at hs
    · cases hs
    · rename_i c pc ht
      exact hi.next ht hs

theorem CacheInv.reach {tr : List (Act T X R)}
    (hex : exec (CacheSys.step lib) .init tr = some s) : CacheInv lib s :=
  exec_inv' (fun _ _ _ hi hs => hi.step hs) .init hex

omit [DecidableEq T] [Fintype T] in
theorem CacheInv.usesLive (hi : CacheInv lib s) (a : Act T X R) : UsesLive s a := by
  cases a with
  | call t c => trivial
  | go t junk =>
    intro re hre
    cases ht : s.thr t with
    | idle =>
      rw [ht] at hre
      cases hre
    | run c pc =>
      rw [ht] at hre
      cases pc <;> cases hre
      exact (hi.used ht).1

omit [DecidableEq T] [Fintype T] in
theorem Thread.freed_owned {th : Thread X} {re : Ref} (h : th.freed = some re) :
    th.owned = some re := by
  cases th with
  | idle => cases h
  | run c pc => cases pc <;> cases h <;> rfl

omit [DecidableEq T] [Fintype T] in
theorem CacheInv.used_cases (hi : CacheInv lib s) {t : T} {re : Ref}
    (h : (s.thr t).used = some re) :
    (s.thr t).owned = some re ∨ ∃ text : CString, s.regexps.list[text]? = some re := by
  have hok := hi.threads t
  cases ht : s.thr t with
  | idle =>
    rw [ht] at h
    cases h
  | run c pc =>
    rw [ht] at h hok
    cases pc <;> cases h
    have hre := hok.1
    simp only [CallOk] at hre
    split at hre
    · exact .inr ⟨c.regexp, hre⟩
    · rename_i hc
      exact .inl (by simp [Thread.owned, Pc.owned, hc])

omit [DecidableEq T] [Fintype T] in
theorem CacheInv.freesOwn (hi : CacheInv lib s) (a : Act T X R) : FreesOwn s a := by
  cases a with
  | call t c => trivial
  | go t junk =>
    intro re hre
    have howned := Thread.freed_owned hre
    obtain ⟨text, hcomp⟩ := (hi.threads t).owned howned
    have hother : ∀ u, u ≠ t → (s.thr u).owned ≠ some re := fun u hu h =>
      hu (hi.owners u t re h howned)
    refine ⟨hcomp.1, hi.private_ t re howned, fun u hu => ⟨hother u hu, fun hused => ?_⟩⟩
    rcases hi.used_cases hused with h | ⟨text', h⟩
    · exact hother u hu h
    · exact hi.private_ t re howned text' h

/-- **The regexp cache is transparent**: every call returns what it returns with a fresh
compilation of its regexp, every compiled regexp is live when it is used, and is freed by the only
call that has it; the cache has one entry for each text, and counts them modulo 2^32. -/
theorem regexp_cache_transparent (lib : RegexpLib X R) (tr : List (Act T X R)) :
    Along (CacheSys.step lib) (fun s a => UsesLive s a ∧ FreesOwn s a) .init tr ∧
      ∀ s, exec (CacheSys.step lib) .init tr = some s →
        (∀ t c ans, s.thr t = .run c (.returned ans) → ans = lib.fresh c) ∧
        (∀ t c own, s.thr t = .run c (.inserting own) → c.regexp ∉ s.regexps.list) ∧
        (∀ text re re', (text, re) ∈ s.regexps.list.toList →
          (text, re') ∈ s.regexps.list.toList → re = re') ∧
        s.regexps.n.toNat = s.regexps.list.toList.length % 2 ^ 32 := by
  constructor
  · exact along_of_inv (I := CacheInv lib) (fun _ _ _ _ hi hs => hi.step hs)
      (fun _ a _ hi => ⟨hi.usesLive a, hi.freesOwn a⟩) (along_true _ tr) .init
  · intro s hex
    have hi := CacheInv.reach hex
    refine ⟨fun t c ans ht => ?_, fun t c own ht => ?_, fun text re re' h h' => ?_, ?_⟩
    · have hok := hi.threads t
      rw [ht] at hok
      exact hok.1
    · have hok := hi.threads t
      rw [ht] at hok
      exact not_mem_of_none hok.1.2
    · rw [Std.ExtTreeMap.mem_toList_iff_getElem?_eq_some] at h h'
      exact Option.some.inj (h.symm.trans h')
    · rw [hi.count, Std.ExtTreeMap.length_toList]
      exact UInt32.toNat_ofNat'

end Invariant

/-! ## A race, and a cache of 2^32 regexps -/

section Example

/-- Every text compiles to itself, and matches the strings that are equal to it. -/
abbrev textLib : RegexpLib Unit CString :=
  ⟨some, fun _ string re => decide (re = string), fun _ _ _ _ sub => some sub, fun _ e => some e⟩

/-- `regmatch` of the empty string. -/
abbrev matchCall (regexp : CString) : Call Unit := ⟨(), .regmatch .empty, regexp, true⟩

def steps {T : Type} (t : T) (n : Nat) : List (Act T Unit CString) :=
  List.replicate n (.go t .empty)

/-- Both threads miss and compile; the second one finds the regexp of the first one. -/
def race : List (Act (Fin 2) Unit CString) :=
  [.call 0 (matchCall .empty), .call 1 (matchCall .empty)] ++ steps 0 4 ++ steps 1 4 ++
    steps 0 5 ++ steps 1 5

theorem regexp_cache_transparent_race :
    ∃ s, exec (CacheSys.step textLib) .init race = some s ∧
      s.thr 1 = .run (matchCall .empty) (.returned (.matched true)) ∧
      Answer.matched true = textLib.fresh (matchCall .empty) ∧
      s.regexps.n.toNat = s.regexps.list.toList.length % 2 ^ 32 := by
  have hone := (regexp_cache_transparent textLib race).2
  exact ⟨_, rfl, rfl, (hone _ rfl).1 1 _ _ rfl, (hone _ rfl).2.2.2⟩

/-- The one thread is at `pc` of the call. -/
def alone (regexps : Regexps Ref) (vres : Arena CString) (c : Call Unit) (pc : Pc) :
    CacheSys Unit Unit CString :=
  ⟨regexps, vres, fun _ => .run c pc⟩

theorem exec_alone {lib : RegexpLib Unit CString} {regexps : Regexps Ref} {vres : Arena CString}
    {c : Call Unit} {pc : Pc} {s' : CacheSys Unit Unit CString} {n : Nat}
    (h : (alone regexps vres c pc).next lib () c .empty pc = some s') :
    exec (CacheSys.step lib) (alone regexps vres c pc) (steps () (n + 1)) =
      exec (CacheSys.step lib) s' (steps () n) :=
  congrArg (fun o => o.bind fun s => exec (CacheSys.step lib) s (steps () n)) h

theorem goto_alone {regexps : Regexps Ref} {vres : Arena CString} {f : Unit → Thread Unit}
    (c : Call Unit) (pc : Pc) :
    CacheSys.goto ⟨regexps, vres, f⟩ () c pc = alone regexps vres c pc := by
  simp only [CacheSys.goto, alone, CacheSys.mk.injEq, true_and]
  funext u
  exact Function.update_self ..

theorem acquire_alone {regexps : Regexps Ref} {vres : Arena CString} {c : Call Unit} {pc : Pc}
    (m : Mode) (pc' : Pc) (hpc : pc.hold = none) :
    (alone regexps vres c pc).acquire () c m pc' = some (alone regexps vres c pc') := by
  have hfree : RwLock.Free (fun u => ((alone regexps vres c pc).thr u).hold) m :=
    fun _ => .inl hpc
  rw [CacheSys.acquire, if_pos hfree, alone, goto_alone]

/-- One call with a regexp that is not in the cache, from its start to its end. -/
theorem cache_one {s : CacheSys Unit Unit CString} {text : CString}
    (hidle : s.thr () = .idle ∨ ∃ c ans, s.thr () = .run c (.returned ans))
    (hnew : text ∉ s.regexps.list) :
    ∃ s', exec (CacheSys.step textLib) s (.call () (matchCall text) :: steps () 9) = some s' ∧
      s'.regexps = ⟨s.regexps.n + 1, s.regexps.list.insert text s.vres.size⟩ ∧
      ∃ c ans, s'.thr () = .run c (.returned ans) := by
  obtain ⟨regexps, vres, thr⟩ := s
  let c := matchCall text
  have hnone : regexps.list[text]? = none := Std.ExtTreeMap.getElem?_eq_none hnew
  have hcall : CacheSys.step textLib ⟨regexps, vres, thr⟩ (.call () c) =
      some (alone regexps vres c .start) := by
    rcases hidle with h | ⟨c', ans, h⟩ <;>
      · simp only at h
        simp only [CacheSys.step, h, goto_alone]
  let regexps' : Regexps Ref := ⟨regexps.n + 1, regexps.list.insert text vres.size⟩
  let vres' := vres.alloc text
  let re := vres.size
  -- the search misses, and the call compiles without the lock
  have hstart : (alone regexps vres c .start).next textLib () c .empty .start =
      some (alone regexps vres c .searching) :=
    acquire_alone (c := c) .read .searching (show Pc.start.hold = none from rfl)
  have hsearch : (alone regexps vres c .searching).next textLib () c .empty .searching =
      some (alone regexps vres c (.searched none)) := by
    rw [← hnone]
    exact congrArg some (goto_alone c _)
  have hmiss : (alone regexps vres c (.searched none)).next textLib () c .empty (.searched none) =
      some (alone regexps vres c .compiling) := congrArg some (goto_alone c _)
  have hcompile : (alone regexps vres c .compiling).next textLib () c .empty .compiling =
      some (alone regexps vres' c (.caching re)) :=
    congrArg some (goto_alone (f := fun _ => .run c .compiling) c _)
  -- the lock is free again, and the text is still not in the cache
  have hlock : (alone regexps vres' c (.caching re)).next textLib () c .empty (.caching re) =
      some (alone regexps vres' c (.checking re)) :=
    acquire_alone (c := c) .write (.checking re) (show (Pc.caching re).hold = none from rfl)
  have hcheck : (alone regexps vres' c (.checking re)).next textLib () c .empty (.checking re) =
      some (alone regexps vres' c (.inserting re)) := by
    simp only [CacheSys.next, alone, c, hnone]
    exact congrArg some (goto_alone c _)
  have hinsert : (alone regexps vres' c (.inserting re)).next textLib () c .empty (.inserting re) =
      some (alone regexps' vres' c (.unlocking re)) := by
    refine (if_neg hnew).trans ?_
    exact congrArg some
      (goto_alone (f := fun _ => .run c (.inserting re)) c _)
  have hunlock : (alone regexps' vres' c (.unlocking re)).next textLib () c .empty
      (.unlocking re) = some (alone regexps' vres' c (.matching re)) :=
    congrArg some (goto_alone c _)
  have hmatch : ∃ ans, (alone regexps' vres' c (.matching re)).next textLib () c .empty
      (.matching re) = some (alone regexps' vres' c (.returned ans)) :=
    ⟨_, congrArg some (goto_alone c _)⟩
  obtain ⟨ans, hmatch⟩ := hmatch
  refine ⟨alone regexps' vres' c (.returned ans), ?_, rfl, c, ans, rfl⟩
  rw [exec, hcall, Option.bind_some, exec_alone hstart, exec_alone hsearch, exec_alone hmiss,
    exec_alone hcompile, exec_alone hlock, exec_alone hcheck, exec_alone hinsert,
    exec_alone hunlock, exec_alone hmatch]
  rfl

/-- One thread can fill the cache with any number of regexps that fits an address space. -/
theorem cache_many (k : Nat) (hk : k ≤ 2 ^ 64) :
    ∃ tr s, exec (CacheSys.step textLib) .init tr = some s ∧
      (s.thr () = .idle ∨ ∃ c ans, s.thr () = .run c (.returned ans)) ∧
      s.regexps.list.size = k ∧ ∀ text ∈ s.regexps.list, ∃ j < k, text = .binary j := by
  induction k with
  | zero => exact ⟨[], .init, rfl, .inl rfl, rfl, fun text h => by simp [CacheSys.init] at h⟩
  | succ k ih =>
    obtain ⟨tr, s, hex, hidle, hsize, hall⟩ := ih (by omega)
    have hnew : .binary k ∉ s.regexps.list := by
      intro hmem
      obtain ⟨j, hj, heq⟩ := hall _ hmem
      have := CString.binary_injective (by omega) (by omega) heq
      omega
    obtain ⟨s', hex', hregexps, hret⟩ := cache_one hidle hnew
    refine ⟨tr ++ (.call () (matchCall (.binary k)) :: steps () 9), s', ?_, .inr hret, ?_, ?_⟩
    · rw [exec_append, hex]
      exact hex'
    · rw [hregexps, Std.ExtTreeMap.size_insert, if_neg (by simpa using hnew), hsize]
    · intro text htext
      rw [hregexps, Std.ExtTreeMap.mem_insert] at htext
      rcases htext with heq | hmem
      · exact ⟨k, by omega, (Std.LawfulEqCmp.eq_of_compare heq).symm⟩
      · obtain ⟨j, hj, rfl⟩ := hall text hmem
        exact ⟨j, by omega, rfl⟩

/-- **The counter wraps**: a cache of 2^32 regexps counts none. -/
theorem regexps_counter_wraps :
    ∃ tr s, exec (CacheSys.step textLib) (.init : CacheSys Unit Unit CString) tr = some s ∧
      s.regexps.list.toList.length = 2 ^ 32 ∧ s.regexps.n = 0 := by
  obtain ⟨tr, s, hex, -, hsize, -⟩ := cache_many (2 ^ 32) (by omega)
  refine ⟨tr, s, hex, ?_, ?_⟩
  · rw [Std.ExtTreeMap.length_toList, hsize]
  · rw [(CacheInv.reach hex).count, hsize]
    rfl

end Example

end VmodCfg.Script.RegexpCache
