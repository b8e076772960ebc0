import VmodCfg.File.Dump
import VmodCfg.File.Ini
import VmodCfg.Remote.Readers

/-!
# Readers of a file

`vmod_file_get`, `vmod_file_is_set` and `vmod_file_dump` read `state.variables` while they hold
`state.rwlock` for reading: `get` finds the variable and copies its value afterwards, `dump` goes
from variable to variable. A load holds the lock for writing while it swaps the variables, and
flushes the old ones once it has released it. Here every access to the variables is an action of
its own, and an access to variables that were flushed reads whatever took their place.
-/

namespace VmodCfg.File

open Machine Remote

/-- A call of a reader; `fits` says whether `WS_Copy` of a string succeeds. -/
inductive Query where
  | get (fits : CString → Bool) (name fallback : Option CString)
  | isSet (name : Option CString)
  | dump (ctx : DumpCtx) (stream : Bool) (pre : Option CString)

inductive Reply where
  | string (result : Option CString)
  | flag (result : Bool)
  | dumped (result : Dumped)

/-- `get_variable`, `is_set_variable` and `dump_variables`, on variables that do not change. -/
def answer (vars : Variables) : Query → Reply
  | .get fits name fallback => .string ((vars.getVariable name fallback).filter fits)
  | .isSet name => .flag (vars.isSetVariable name)
  | .dump ctx stream pre => .dumped (dumpVariables vars ctx stream pre)

/-! ## One access after the other -/

/-- Where a reader stands: `found` has the variable `name`, `dumping` is at the variable number
`pos`. -/
inductive Walk where
  | start (q : Query)
  | found (fits : CString → Bool) (name : CString)
  | dumping (ctx : DumpCtx) (pre : Option CString) (pos : Nat) (i : UInt32) (s : Dump)
  | done (r : Reply)

def dumpEnd (ctx : DumpCtx) : Except Dump Dump → Dumped
  | .error s => ⟨none, s.vsb.getD ctx.body, s.stray⟩
  | .ok s => ⟨some s.text, s.vsb.getD ctx.body, if s.freeWs = 0 then s.stray + 1 else s.stray⟩

def dumpMember (pre : Option CString) (x : CString × CString) (i : UInt32) : Emit :=
  if dumpSkips pre x.1 then pure
  else
    (if 0 < i then dumpChar 44 else pure) >=> dumpString x.1 >=> dumpChar 58 >=> dumpString x.2

def dumpNext (pre : Option CString) (x : CString × CString) (i : UInt32) : UInt32 :=
  if dumpSkips pre x.1 then i else i + 1

def Walk.step (vars : Variables) : Walk → Walk
  | .start (.get fits name fallback) =>
    match name.filter fun n => (vars.findVariable n).isSome with
    | some n => .found fits n
    | none => .done (.string (fallback.filter fits))
  | .start (.isSet name) => .done (.flag (vars.isSetVariable name))
  | .start (.dump ctx stream pre) =>
    if ctx.freeWs = 0 then .done (.dumped ⟨none, ctx.body, 0⟩)
    else
      match dumpChar 123
          ⟨if stream && ctx.synth then some ctx.body else none, [], ctx.freeWs, 0⟩ with
      | .error s => .done (.dumped (dumpEnd ctx (.error s)))
      | .ok s => .dumping ctx pre 0 0 s
  | .found fits n => .done (.string ((vars.findVariable n).filter fits))
  | .dumping ctx pre pos i s =>
    match vars.toList[pos]? with
    | none => .done (.dumped (dumpEnd ctx (dumpChar 125 s)))
    | some x =>
      match dumpMember pre x i s with
      | .error s => .done (.dumped (dumpEnd ctx (.error s)))
      | .ok s => .dumping ctx pre (pos + 1) (dumpNext pre x i) s
  | .done r => .done r

/-- What the reader will return if the variables do not change. -/
def Walk.finish (vars : Variables) : Walk → Reply
  | .start q => answer vars q
  | .found fits n => .string ((vars.findVariable n).filter fits)
  | .dumping ctx pre pos i s =>
    .dumped (dumpEnd ctx ((dumpMembers pre (vars.toList.drop pos) i >=> dumpChar 125) s))
  | .done r => r

theorem dumpMembers_cons (pre : Option CString) (x : CString × CString)
    (l : List (CString × CString)) (i : UInt32) :
    dumpMembers pre (x :: l) i = (dumpMember pre x i >=> dumpMembers pre l (dumpNext pre x i)) := by
  unfold dumpMember dumpNext
  rw [dumpMembers]
  split
  · exact (pure_kleisli _).symm
  · simp only [kleisli_assoc]

theorem kleisli_error {f g : Emit} {s s' : Dump} (h : f s = .error s') :
    (f >=> g) s = .error s' := by
  show (f s).bind g = _
  rw [h]
  rfl

theorem kleisli_ok {f g : Emit} {s s' : Dump} (h : f s = .ok s') : (f >=> g) s = g s' := by
  show (f s).bind g = _
  rw [h]
  rfl

theorem dumpVariables_eq (vars : Variables) (ctx : DumpCtx) (stream : Bool)
    (pre : Option CString) (h : ctx.freeWs ≠ 0) :
    dumpVariables vars ctx stream pre = dumpEnd ctx
      ((dumpChar 123 >=> dumpMembers pre vars.toList 0 >=> dumpChar 125)
        ⟨if stream && ctx.synth then some ctx.body else none, [], ctx.freeWs, 0⟩) := by
  unfold dumpVariables
  rw [if_neg h]
  rfl

/-- **An access does not change what the reader will return.** -/
theorem Walk.finish_step (vars : Variables) (w : Walk) :
    (w.step vars).finish vars = w.finish vars := by
  cases w with
  | start q =>
    cases q with
    | get fits name fallback =>
      cases name with
      | none => rfl
      | some n =>
        cases hfind : vars.findVariable n <;>
          simp [Walk.step, Walk.finish, answer, Variables.getVariable, hfind, Option.filter]
    | isSet name => rfl
    | dump ctx stream pre =>
      simp only [Walk.step]
      split
      · rename_i hfree
        simp [Walk.finish, answer, dumpVariables, hfree]
      · rename_i hfree
        have heq := dumpVariables_eq vars ctx stream pre hfree
        rcases hs : dumpChar 123
            ⟨if stream && ctx.synth then some ctx.body else none, [], ctx.freeWs, 0⟩ with s | s
        · rw [kleisli_error hs] at heq
          simp only [Walk.finish, answer, heq]
        · rw [kleisli_ok hs] at heq
          simp only [Walk.finish, answer, heq]
          rfl
  | found fits n => rfl
  | dumping ctx pre pos i s =>
    simp only [Walk.step]
    split
    · rename_i hend
      rw [List.getElem?_eq_none_iff] at hend
      simp only [Walk.finish, List.drop_eq_nil_of_le hend, dumpMembers]
      rw [pure_kleisli]
    · rename_i x hx
      have hdrop : vars.toList.drop pos = x :: vars.toList.drop (pos + 1) := by
        obtain ⟨hlt, rfl⟩ := List.getElem?_eq_some_iff.mp hx
        exact List.drop_eq_getElem_cons hlt
      rcases hs : dumpMember pre x i s with s' | s'
      · simp only [Walk.finish, hdrop, dumpMembers_cons, kleisli_assoc, kleisli_error hs]
      · simp only [Walk.finish, hdrop, dumpMembers_cons, kleisli_assoc, kleisli_ok hs]
  | done r => rfl

/-! ## Readers and loads -/

section Defs

variable {T E : Type*} (parse : E → CString → Parsed Variables) (cfg : RemoteCfg)

/-- A file object; a lookup is atomic here, the readers below are what it stands for. -/
def fileKind : Kind E Variables Query Reply where
  parse := parse
  empty := ∅
  lookup vars q := some (answer vars q)
  fallback _ := none
  freesUnderLock := false
  copiesUnderLock := true

/-- A file object and the threads that use it; `reads t` is the variables that `t` reads, and where
it stands, while it holds the lock for reading. -/
structure FileSys (T : Type*) where
  sys : RemoteSys T Variables Query Reply
  reads : T → Option (Ref × Walk)

/-- An atomic action: one of `check_remote`, or one of a reader. An access to variables that were
flushed reads `junk`. -/
inductive FileAct (T E : Type*) where
  | remote (a : Act T E Query Reply)
  | rdlock (t : T)
  | access (t : T) (junk : Variables)
  | unlock (t : T)

namespace FileSys

def init (file : Option (List UInt8)) : FileSys T :=
  ⟨.init (fileKind parse) file, fun _ => none⟩

variable [DecidableEq T] [Fintype T] (s : FileSys T)

/-- The load of `t` succeeds, so it takes the lock for writing. -/
def takesWrlock (t : T) (e : E) : Bool :=
  match s.sys.thr t with
  | .run _ (.parsing b _) => ((s.sys.heap.bufText b).map fun txt => (parse e txt).ok).getD false
  | _ => false

/-- The action is not one of `check_remote`, or it waits for the lock. -/
def blocked : Act T E Query Reply → Bool
  | .parse t e => s.takesWrlock parse t e && !decide (∀ u, (s.reads u).isNone)
  | .look t _ =>
    match s.sys.thr t with
    | .run ⟨.get _, _, _⟩ _ => true
    | _ => false
  | .copy .. => true
  | _ => false

def vars (k : Ref) (junk : Variables) : Variables :=
  if s.sys.heap.snaps.Live k then ((s.sys.heap.snaps.val? k).map Snapshot.state).getD ∅ else junk

def step : FileAct T E → Option (FileSys T)
  | .remote a =>
    if s.blocked parse a then none
    else (Remote.step (fileKind parse) cfg s.sys a).map fun sys => { s with sys := sys }
  | .rdlock t =>
    match s.sys.thr t, s.reads t with
    | .run ⟨.get q, _, _⟩ .looking, none =>
      some { s with reads := Function.update s.reads t (some (s.sys.heap.current, .start q)) }
    | _, _ => none
  | .access t junk =>
    match s.reads t with
    | none | some (_, .done _) => none
    | some (k, w) =>
      some { s with reads := Function.update s.reads t (some (k, w.step (s.vars k junk))) }
  | .unlock t =>
    match s.sys.thr t, s.reads t with
    | .run c _, some (_, .done r) =>
      some
        { sys := s.sys.goto t c (.returned (.value (some r)))
          reads := Function.update s.reads t none }
    | _, _ => none

end FileSys

/-- The variables at `k` were made by a parse, or by `vmod_file__init`. -/
def Produced (h : Heap Variables) (k : Ref) (vars : Variables) : Prop :=
  ∃ text, h.snaps.val? k = some ⟨vars, text⟩ ∧
    ((∃ e txt, text = some txt ∧ parse e txt = .parsed vars) ∨ k = 0 ∧ vars = ∅)

/-- `v` is the answer to the call, from variables that were current during the call. -/
def Answered (h : Heap Variables) (c : Call Query) (v : Option Reply) : Prop :=
  ∃ q k vars, c.op = .get q ∧ c.since ≤ k ∧ k ≤ h.current ∧ Produced parse h k vars ∧
    v = some (answer vars q)

/-- The variables that were flushed so far. -/
def noteFlush (s : FileSys T) (a : FileAct T E) (flushed : List Ref) : List Ref :=
  match a with
  | .remote (.flush t) => (s.sys.thr t).replaced.toList ++ flushed
  | _ => flushed

end Defs

/-! ## The invariant -/

section Invariant

variable {T E : Type*} {parse : E → CString → Parsed Variables} {cfg : RemoteCfg}

/-- A reader that holds the lock reads the current variables, and will answer from them. -/
def Reading (s : RemoteSys T Variables Query Reply) (t : T) (k : Ref) (w : Walk) : Prop :=
  k = s.heap.current ∧ ∃ c q vars text, s.thr t = .run c .looking ∧ c.op = .get q ∧
    s.heap.snaps.val? k = some ⟨vars, text⟩ ∧ w.finish vars = answer vars q

/-- What a call was answered, and that no older variables become current. -/
def CallOk (parse : E → CString → Parsed Variables) (h : Heap Variables) :
    Thread Query Reply → Prop
  | .idle => True
  | .run c pc => c.since ≤ h.current ∧
    match pc with
    | .returned (.value v) => Answered parse h c v
    | _ => True

/-- What holds of the readers between any two actions. -/
structure FileInv (parse : E → CString → Parsed Variables) (s : FileSys T)
    (flushed : List Ref) : Prop where
  mem : MemInv (fileKind parse) s.sys
  replaced : ReplacedInv s.sys
  reading : ∀ t k w, s.reads t = some (k, w) → Reading s.sys t k w
  calls : ∀ t, CallOk parse s.sys.heap (s.sys.thr t)
  dead : ∀ k ∈ flushed, s.sys.heap.Dead k
  once : flushed.Nodup

theorem Produced.mono {h h' : Heap Variables} (hg : h.Grows h') {k : Ref} {vars : Variables}
    (hp : Produced parse h k vars) : Produced parse h' k vars := by
  obtain ⟨text, hval, hmade⟩ := hp
  exact ⟨text, hg.snaps k _ hval, hmade⟩

theorem Answered.mono {h h' : Heap Variables} (hg : h.Grows h') {c : Call Query}
    {v : Option Reply} (ha : Answered parse h c v) : Answered parse h' c v := by
  obtain ⟨q, k, vars, hop, hsince, hk, hp, hv⟩ := ha
  exact ⟨q, k, vars, hop, hsince, Nat.le_trans hk hg.current, hp.mono hg, hv⟩

theorem CallOk.mono {h h' : Heap Variables} (hg : h.Grows h') {th : Thread Query Reply}
    (hc : CallOk parse h th) : CallOk parse h' th := by
  cases th with
  | idle => trivial
  | run c pc =>
    refine ⟨Nat.le_trans hc.1 hg.current, ?_⟩
    cases pc with
    | returned ans =>
      cases ans with
      | value v => exact Answered.mono hg hc.2
      | _ => trivial
    | _ => trivial

theorem CallOk.quiet {h : Heap Variables} {c : Call Query} {pc : Pc Reply} (hpc : pc.Quiet)
    (hsince : c.since ≤ h.current) : CallOk parse h (.run c pc) := by
  refine ⟨hsince, ?_⟩
  cases pc with
  | returned ans =>
    cases ans with
    | value v => exact hpc.elim
    | _ => trivial
  | _ => trivial

/-- The variables that are current were made by a parse, or by `vmod_file__init`. -/
theorem produced_of_val {s : RemoteSys T Variables Query Reply} (hi : MemInv (fileKind parse) s)
    {k : Ref} {vars : Variables} {text : Option CString}
    (hval : s.heap.snaps.val? k = some ⟨vars, text⟩) : Produced parse s.heap k vars := by
  refine ⟨text, hval, ?_⟩
  rcases hi.parsed k _ hval with ⟨hk, heq⟩ | ⟨e, txt, htext, hparse⟩
  · cases heq
    exact .inr ⟨hk, rfl⟩
  · exact .inl ⟨e, txt, htext, hparse⟩

theorem FileInv.init (file : Option (List UInt8)) :
    FileInv parse (FileSys.init parse file : FileSys T) [] :=
  ⟨.init file, .init file, nofun, fun _ => trivial, nofun, List.nodup_nil⟩

variable {s : FileSys T} {flushed : List Ref}

theorem FileInv.vars_eq (hi : FileInv parse s flushed) {t : T} {k : Ref} {w : Walk}
    (hk : s.reads t = some (k, w)) {vars : Variables} {text : Option CString}
    (hval : s.sys.heap.snaps.val? k = some ⟨vars, text⟩) (junk : Variables) :
    s.vars k junk = vars := by
  have hlive : s.sys.heap.snaps.Live k := (hi.reading t k w hk).1 ▸ hi.mem.current
  simp [FileSys.vars, hlive, hval]

variable [DecidableEq T]

theorem FileInv.moveReader (hi : FileInv parse s flushed) {t : T} {k : Ref} {w : Walk}
    (hr : Reading s.sys t k w) :
    FileInv parse { s with reads := Function.update s.reads t (some (k, w)) } flushed := by
  refine ⟨hi.mem, hi.replaced, fun u k' w' hk => ?_, hi.calls, hi.dead, hi.once⟩
  by_cases hut : u = t
  · subst hut
    have heq : (k, w) = (k', w') := by simpa using hk
    cases heq
    exact hr
  · exact hi.reading u k' w' (by simpa [hut] using hk)

/-- **What a reader returns is a lookup in the current variables**: the lookup that is one action
in the other models of files. -/
theorem FileInv.unlock_looks (hi : FileInv parse s flushed) {t : T} {c : Call Query} {pc : Pc Reply}
    {k : Ref} {r : Reply} (ht : s.sys.thr t = .run c pc) (hk : s.reads t = some (k, .done r)) :
    Remote.step (fileKind parse) cfg s.sys (.look t true) =
      some (s.sys.goto t c (.returned (.value (some r)))) := by
  obtain ⟨rfl, c', q, vars, text, ht', hop, hval, hfin⟩ := hi.reading t k _ hk
  rw [ht] at ht'
  cases ht'
  have hr : r = answer vars q := hfin
  subst hr
  simp only [Remote.step, ht, hop, hval]
  rfl

theorem FileInv.unlock (hi : FileInv parse s flushed) {t : T} {c : Call Query} {pc : Pc Reply}
    {k : Ref} {r : Reply} (ht : s.sys.thr t = .run c pc) (hk : s.reads t = some (k, .done r)) :
    FileInv parse
      { sys := s.sys.goto t c (.returned (.value (some r)))
        reads := Function.update s.reads t none } flushed := by
  have hlook : Remote.step (fileKind parse) ⟨false, false, 0⟩ s.sys (.look t true) = some _ :=
    hi.unlock_looks ht hk
  obtain ⟨rfl, c', q, vars, text, ht', hop, hval, hfin⟩ := hi.reading t k _ hk
  rw [ht] at ht'
  cases ht'
  have hcall := hi.calls t
  rw [ht] at hcall
  refine ⟨hi.mem.step hlook, hi.replaced.step hi.mem hlook, fun u k' w' hk' => ?_, fun u => ?_,
    hi.dead, hi.once⟩
  · have hut : u ≠ t := by
      rintro rfl
      simp at hk'
    obtain ⟨hcur, c', q', vars', text', hu, hrest⟩ :=
      hi.reading u k' w' (by simpa [hut] using hk')
    refine ⟨hcur, c', q', vars', text', ?_, hrest⟩
    simpa [RemoteSys.goto, hut] using hu
  · refine forall_thr (p := fun _ x => CallOk parse s.sys.heap x) rfl ?_ (fun v _ => hi.calls v) u
    exact ⟨hcall.1, q, _, vars, hop, hcall.1, Nat.le_refl _, produced_of_val hi.mem hval,
      congrArg some hfin⟩

variable [Fintype T]

theorem looking_stays {a : Act T E Query Reply} {sys : RemoteSys T Variables Query Reply}
    (hb : ¬ s.blocked parse a = true)
    (hs : Remote.step (fileKind parse) cfg s.sys a = some sys) {t : T} {c : Call Query} {q : Query}
    (ht : s.sys.thr t = .run c .looking) (hop : c.op = .get q) : sys.thr t = .run c .looking := by
  obtain ⟨now, -, -, hthr⟩ | ⟨u, th, ha, hthr, -⟩ := step_trans hs
  · rw [hthr, ht]
  by_cases htu : t = u
  · subst htu
    obtain ⟨op, winner, since⟩ := c
    cases hop
    cases a with
    | clock now => cases ha
    | look t' ok =>
      cases ha
      simp [FileSys.blocked, ht] at hb
    | _ =>
      cases ha
      simp [Remote.step, ht] at hs
  · rw [hthr, Function.update_of_ne htu, ht]

theorem reading_current {a : Act T E Query Reply} {sys : RemoteSys T Variables Query Reply}
    (hb : ¬ s.blocked parse a = true)
    (hs : Remote.step (fileKind parse) cfg s.sys a = some sys) {t : T} {x : Ref × Walk}
    (ht : s.reads t = some x) : sys.heap.current = s.sys.heap.current := by
  rcases current_changes hs with hcur | ⟨u, e, c, b, isBackup, txt, vars, rfl, hu, htxt, hparse⟩
  · exact hcur
  · exfalso
    apply hb
    have hok : parse e txt = .parsed vars := hparse
    have hlock : s.takesWrlock parse u e = true := by
      simp [FileSys.takesWrlock, hu, htxt, hok, Parsed.ok]
    simpa [FileSys.blocked, hlock] using ⟨t, by simp [ht]⟩

/-- No action of `check_remote` answers a reader. -/
theorem unblocked_callOk {a : Act T E Query Reply} {sys : RemoteSys T Variables Query Reply}
    (hi : FileInv parse s flushed) (hb : ¬ s.blocked parse a = true)
    (hs : Remote.step (fileKind parse) cfg s.sys a = some sys) (t : T) :
    CallOk parse sys.heap (sys.thr t) := by
  have hg := hi.mem.grows hs
  obtain ⟨now, -, -, hthr⟩ | ⟨u, th, ha, hthr, htr⟩ := step_trans hs
  · rw [hthr]
    exact (hi.calls t).mono hg
  refine forall_thr (p := fun _ x => CallOk parse sys.heap x) hthr ?_
    (fun v _ => (hi.calls v).mono hg) t
  have hcall := (hi.calls u).mono hg
  generalize hold : s.sys.thr u = old at htr hcall
  generalize hnew : sys.heap = h' at htr hcall
  cases htr with
  | call hth => exact ⟨Nat.le_refl _, trivial⟩
  | quiet hpc hpc' hop hsince => exact CallOk.quiet hpc' (hsince ▸ hcall.1)
  | read hpc => exact ⟨hcall.1, trivial⟩
  | drop hpc => exact CallOk.quiet hpc hcall.1
  | swap htxt hp hK | swapFree htxt hp hK => exact ⟨hcall.1, trivial⟩
  | flush => exact ⟨hcall.1, trivial⟩
  | publish =>
    unfold RemoteCfg.published
    split <;> exact ⟨hcall.1, trivial⟩
  | write => exact ⟨hcall.1, trivial⟩
  | @look _ ok c q snap hop hsnap =>
    cases ha
    obtain ⟨op, winner, since⟩ := c
    cases hop
    simp [FileSys.blocked, hold] at hb
  | copy hop => exact absurd rfl hb

theorem FileInv.remote {a : Act T E Query Reply} {sys : RemoteSys T Variables Query Reply}
    (hi : FileInv parse s flushed) (hb : ¬ s.blocked parse a = true)
    (hs : Remote.step (fileKind parse) cfg s.sys a = some sys) :
    FileInv parse { s with sys := sys } (noteFlush s (.remote a) flushed) := by
  have hdead : ∀ k ∈ flushed, sys.heap.Dead k := fun k hk => (hi.dead k hk).step hs
  have hnotes : (∀ k ∈ noteFlush s (.remote a) flushed, sys.heap.Dead k) ∧
      (noteFlush s (.remote a) flushed).Nodup := by
    cases a with
    | flush t =>
      show (∀ k ∈ (s.sys.thr t).replaced.toList ++ flushed, _) ∧
        ((s.sys.thr t).replaced.toList ++ flushed).Nodup
      cases hk : (s.sys.thr t).replaced with
      | none => exact ⟨hdead, hi.once⟩
      | some old =>
        constructor
        · intro k hmem
          rcases List.mem_cons.mp hmem with rfl | hmem
          · exact hi.replaced.flush_dead hk hs
          · exact hdead k hmem
        · -- what is flushed now was not flushed before, since it is live
          refine List.nodup_cons.mpr ⟨fun hmem => ?_, hi.once⟩
          exact (hi.dead old hmem).2 (hi.replaced.live t old hk).1
    | _ => exact ⟨hdead, hi.once⟩
  refine ⟨hi.mem.step hs, hi.replaced.step hi.mem hs, fun t k w hk => ?_,
    unblocked_callOk hi hb hs, hnotes.1, hnotes.2⟩
  obtain ⟨rfl, c, q, vars, text, ht, hop, hval, hfin⟩ := hi.reading t k w hk
  exact ⟨(reading_current hb hs hk).symm, c, q, vars, text, looking_stays hb hs ht hop, hop,
    (hi.mem.grows hs).snaps _ _ hval, hfin⟩

theorem FileInv.step {s' : FileSys T} {a : FileAct T E} (hi : FileInv parse s flushed)
    (hs : s.step parse cfg a = some s') : FileInv parse s' (noteFlush s a flushed) := by
  cases a with
  | remote a =>
    simp only [FileSys.step] at hs
    split at hs
    · cases hs
    · rename_i hb
      obtain ⟨sys, hsys, rfl⟩ := Option.map_eq_some_iff.mp hs
      exact hi.remote hb hsys
  | rdlock t =>
    simp only [FileSys.step] at hs
    split at hs
    · rename_i q winner since ht hnone
      cases hs
      obtain ⟨⟨vars, text⟩, hval⟩ :=
        Option.isSome_iff_exists.mp (Arena.val?_isSome _ |>.mpr hi.mem.current.lt)
      exact hi.moveReader ⟨rfl, _, q, vars, text, ht, rfl, hval, rfl⟩
    · cases hs
  | access t junk =>
    simp only [FileSys.step] at hs
    split at hs
    · cases hs
    · cases hs
    · rename_i k w _ hk
      cases hs
      obtain ⟨hcur, c, q, vars, text, ht, hop, hval, hfin⟩ := hi.reading t k w hk
      rw [hi.vars_eq hk hval]
      refine hi.moveReader ⟨hcur, c, q, vars, text, ht, hop, hval, ?_⟩
      rw [Walk.finish_step, hfin]
  | unlock t =>
    simp only [FileSys.step] at hs
    split at hs
    · rename_i c pc k r ht hk
      cases hs
      exact hi.unlock ht hk
    · cases hs

/-- **The readers refine atomic lookups**: what a run with readers does to the object is a run in
which every lookup is one action. -/
theorem fileSys_refines {file : Option (List UInt8)} {tr : List (FileAct T E)}
    (hex : exec (FileSys.step parse cfg) (.init parse file) tr = some s) :
    ∃ tr', exec (Remote.step (fileKind parse) cfg) (.init (fileKind parse) file) tr' =
      some s.sys := by
  refine exec_refines FileSys.sys (I := fun s => ∃ flushed, FileInv parse s flushed)
    ?_ ?_ ⟨[], .init file⟩ hex
  · rintro s a s' ⟨flushed, hi⟩ hs
    exact ⟨_, hi.step hs⟩
  · rintro s a s' ⟨flushed, hi⟩ hs
    cases a with
    | remote a =>
      simp only [FileSys.step] at hs
      split at hs
      · cases hs
      · obtain ⟨sys, hsys, rfl⟩ := Option.map_eq_some_iff.mp hs
        exact .inr ⟨a, hsys⟩
    | rdlock t =>
      simp only [FileSys.step] at hs
      split at hs <;> cases hs
      exact .inl rfl
    | access t junk =>
      simp only [FileSys.step] at hs
      split at hs <;> cases hs
      exact .inl rfl
    | unlock t =>
      simp only [FileSys.step] at hs
      split at hs
      · rename_i c pc k r ht hk
        cases hs
        exact .inr ⟨.look t true, hi.unlock_looks ht hk⟩
      · cases hs

/-- **Readers see one complete snapshot**: every answer is the one from variables that a parse
made, or that the object was initialised with, and that were current during the call; no variables
are read that were flushed, and none are flushed twice. -/
theorem readers_see_one_snapshot (parse : E → CString → Parsed Variables) (cfg : RemoteCfg)
    (file : Option (List UInt8)) (tr : List (FileAct T E)) :
    Along (watched (FileSys.step parse cfg) noteFlush)
        (fun x a => ∀ t junk, a = .access t junk → ∀ k w, x.1.reads t = some (k, w) → k ∉ x.2)
        (.init parse file, []) tr ∧
      ∀ s flushed, exec (watched (FileSys.step parse cfg) noteFlush) (.init parse file, []) tr =
          some (s, flushed) →
        flushed.Nodup ∧
        ∀ t c v, s.sys.thr t = .run c (.returned (.value v)) → Answered parse s.sys.heap c v := by
  have hinit : FileInv parse (FileSys.init parse file : FileSys T) [] := .init file
  have hstep : ∀ (x : FileSys T × List Ref) (a : FileAct T E) x', FileInv parse x.1 x.2 →
      watched (FileSys.step parse cfg) noteFlush x a = some x' → FileInv parse x'.1 x'.2 := by
    rintro ⟨s, flushed⟩ a ⟨s', flushed'⟩ hi hs
    obtain ⟨hs', rfl⟩ := watched_some.1 hs
    exact hi.step hs'
  constructor
  · refine along_of_inv (I := fun x => FileInv parse x.1 x.2) (fun x a x' _ => hstep x a x') ?_
      (along_true _ tr) hinit
    rintro ⟨s, flushed⟩ a - hi t junk rfl k w hk hmem
    obtain ⟨rfl, -⟩ := hi.reading t k w hk
    exact (hi.dead _ hmem).2 hi.mem.current
  · intro s flushed hex
    have hi := exec_inv' (I := fun x : FileSys T × List Ref => FileInv parse x.1 x.2) hstep hinit hex
    refine ⟨hi.once, fun t c v ht => ?_⟩
    have hcall := hi.calls t
    rw [ht] at hcall
    exact hcall.2

end Invariant

/-! ## A load during a lookup -/

section Example

/-- INI files, and no periodic reload. -/
abbrev iniParse : Unit → CString → Parsed Variables :=
  fun _ => fileParseIni ⟨.ofBytes [58], .empty⟩

abbrev noPeriod : RemoteCfg := ⟨false, false, 0⟩

/-- A forced load, up to the parse. -/
def startLoad (contents : Option (List UInt8)) : List (FileAct (Fin 2) Unit) :=
  [.remote (.call 0 (.reload false)), .remote (.test 0), .remote (.read 0 contents)]

/-- `get("a")`, up to the first access. -/
def startGet : List (FileAct (Fin 2) Unit) :=
  [.remote (.call 1 (.get (.get (fun _ => true) (some (.ofBytes [97])) none))),
    .remote (.test 1), .rdlock 1, .access 1 ∅]

/-- The second load starts before the reader copies the value, and swaps the variables after it. -/
def loadDuringGet : List (FileAct (Fin 2) Unit) :=
  startLoad (some [97, 61, 49]) ++
    [.remote (.parse 0 ()), .remote (.flush 0), .remote (.publish 0), .remote (.finish 0)] ++
    startGet ++ startLoad (some [97, 61, 50]) ++
    [.access 1 ∅, .unlock 1, .remote (.parse 0 ()), .remote (.flush 0)]

theorem readers_see_one_snapshot_load_during_get :
    ∃ s flushed c,
      exec (watched (FileSys.step iniParse noPeriod) noteFlush) (.init iniParse none, [])
        loadDuringGet = some (s, flushed) ∧
      flushed = [1, 0] ∧ flushed.Nodup ∧
      s.sys.thr 1 = .run c (.returned (.value (some (.string (some (.ofBytes [49])))))) ∧
      Answered iniParse s.sys.heap c (some (.string (some (.ofBytes [49])))) := by
  have hone := (readers_see_one_snapshot iniParse noPeriod none loadDuringGet).2
  refine ⟨_, _, _, rfl, rfl, (hone _ _ rfl).1, rfl, (hone _ _ rfl).2 1 _ _ rfl⟩

/-- The location fails, and the object is used nevertheless. -/
def getAfterFailedLoad : List (FileAct (Fin 2) Unit) :=
  startLoad none ++ [.remote (.finish 0)] ++ startGet ++ [.unlock 1]

/-- **Before the first load that succeeds, the answers are from variables that no parse made.** -/
theorem initial_variables_answer :
    ∃ s c, exec (FileSys.step iniParse noPeriod) (.init iniParse none) getAfterFailedLoad =
        some s ∧
      s.sys.thr 1 = .run c (.returned (.value (some (.string none)))) ∧
      ¬ ∃ k vars e txt, c.since ≤ k ∧ k ≤ s.sys.heap.current ∧
        s.sys.heap.snaps.val? k = some ⟨vars, some txt⟩ ∧ iniParse e txt = .parsed vars := by
  refine ⟨_, _, rfl, rfl, ?_⟩
  rintro ⟨k, vars, e, txt, -, hk, hval, -⟩
  cases Nat.le_zero.mp hk
  cases hval

end Example

end VmodCfg.File
