import VmodCfg.Remote.Readers
import VmodCfg.Rules.Parse

/-!
# `vmod_rules_get`

The lookup walks the list under the read lock and remembers the value of the
rule that matched, but copies it to the workspace after it released the lock.
`rules_check_callback` flushes the replaced list as soon as it released the
write lock. In between the value may be gone.
-/

namespace VmodCfg.Rules

open Machine Remote

structure GetArgs where
  value : Option CString
  fallback : Option CString
  deriving DecidableEq

section Defs

variable {V : Type*} (vreCompile : CString → Option V) (reMatch : Option CString → V → Bool)

/-- What `rules_check_callback` and `vmod_rules_get` plug into `check_remote`. The parser puts the
contents back (`rulesParse_buffer`), so a parsed state is a function of the text. -/
def rulesKind : Kind Unit (List (Rule V)) GetArgs CString where
  parse _ txt :=
    match (rulesParse vreCompile (txt.bytes ++ [0])).1 with
    | .ok rules => .parsed rules
    | .error _ => .failed
  empty := []
  lookup rules q := firstMatch reMatch rules q.value
  fallback q := q.fallback
  freesUnderLock := false
  copiesUnderLock := false

/-- What `vmod_rules_get` may return: NULL, the fallback, or the value of the first rule that
matches in a list that was current during the call. -/
def Answered (h : Heap (List (Rule V))) (c : Call GetArgs) (v : Option CString) : Prop :=
  ∀ a, v = some a → ∃ q, c.op = .get q ∧
    (q.fallback = some a ∨ ∃ k snap, c.since ≤ k ∧ k ≤ h.current ∧ h.snaps.val? k = some snap ∧
      firstMatch reMatch snap.state q.value = some a)

end Defs

variable {V T : Type*} {vreCompile : CString → Option V} {reMatch : Option CString → V → Bool}
variable {cfg : RemoteCfg} {s : RemoteSys T (List (Rule V)) GetArgs CString}

theorem answered_of_answers {c : Call GetArgs} {v : Option CString} {h : Heap (List (Rule V))}
    (hv : ∀ a, v = some a → (rulesKind vreCompile reMatch).Answers h c a) :
    Answered reMatch h c v := by
  intro a ha
  obtain ⟨q, hop, hf⟩ | ⟨k, hsince, hcur, q, snap, hop, hk, hl⟩ := hv a ha
  · exact ⟨q, hop, .inl hf⟩
  · exact ⟨q, hop, .inr ⟨k, snap, hsince, hcur, hk, hl⟩⟩

variable [DecidableEq T]

/-- **Snapshot safety of the lookups**, in the runs where no list is flushed while a thread is
about to copy a value of it. -/
theorem get_snapshot_safe {file : Option (List UInt8)}
    {tr : List (Act T Unit GetArgs CString)}
    (hok : Along (step (rulesKind vreCompile reMatch) cfg) FlushAfterCopies
      (.init (rulesKind vreCompile reMatch) file) tr) :
    Along (step (rulesKind vreCompile reMatch) cfg) CopiesLive
        (.init (rulesKind vreCompile reMatch) file) tr ∧
      ∀ s, exec (step (rulesKind vreCompile reMatch) cfg)
          (.init (rulesKind vreCompile reMatch) file) tr = some s →
        ∀ t c v, s.thr t = .run c (.returned (.value v)) → Answered reMatch s.heap c v := by
  have hstep : ∀ (s : RemoteSys T (List (Rule V)) GetArgs CString) a s', FlushAfterCopies s a →
      MemInv (rulesKind vreCompile reMatch) s ∧ ReaderInv (rulesKind vreCompile reMatch) s →
      step (rulesKind vreCompile reMatch) cfg s a = some s' →
      MemInv (rulesKind vreCompile reMatch) s' ∧ ReaderInv (rulesKind vreCompile reMatch) s' :=
    fun s a s' hf hi hs => ⟨hi.1.step hs, hi.2.step rfl hf hi.1 hs⟩
  refine ⟨along_of_inv hstep (fun s a _ hi => hi.2.copiesLive a) hok ⟨.init file, .init file⟩, ?_⟩
  intro s hex t c v ht
  have hr := (exec_inv hstep hok ⟨.init file, .init file⟩ hex).2 t
  rw [ht] at hr
  exact answered_of_answers hr.2

/-! ## Literal expressions

A regexp of letters and digits compiles, and matches the strings it occurs in. -/

def literal (re : CString) : Option CString :=
  if re.bytes.all (fun c => (48 ≤ c && c ≤ 57) || (65 ≤ c && c ≤ 90) || (97 ≤ c && c ≤ 122)) then
    some re
  else none

def occurs (value : Option CString) (re : CString) : Bool :=
  (Buffer.findSub re.bytes ((value.map CString.bytes).getD [])).isSome

/-- Two threads; no backup, and no periodic reload. -/
abbrev run2 (tr : List (Act (Fin 2) Unit GetArgs CString)) :
    Option (RemoteSys (Fin 2) (List (Rule CString)) GetArgs CString) :=
  exec (step (rulesKind literal occurs) ⟨false, false, 0⟩) (.init (rulesKind literal occurs) none) tr

/-- A forced load of the bytes, up to the swap of the lists. -/
def loadSwap (t : Fin 2) (bytes : List UInt8) : List (Act (Fin 2) Unit GetArgs CString) :=
  [.call t (.reload false), .test t, .read t (some bytes), .parse t ()]

def loadEnd (t : Fin 2) : List (Act (Fin 2) Unit GetArgs CString) :=
  [.flush t, .publish t, .finish t]

def getFind (t : Fin 2) : List (Act (Fin 2) Unit GetArgs CString) :=
  [.call t (.get ⟨some (.ofBytes [97]), some .empty⟩), .test t, .look t true]

/-- Copying after the flush of the next load: "a->b" is replaced by "a->c". -/
def copyAfterFlush (junk : CString) : List (Act (Fin 2) Unit GetArgs CString) :=
  loadSwap 0 [97, 45, 62, 98] ++ loadEnd 0 ++ getFind 1 ++ loadSwap 0 [97, 45, 62, 99] ++
    loadEnd 0 ++ [.copy 1 true junk]

/-- Copying before it. -/
def copyBeforeFlush : List (Act (Fin 2) Unit GetArgs CString) :=
  loadSwap 0 [97, 45, 62, 98] ++ loadEnd 0 ++ getFind 1 ++ loadSwap 0 [97, 45, 62, 99] ++
    [.copy 1 true .empty] ++ loadEnd 0

theorem get_snapshot_safe_copy_before_flush :
    ∃ s, run2 copyBeforeFlush = some s ∧
      s.thr 1 = .run ⟨.get ⟨some (.ofBytes [97]), some .empty⟩, false, 1⟩
        (.returned (.value (some (.ofBytes [98])))) ∧
      Answered occurs s.heap ⟨.get ⟨some (.ofBytes [97]), some .empty⟩, false, 1⟩
        (some (.ofBytes [98])) := by
  have hrun : (run2 copyBeforeFlush).map (fun s => s.thr 1) =
      some (.run ⟨.get ⟨some (.ofBytes [97]), some .empty⟩, false, 1⟩
        (.returned (.value (some (.ofBytes [98]))))) := by decide
  obtain ⟨s, hs, ht⟩ := Option.map_eq_some_iff.mp hrun
  exact ⟨s, hs, ht, (get_snapshot_safe (by decide)).2 s hs 1 _ _ ht⟩

/-- **The value is freed before it is copied**: the call returns whatever is in its place. -/
theorem get_copies_freed_value :
    ¬ Along (step (rulesKind literal occurs) ⟨false, false, 0⟩) CopiesLive
        (.init (rulesKind literal occurs) none) (copyAfterFlush (.ofBytes [63])) ∧
      ∃ s, run2 (copyAfterFlush (.ofBytes [63])) = some s ∧
        s.thr 1 = .run ⟨.get ⟨some (.ofBytes [97]), some .empty⟩, false, 1⟩
          (.returned (.value (some (.ofBytes [63])))) ∧
        s.heap.snaps.cells.map (fun x => x.val.state.map Rule.value) =
          [[], [.ofBytes [98]], [.ofBytes [99]]] := by
  have hrun : (run2 (copyAfterFlush (.ofBytes [63]))).map (fun s => (s.thr 1,
      s.heap.snaps.cells.map fun x => x.val.state.map Rule.value)) =
      some (.run ⟨.get ⟨some (.ofBytes [97]), some .empty⟩, false, 1⟩
        (.returned (.value (some (.ofBytes [63])))), [[], [.ofBytes [98]], [.ofBytes [99]]]) := by
    decide
  obtain ⟨s, hs, ht⟩ := Option.map_eq_some_iff.mp hrun
  exact ⟨by decide, s, hs, congrArg Prod.fst ht, congrArg Prod.snd ht⟩

end VmodCfg.Rules
