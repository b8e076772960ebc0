import VmodCfg.Lib.Arena
import VmodCfg.Lib.CString
import VmodCfg.Lib.Machine

/-!
# Threads over one remote

Any number of threads call the methods of one object with a remote location:
`reload` (a forced load), `inspect` and the lookups (which first run
`check_remote` without force). An action is one critical section (under
`remote->state.mutex` or under the lock of the object), one access to the
location or to the backup file, or one unlocked stretch of code that uses what
other threads may free: the flush of the replaced state, and the copy of the
value that was found.

What the kinds of object (INI file, JSON file, rules, script) do differently is
a `Kind`. Contents buffers and parsed states live in arenas, so that a freed one
can still be spoken of. `since`, and the text kept in a `Snapshot`, are
bookkeeping: no action reads them.
-/

namespace VmodCfg.Remote

/-- What a parser makes of a text; after a failed assertion there is no process left. -/
inductive Parsed (P : Type*) where
  | panic
  | failed
  | parsed (p : P)
  deriving DecidableEq

/-- The callback publishes what was parsed, and succeeds. -/
def Parsed.ok {P : Type*} : Parsed P → Bool
  | .parsed _ => true
  | _ => false

/-- A kind of object: its parser (`E` is what the outcome depends on besides the text), the
state before the first load, and how an operation is answered. -/
structure Kind (E P Q A : Type*) where
  parse : E → CString → Parsed P
  empty : P
  lookup : P → Q → Option A
  fallback : Q → Option A
  /-- The replaced state is freed before the lock is released. -/
  freesUnderLock : Bool
  /-- The answer is copied to the workspace before the lock is released. -/
  copiesUnderLock : Bool

structure RemoteCfg where
  backup : Bool
  automatedBackups : Bool
  period : UInt32

/-- The methods that call `check_remote`. -/
inductive Op (Q : Type*) where
  | reload (forceBackup : Bool)
  | inspect
  | get (q : Q)
  deriving DecidableEq

def Op.force {Q : Type*} : Op Q → Bool
  | .reload _ => true
  | _ => false

def Op.forceBackup {Q : Type*} : Op Q → Bool
  | .reload f => f
  | _ => false

inductive Answer (A : Type*) where
  | checked (result : Bool)
  | contents (text : Option CString)
  | value (v : Option A)
  deriving DecidableEq

/-- A call: its operation, `winner`, and the parsed state that was current when it started. -/
structure Call (Q : Type*) where
  op : Op Q
  winner : Bool
  since : Ref
  deriving DecidableEq

/-- Where a call stands. `b` is the local `contents`, `k` the state it was parsed to. -/
inductive Pc (A : Type*) where
  | testing (now : Int)
  | claiming
  | reading
  | parsing (b : Ref) (isBackup : Bool)
  | flushing (b k old : Ref) (isBackup : Bool)
  | publishing (b k : Ref) (isBackup : Bool)
  | writing (b k : Ref)
  | failing
  | finishing (result : Bool)
  | looking
  | copying (found : Option (Ref × A))
  | returned (ans : Answer A)
  deriving DecidableEq

inductive Thread (Q A : Type*) where
  | idle
  | run (c : Call Q) (pc : Pc A)
  deriving DecidableEq

/-- A parsed state, and the text it was parsed from. -/
structure Snapshot (P : Type*) where
  state : P
  text : Option CString
  deriving DecidableEq

inductive WriteResult where
  | openFailed
  | wrote (n : Nat) (junk : List UInt8)
  deriving DecidableEq

/-- What the threads share besides the control words: `state.contents`, the parsed state, the
memory behind them and the backup file. -/
structure Heap (P : Type*) where
  contents : Option Ref
  bufs : Arena CString
  current : Ref
  snaps : Arena (Snapshot P)
  file : Option (List UInt8)

namespace Heap

variable {P : Type*} (h : Heap P)

def init (empty : P) (file : Option (List UInt8)) : Heap P :=
  ⟨none, ⟨[]⟩, 0, Arena.alloc ⟨[]⟩ ⟨empty, none⟩, file⟩

def malloc (txt : CString) : Heap P := { h with bufs := h.bufs.alloc txt }

def free (b : Ref) : Heap P := { h with bufs := h.bufs.free b }

def swap (p : P) (txt : CString) : Heap P :=
  { h with
    snaps := h.snaps.alloc ⟨p, some txt⟩
    current := h.snaps.size }

def flush (old : Ref) : Heap P := { h with snaps := h.snaps.free old }

def publish (b : Ref) : Heap P :=
  { h with
    bufs := h.bufs.free? h.contents
    contents := some b }

def fputs (b : Ref) (junk : List UInt8) : List UInt8 :=
  if h.bufs.Live b then ((h.bufs.val? b).map CString.bytes).getD [] else junk

def write (b : Ref) : WriteResult → Heap P
  | .openFailed => h
  | .wrote n junk => { h with file := some ((h.fputs b junk).take n) }

def bufText (b : Ref) : Option CString := h.bufs.val? b

def snapText (k : Ref) : Option CString := (h.snaps.val? k).bind Snapshot.text

def contentsText : Option CString := h.contents.bind h.bufText

def fileText : Option CString := h.file.map CString.ofBytes

end Heap

structure RemoteSys (T P Q A : Type*) where
  clock : Int
  tst : Int
  reloading : Bool
  heap : Heap P
  thr : T → Thread Q A

inductive Act (T E Q A : Type*) where
  | clock (now : Int)
  | call (t : T) (op : Op Q)
  | test (t : T)
  | claim (t : T)
  | read (t : T) (contents : Option (List UInt8))
  | parse (t : T) (e : E)
  | flush (t : T)
  | publish (t : T)
  | write (t : T) (r : WriteResult)
  | readBackup (t : T) (ok : Bool)
  | finish (t : T)
  | look (t : T) (ok : Bool)
  | copy (t : T) (ok : Bool) (junk : A)

def Act.thread {T E Q A : Type*} : Act T E Q A → Option T
  | .clock _ => none
  | .call t _ | .test t | .claim t | .read t _ | .parse t _ | .flush t | .publish t | .write t _
  | .readBackup t _ | .finish t | .look t _ | .copy t _ _ => some t

section Defs

variable {T E P Q A : Type*} [DecidableEq T] (K : Kind E P Q A) (cfg : RemoteCfg)
variable (s : RemoteSys T P Q A)

def RemoteSys.init (file : Option (List UInt8)) : RemoteSys T P Q A :=
  ⟨0, 0, false, .init K.empty file, fun _ => .idle⟩

def RemoteSys.goto (t : T) (c : Call Q) (pc : Pc A) : RemoteSys T P Q A :=
  { s with thr := Function.update s.thr t (.run c pc) }

/-- `check_remote` returned `result`. -/
def Call.checked (c : Call Q) (result : Bool) : Pc A :=
  match c.op with
  | .reload _ => .returned (.checked result)
  | _ => .looking

/-- The location failed: go on with the backup, if there is one. -/
def RemoteCfg.failed : Pc A := if cfg.backup then .failing else .finishing false

/-- The contents are published: go on with the update of the backup, if there is one. -/
def RemoteCfg.published (c : Call Q) (b k : Ref) (isBackup : Bool) : Pc A :=
  if !isBackup && cfg.backup && (cfg.automatedBackups || c.op.forceBackup) then .writing b k
  else .finishing true

/-- The string that the method returns for what it found. -/
def Kind.copy (h : Heap P) (q : Q) (found : Option (Ref × A)) (ok : Bool) (junk : A) : Option A :=
  if ok then
    match found with
    | some (k, a) => some (if h.snaps.Live k then a else junk)
    | none => K.fallback q
  else none

/-- The lookup in the current state, under the lock. -/
def Kind.look (h : Heap P) (p : P) (q : Q) (ok : Bool) : Pc A :=
  let found := K.lookup p q
  if K.copiesUnderLock then
    .returned (.value (if ok then found.or (K.fallback q) else none))
  else .copying (found.map fun a => (h.current, a))

def step : Act T E Q A → Option (RemoteSys T P Q A)
  | .clock now => some { s with clock := now }
  | .call t op =>
    match s.thr t with
    | .idle | .run _ (.returned _) =>
      some (s.goto t ⟨op, false, s.heap.current⟩ (.testing s.clock))
    | _ => none
  | .test t =>
    match s.thr t with
    | .run c (.testing now) =>
      if c.op.force then some (s.goto t c .reading)
      else if !s.reloading ∧ 0 < cfg.period ∧ (cfg.period.toNat : Int) < now - s.tst then
        some (s.goto t c .claiming)
      else some (s.goto t c (c.checked true))
    | _ => none
  | .claim t =>
    match s.thr t with
    | .run c .claiming =>
      if s.reloading then some (s.goto t c (c.checked true))
      else some { s.goto t { c with winner := true } .reading with reloading := true }
    | _ => none
  | .read t contents =>
    match s.thr t with
    | .run c .reading =>
      match contents.map CString.ofBytes with
      | none => some (s.goto t c cfg.failed)
      | some txt =>
        if txt.bytes = [] then some (s.goto t c cfg.failed)
        else some { s.goto t c (.parsing s.heap.bufs.size false) with heap := s.heap.malloc txt }
    | _ => none
  | .parse t e =>
    match s.thr t with
    | .run c (.parsing b isBackup) =>
      match s.heap.bufText b with
      | none => none
      | some txt =>
        match K.parse e txt with
        | .panic => none
        | .failed =>
          some { s.goto t c (if isBackup then .finishing false else cfg.failed) with
            heap := s.heap.free b }
        | .parsed p =>
          if K.freesUnderLock then
            some { s.goto t c (.publishing b s.heap.snaps.size isBackup) with
              heap := (s.heap.swap p txt).flush s.heap.current }
          else
            some { s.goto t c (.flushing b s.heap.snaps.size s.heap.current isBackup) with
              heap := s.heap.swap p txt }
    | _ => none
  | .flush t =>
    match s.thr t with
    | .run c (.flushing b k old isBackup) =>
      some { s.goto t c (.publishing b k isBackup) with heap := s.heap.flush old }
    | _ => none
  | .publish t =>
    match s.thr t with
    | .run c (.publishing b k isBackup) =>
      some { s.goto t c (cfg.published c b k isBackup) with heap := s.heap.publish b }
    | _ => none
  | .write t r =>
    match s.thr t with
    | .run c (.writing b _) =>
      some { s.goto t c (.finishing true) with heap := s.heap.write b r }
    | _ => none
  | .readBackup t ok =>
    match s.thr t with
    | .run c .failing =>
      match s.heap.fileText with
      | none => some (s.goto t c (.finishing false))
      | some txt =>
        if ok = false ∨ txt.bytes = [] then some (s.goto t c (.finishing false))
        else some { s.goto t c (.parsing s.heap.bufs.size true) with heap := s.heap.malloc txt }
    | _ => none
  | .finish t =>
    match s.thr t with
    | .run c (.finishing result) =>
      some { s.goto t c (c.checked result) with
        tst := if result then s.clock else s.tst
        reloading := if c.winner then false else s.reloading }
    | _ => none
  | .look t ok =>
    match s.thr t with
    | .run c .looking =>
      match c.op, s.heap.snaps.val? s.heap.current with
      | .inspect, _ => some (s.goto t c (.returned (.contents s.heap.contentsText)))
      | .get q, some snap => some (s.goto t c (K.look s.heap snap.state q ok))
      | _, _ => none
    | _ => none
  | .copy t ok junk =>
    match s.thr t with
    | .run c (.copying found) =>
      match c.op with
      | .get q => some (s.goto t c (.returned (.value (K.copy s.heap q found ok junk))))
      | _ => none
    | _ => none

end Defs

end VmodCfg.Remote
