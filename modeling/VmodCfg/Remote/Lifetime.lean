import Mathlib.Tactic.Abel
import VmodCfg.Lib.Blocks
import VmodCfg.Remote.Refresh

/-!
# The memory of a remote, from `new_remote` to `free_remote`

The object, its strings and the contents as blocks of bytes, and the functions
of remote.c as programs over them, with curl and the files as parameters. A
program that reads or frees what is gone, or writes past the end of a block,
fails; so `lifetime_spec` says that no object ever does, that all the memory is
given back but the name of the backup, and that what it replies is what
`checkRemote` says, however curl cuts the body.
-/

namespace VmodCfg.Remote

open Blocks

structure Settings where
  location : CString
  backup : Option CString
  automatedBackups : Bool
  period : UInt32
  connectionTimeout : UInt32
  transferTimeout : UInt32
  sslVerifyPeer : Bool
  sslVerifyHost : Bool
  sslCafile : Option CString
  sslCapath : Option CString
  proxy : Option CString

inductive Transport where
  | path
  | url
  deriving DecidableEq

def locate (location : CString) : Transport × CString :=
  let rest (offset : Nat) := CString.ofBytes (location.bytes.drop offset)
  if location.strncmp (.ofString "file://") 7 = .eq then (.path, rest 7)
  else if location.strncmp (.ofString "http://") 7 = .eq then (.url, rest 7)
  else if location.strncmp (.ofString "https://") 8 = .eq then (.url, rest 0)
  else (.path, rest 0)

def nonempty (s : Option CString) : Option CString := s.filter fun s => s.bytes != []

structure Request where
  url : CString
  connecttimeoutMs : Option UInt32
  timeoutMs : Option UInt32
  sslVerifypeer : Bool
  sslVerifyhost : Bool
  cainfo : Option CString
  capath : Option CString
  proxy : Option CString

/-- The blocks of the body as curl hands them over, whether it is `CURLE_OK`, and the status. -/
structure Transfer where
  blocks : List (List UInt8)
  ok : Bool
  status : Int

/-- A file that was opened: its size by `ftell` (-1 where there is none), what there is to read, and
whether `malloc` gives a block for so much. That of a directory can be larger than any memory. -/
structure OpenFile where
  size : Option Nat
  bytes : List UInt8
  fits : Bool

/-- `ftell` gives a size, and there is memory for it, as for a regular file. -/
def OpenFile.Regular (f : OpenFile) : Prop := f.size.isSome ∧ f.fits = true

instance (f : OpenFile) : Decidable f.Regular := inferInstanceAs (Decidable (_ ∧ _))

def OpenFile.fsize (f : OpenFile) : Nat := f.size.getD (2 ^ 64 - 1)

/-- `fsize + 1`, which is 0 for -1 -/
def OpenFile.room (f : OpenFile) : Nat := f.size.elim 0 (· + 1)

structure Outside where
  file : CString → Option OpenFile
  fetch : Request → Transfer
  now : Int
  later : Int
  claimed : Bool
  write : WriteResult

/-- `HTTP/1.1 200 OK`, and the transfer is complete. -/
def Transfer.contents (t : Transfer) : Option (List UInt8) :=
  if t.ok ∧ t.status = 200 then some t.blocks.flatten else none

/-- The bytes of the file, if they are all there. -/
def OpenFile.contents (f : OpenFile) : Option (List UInt8) :=
  if f.fsize ≤ f.bytes.length then some (f.bytes.take f.fsize) else none

def BackupFile.open? (f : BackupFile) : Option OpenFile :=
  if f.readable then some ⟨some f.bytes.length, f.bytes, true⟩ else none

namespace Settings

variable (set : Settings)

def cfg : RemoteCfg := ⟨(nonempty set.backup).isSome, set.automatedBackups, set.period⟩

def timeout (ms : UInt32) : Option UInt32 := if 0 < ms then some ms else none

def request : Request where
  url := (locate set.location).2
  connecttimeoutMs := timeout set.connectionTimeout
  timeoutMs := timeout set.transferTimeout
  sslVerifypeer := set.sslVerifyPeer
  sslVerifyhost := set.sslVerifyHost
  cainfo := nonempty set.sslCafile
  capath := nonempty set.sslCapath
  proxy := nonempty set.proxy

def contents (w : Outside) : Option (List UInt8) :=
  match locate set.location with
  | (.path, file) => (w.file file).bind OpenFile.contents
  | (.url, _) => (w.fetch set.request).contents

def inputs (w : Outside) : Inputs := ⟨set.contents w, w.now, w.later, w.claimed, w.write⟩

/-- The location is no path, or there is no such file, or it is a regular one. -/
def Regular (w : Outside) : Prop :=
  ∀ file, locate set.location = (.path, file) → ∀ f ∈ w.file file, f.Regular

end Settings

inductive Use where
  | check (forceLoad forceBackup : Bool)
  | inspect (synth : Bool)

inductive Reply where
  | checked (result : Bool)
  | inspected (contents : Option CString)
  deriving DecidableEq

section Abstract

variable {σ : Type} (callback : Callback σ) (set : Settings)

def ObjState.init (object : σ) (backup : Option BackupFile) : ObjState σ :=
  ⟨0, false, none, object, backup, []⟩

def use (s : ObjState σ) (w : Outside) : Use → Option (Reply × ObjState σ)
  | .check forceLoad forceBackup =>
    (checkRemote set.cfg (set.inputs w) callback s forceLoad forceBackup).map fun x =>
      (.checked x.1, x.2)
  | .inspect synth => some (.inspected (inspectRemote s synth), s)

def uses (s : ObjState σ) : List (Outside × Use) → Option (List Reply × ObjState σ)
  | [] => some ([], s)
  | (w, u) :: l =>
    match use callback set s w u with
    | none => none
    | some (a, s) => (uses s l).map fun x => (a :: x.1, x.2)

end Abstract

namespace Mem

structure Object where
  self : Ref
  raw : Ref
  parsed : Ref
  backup : Option Ref
  automatedBackups : Bool
  period : UInt32
  connectionTimeout : UInt32
  transferTimeout : UInt32
  sslVerifyPeer : Bool
  sslVerifyHost : Bool
  sslCafile : Option Ref
  sslCapath : Option Ref
  proxy : Option Ref
  read : Transport

structure State (σ : Type) where
  tst : Int
  reloading : Bool
  contents : Option Ref
  object : σ
  backup : Option BackupFile

/-! ## `new_remote` and `free_remote` -/

def setOptionalString (s : Option CString) : Prog (Option Ref) :=
  match nonempty s with
  | none => return none
  | some s => do return some (← strdup s)

def newRemote (set : Settings) : Prog Object := do
  let self ← alloc []
  let raw ← strdup set.location
  let (transport, rest) := locate set.location
  let parsed ← strdup rest
  let backup ← setOptionalString set.backup
  let sslCafile ← setOptionalString set.sslCafile
  let sslCapath ← setOptionalString set.sslCapath
  let proxy ← setOptionalString set.proxy
  return {
    self, raw, parsed, backup, sslCafile, sslCapath, proxy
    read := transport
    automatedBackups := set.automatedBackups
    period := set.period
    connectionTimeout := set.connectionTimeout
    transferTimeout := set.transferTimeout
    sslVerifyPeer := set.sslVerifyPeer
    sslVerifyHost := set.sslVerifyHost }

/-- `free_remote`: `remote->backup` is only set to NULL. -/
def freeRemote (remote : Object) (contents : Option Ref) : Prog Unit := do
  free (some remote.raw)
  free (some remote.parsed)
  free remote.sslCafile
  free remote.sslCapath
  free remote.proxy
  free contents
  free (some remote.self)

/-! ## Reading -/

section Defs

variable (junk : Nat → UInt8)

def readFile (file : Option OpenFile) : Prog (Option Ref) :=
  match file with
  | none => return none
  | some bf =>
    if bf.fits then do
      let result ← malloc junk bf.room
      let items := bf.bytes.take bf.fsize
      write result 0 items
      write result bf.fsize [0]
      if items.length ≠ bf.fsize then
        free (some result)
        return none
      else
        return some result
    else
      -- `AN(result)`
      failure

structure ReadUrlCtx where
  body : Ref
  bodylen : Nat

def readUrlBody (ctx : ReadUrlCtx) (block : List UInt8) : Prog ReadUrlCtx := do
  let body ← realloc junk ctx.body (ctx.bodylen + block.length + 1)
  write body ctx.bodylen block
  let bodylen := ctx.bodylen + block.length
  write body bodylen [0]
  return ⟨body, bodylen⟩

def optionalString : Option Ref → Prog (Option CString)
  | none => return none
  | some r => do return some (← string r)

def readUrl (remote : Object) (w : Outside) : Prog (Option Ref) := do
  let body ← strdup .empty
  let url ← string remote.parsed
  let cainfo ← optionalString remote.sslCafile
  let capath ← optionalString remote.sslCapath
  let proxy ← optionalString remote.proxy
  let t := w.fetch {
    url, cainfo, capath, proxy
    connecttimeoutMs := Settings.timeout remote.connectionTimeout
    timeoutMs := Settings.timeout remote.transferTimeout
    sslVerifypeer := remote.sslVerifyPeer
    sslVerifyhost := remote.sslVerifyHost }
  let ctx ← t.blocks.foldlM (readUrlBody junk) ⟨body, 0⟩
  if t.ok ∧ t.status = 200 then
    return some ctx.body
  else
    free (some ctx.body)
    return none

def readPath (remote : Object) (w : Outside) : Prog (Option Ref) := do
  let file ← string remote.parsed
  readFile junk (w.file file)

def read (remote : Object) (w : Outside) : Prog (Option Ref) :=
  match remote.read with
  | .path => readPath junk remote w
  | .url => readUrl junk remote w

/-! ## `check_remote` -/

variable {σ : Type} (callback : Callback σ) (remote : Object) (w : Outside)

/-- Hand the contents to the callback, and publish them or free them. -/
def tryContents (x : State σ) (isBackup : Bool) (contents : Option Ref) : Prog (Bool × State σ) :=
  match contents with
  | none => return (false, x)
  | some r => do
    let c ← string r
    if c.bytes = [] then
      free (some r)
      return (false, x)
    else
      match callback x.object c isBackup with
      | none => failure
      | some (result, object, c) =>
        write r 0 c.bytes
        if result then
          free x.contents
          return (true, { x with object := object, contents := some r })
        else
          free (some r)
          return (false, { x with object := object })

def checkRemoteBackup (x : State σ) (name : Ref) : Prog (Bool × State σ) := do
  let _ ← string name
  let contents ← readFile junk (x.backup.bind BackupFile.open?)
  tryContents callback x true contents

/-- The update of the backup file, after the contents were published. -/
def updateBackup (x : State σ) (forceBackup : Bool) : Prog (State σ) :=
  match remote.backup with
  | none => return x
  | some name =>
    if remote.automatedBackups || forceBackup then do
      let _ ← string name
      match w.write, x.contents with
      | .wrote n _, some r =>
        let c ← string r
        let readable := (x.backup.map BackupFile.readable).getD true
        return { x with backup := some ⟨c.bytes.take n, readable⟩ }
      | _, _ => return x
    else
      return x

/-- The part of `check_remote` between the two critical sections. -/
def loadRemote (x : State σ) (forceBackup : Bool) : Prog (Bool × State σ) := do
  let contents ← read junk remote w
  let (result, x) ← tryContents callback x false contents
  if result then
    return (true, ← updateBackup remote w x forceBackup)
  else
    match remote.backup with
    | none => return (false, x)
    | some name =>
      let _ ← string name
      if x.backup.any fun file => file.bytes != [] then
        checkRemoteBackup junk callback x name
      else
        return (false, x)

def checkRemote (x : State σ) (forceLoad forceBackup : Bool) : Prog (Bool × State σ) :=
  let winner := !forceLoad && !x.reloading &&
    decide (0 < remote.period ∧ (remote.period.toNat : Int) < w.now - x.tst) && !w.claimed
  if forceLoad || winner then do
    let x := { x with reloading := winner || x.reloading }
    let (result, x) ← loadRemote junk callback remote w x forceBackup
    return (result,
      { x with
        tst := if result then w.later else x.tst
        reloading := if winner then false else x.reloading })
  else
    return (true, x)

def inspectRemote (x : State σ) (synth : Bool) : Prog (Option CString) :=
  if synth then optionalString x.contents else return none

def use (x : State σ) : Use → Prog (Reply × State σ)
  | .check forceLoad forceBackup => do
    let (result, x) ← checkRemote junk callback remote w x forceLoad forceBackup
    return (.checked result, x)
  | .inspect synth => do
    let contents ← inspectRemote x synth
    return (.inspected contents, x)

end Defs

section Defs

variable (junk : Nat → UInt8) {σ : Type} (callback : Callback σ)

def uses (remote : Object) (x : State σ) : List (Outside × Use) → Prog (List Reply × State σ)
  | [] => return ([], x)
  | (w, u) :: l => do
    let (a, x) ← use junk callback remote w x u
    let (replies, x) ← uses remote x l
    return (a :: replies, x)

def lifetime (set : Settings) (object : σ) (backup : Option BackupFile)
    (l : List (Outside × Use)) : Prog (List Reply × σ × Option BackupFile) := do
  let remote ← newRemote set
  let (replies, x) ← uses junk callback remote ⟨0, false, none, object, backup⟩ l
  freeRemote remote x.contents
  return (replies, x.object, x.backup)

end Defs

/-! ## The blocks of an object -/

/-- The object was made by `new_remote`; these are its blocks. -/
inductive Built (set : Settings) : Object → Multiset (Ref × Block) → Prop
  | mk {self raw parsed : Ref} {backup cafile capath proxy : Option Ref}
      {lr lp lb lf lc lx : Multiset (Ref × Block)}
      (hraw : StoredIn (some raw) (some set.location) lr)
      (hparsed : StoredIn (some parsed) (some (locate set.location).2) lp)
      (hbackup : StoredIn backup (nonempty set.backup) lb)
      (hcafile : StoredIn cafile (nonempty set.sslCafile) lf)
      (hcapath : StoredIn capath (nonempty set.sslCapath) lc)
      (hproxy : StoredIn proxy (nonempty set.proxy) lx) :
      Built set
        { self, raw, parsed, backup, proxy
          sslCafile := cafile
          sslCapath := capath
          read := (locate set.location).1
          automatedBackups := set.automatedBackups
          period := set.period
          connectionTimeout := set.connectionTimeout
          transferTimeout := set.transferTimeout
          sslVerifyPeer := set.sslVerifyPeer
          sslVerifyHost := set.sslVerifyHost }
        (lb + ({(self, [])} + lr + lp + lf + lc + lx))

theorem setOptionalString_spec (s : Option CString) :
    Spec 0 (setOptionalString s) fun o l => StoredIn o (nonempty s) l := by
  unfold setOptionalString
  cases nonempty s with
  | none => exact Spec.pure .null
  | some s =>
    refine (Spec.strdup s).bind ?_
    intro r l hl
    exact Spec.pure hl

theorem newRemote_spec (set : Settings) : Spec 0 (newRemote set) (Built set) := by
  unfold newRemote
  refine Spec.alloc.bind ?_
  rintro self _ rfl
  refine Spec.call (Spec.strdup _) (zero_add _).symm fun raw lr hraw => ?_
  refine Spec.call (Spec.strdup _) (zero_add _).symm fun parsed lp hparsed => ?_
  refine Spec.call (setOptionalString_spec _) (zero_add _).symm fun backup lb hbackup => ?_
  refine Spec.call (setOptionalString_spec _) (zero_add _).symm fun cafile lf hcafile => ?_
  refine Spec.call (setOptionalString_spec _) (zero_add _).symm fun capath lc hcapath => ?_
  refine Spec.call (setOptionalString_spec _) (zero_add _).symm fun proxy lx hproxy => ?_
  refine Spec.pure ?_
  have hl : lx + (lc + (lf + (lb + (lp + (lr + {(self, [])}))))) =
      lb + ({(self, [])} + lr + lp + lf + lc + lx) := by abel
  rw [hl]
  exact .mk hraw hparsed hbackup hcafile hcapath hproxy

theorem freeRemote_spec {set : Settings} {remote : Object} {l lc : Multiset (Ref × Block)}
    (h : Built set remote l) {contents : Option Ref} {c : Option CString}
    (hc : StoredIn contents c lc) :
    Spec (lc + l) (freeRemote remote contents)
      fun _ l' => StoredIn remote.backup (nonempty set.backup) l' := by
  obtain ⟨hraw, hparsed, hbackup, hcafile, hcapath, hproxy⟩ := h
  rename_i self _ _ _ _ _ _ lr lp lb lf la lx
  unfold freeRemote
  simp only
  refine Spec.call (F := lc + lb + {(self, [])} + lp + lf + la + lx) hraw.free (by abel) ?_
  rintro _ _ rfl
  refine Spec.call (F := lc + lb + {(self, [])} + lf + la + lx) hparsed.free (by abel) ?_
  rintro _ _ rfl
  refine Spec.call (F := lc + lb + {(self, [])} + la + lx) hcafile.free (by abel) ?_
  rintro _ _ rfl
  refine Spec.call (F := lc + lb + {(self, [])} + lx) hcapath.free (by abel) ?_
  rintro _ _ rfl
  refine Spec.call (F := lc + lb + {(self, [])}) hproxy.free (by abel) ?_
  rintro _ _ rfl
  refine Spec.call (F := lb + {(self, [])}) hc.free (by abel) ?_
  rintro _ _ rfl
  refine Spec.among (F := lb) Spec.free (by rw [zero_add, add_comm]) ?_
  rintro _ _ rfl
  rwa [zero_add]

section Stored

variable {set : Settings} {remote : Object} {l : Multiset (Ref × Block)}

theorem Built.stored (h : Built set remote l) :
    StoredAt remote.backup (nonempty set.backup) l ∧
      StoredAt (some remote.parsed) (some (locate set.location).2) l ∧
      StoredAt remote.sslCafile (nonempty set.sslCafile) l ∧
      StoredAt remote.sslCapath (nonempty set.sslCapath) l ∧
      StoredAt remote.proxy (nonempty set.proxy) l := by
  obtain ⟨hraw, hparsed, hbackup, hcafile, hcapath, hproxy⟩ := h
  rename_i self _ _ _ _ _ _ lr lp lb lf la lx
  refine ⟨hbackup.at rfl, ?_, ?_, ?_, ?_⟩
  · exact hparsed.at (F := lb + {(self, [])} + lr + lf + la + lx) (by abel)
  · exact hcafile.at (F := lb + {(self, [])} + lr + lp + la + lx) (by abel)
  · exact hcapath.at (F := lb + {(self, [])} + lr + lp + lf + lx) (by abel)
  · exact hproxy.at (F := lb + {(self, [])} + lr + lp + lf + la) (by abel)

theorem Built.cfg_backup (h : Built set remote l) : set.cfg.backup = remote.backup.isSome :=
  h.stored.1.isSome_eq.symm

theorem Built.name (h : Built set remote l) {name : Ref} (hname : remote.backup = some name) :
    ∃ c, StoredAt (some name) (some c) l := by
  have hstored := h.stored.1
  rw [hname] at hstored
  obtain ⟨c, hc⟩ := Option.isSome_iff_exists.mp hstored.isSome_eq.symm
  exact ⟨c, hc ▸ hstored⟩

end Stored

/-! ## Reading -/

/-- A write up to the last byte of a block, and a terminator. -/
theorem write_terminated {α : Type} {k : Prog α} {Q : α → Multiset (Ref × Block) → Prop} {r : Ref}
    {b bytes : Block} {off n : Nat} (hn : n = off + bytes.length) (hb : b.length = n + 1)
    (hk : Spec {(r, b.take off ++ bytes ++ [0])} k Q) :
    Spec {(r, b)} (do write r off bytes; write r n [0]; k) Q := by
  subst hn
  have hpre : (b.take off ++ bytes).length = off + bytes.length := by
    rw [List.length_append, List.length_take_of_le (by omega)]
  have hlast : (b.drop (off + bytes.length)).length = 1 := by
    rw [List.length_drop, hb]
    omega
  have hlen : (b.take off ++ bytes ++ b.drop (off + bytes.length)).length =
      off + bytes.length + 1 := by
    rw [List.length_append, hpre, hlast]
  refine (Spec.write (by omega)).bind ?_
  rintro _ _ rfl
  refine (Spec.write (by rw [hlen]; rfl)).bind ?_
  rintro _ _ rfl
  rwa [List.take_left' hpre, List.drop_eq_nil_of_le (by rw [hlen]; rfl), List.append_nil]

theorem readFile_spec (junk : Nat → UInt8) (file : Option OpenFile)
    (hfile : ∀ f ∈ file, f.Regular) :
    Spec 0 (readFile junk file)
      fun o l => StoredIn o ((file.bind OpenFile.contents).map .ofBytes) l := by
  cases file with
  | none => exact Spec.pure .null
  | some bf =>
    obtain ⟨hsome, hfits⟩ := hfile bf rfl
    have hroom : bf.room = bf.fsize + 1 := by
      obtain ⟨n, hn⟩ := Option.isSome_iff_exists.mp hsome
      rw [OpenFile.room, OpenFile.fsize, hn]
      rfl
    unfold readFile OpenFile.contents
    simp only [hfits, if_true]
    refine Spec.alloc.bind ?_
    rintro r _ rfl
    by_cases hsize : bf.fsize ≤ bf.bytes.length
    · have hitems : (bf.bytes.take bf.fsize).length = bf.fsize := List.length_take_of_le hsize
      refine write_terminated (by omega) ((length_indeterminate _ _).trans hroom) ?_
      simp only [hitems, hsize, ne_eq, not_true_eq_false, if_false, if_true, Option.bind_some,
        Option.map_some, List.take_zero, List.nil_append]
      exact Spec.pure (StoredIn.terminated _ _)
    · have hitems : (bf.bytes.take bf.fsize).length ≠ bf.fsize := by
        rw [List.length_take]
        omega
      refine (Spec.write (by simp [hroom])).bind ?_
      rintro _ _ rfl
      refine (Spec.write (by simp [hroom])).bind ?_
      rintro _ _ rfl
      simp only [hitems, hsize, ne_eq, not_false_eq_true, if_true, if_false, Option.bind_some,
        Option.map_none]
      refine Spec.free.bind ?_
      rintro _ _ rfl
      exact Spec.pure .null

/-- Where `ftell` fails the terminator is written in front of an empty block; a block that there is
no memory for is an assertion that fails. -/
theorem readFile_regular {junk : Nat → UInt8} {bf : OpenFile} {m m' : Arena Block}
    {o : Option Ref} (h : readFile junk (some bf) m = some (o, m')) : bf.Regular := by
  unfold readFile at h
  simp only at h
  split at h
  · rename_i hfits
    refine ⟨?_, hfits⟩
    cases hsize : bf.size with
    | some n => rfl
    | none =>
      -- after `malloc`
      obtain ⟨⟨⟨⟩, m₁⟩, hitems, h⟩ := Option.bind_eq_some_iff.mp h
      obtain ⟨⟨⟨⟩, m₂⟩, hlast, -⟩ := Option.bind_eq_some_iff.mp h
      -- The block is empty, and the terminator would be at its last address but one.
      obtain ⟨b, b', hb, -, hb', hlen⟩ := write_eq_some hitems
      obtain ⟨c, -, hc, hroom, -⟩ := write_eq_some hlast
      rw [Arena.val?_alloc_self] at hb
      cases hb
      cases hb'.symm.trans hc
      rw [hlen, length_indeterminate, OpenFile.room, OpenFile.fsize, hsize] at hroom
      simp at hroom
  · cases h

theorem readUrlBody_spec (junk : Nat → UInt8) (ctx : ReadUrlCtx) (bytes block : List UInt8)
    (hlen : ctx.bodylen = bytes.length) :
    Spec {(ctx.body, bytes ++ [0])} (readUrlBody junk ctx block)
      fun ctx l => ctx.bodylen = (bytes ++ block).length ∧
        l = {(ctx.body, bytes ++ block ++ [0])} := by
  unfold readUrlBody
  refine Spec.realloc.bind ?_
  rintro body _ rfl
  have htake : (bytes ++ [0] : Block).take (ctx.bodylen + block.length + 1) = bytes ++ [0] :=
    List.take_of_length_le (by simp; omega)
  rw [htake]
  refine write_terminated rfl ?_ ?_
  · simp
    omega
  · rw [List.append_assoc bytes, List.take_left' hlen.symm]
    refine Spec.pure ⟨?_, rfl⟩
    rw [List.length_append, hlen]

theorem readUrlBody_foldlM (junk : Nat → UInt8) (blocks : List (List UInt8)) :
    ∀ (ctx : ReadUrlCtx) (bytes : List UInt8), ctx.bodylen = bytes.length →
      Spec {(ctx.body, bytes ++ [0])} (blocks.foldlM (readUrlBody junk) ctx)
        fun ctx l => l = {(ctx.body, bytes ++ blocks.flatten ++ [0])} := by
  induction blocks with
  | nil =>
    intro ctx bytes _
    rw [List.flatten_nil, List.append_nil]
    exact Spec.pure rfl
  | cons block blocks ih =>
    intro ctx bytes hlen
    rw [List.foldlM_cons]
    refine (readUrlBody_spec junk ctx bytes block hlen).bind ?_
    rintro ctx _ ⟨hlen, rfl⟩
    rw [List.flatten_cons, ← List.append_assoc]
    exact ih ctx _ hlen

theorem optionalString_spec {o : Option Ref} {s : Option CString} {l : Multiset (Ref × Block)}
    (h : StoredAt o s l) : Spec l (optionalString o) fun v l' => v = s ∧ l' = l := by
  cases o with
  | none =>
    cases s with
    | none => exact Spec.pure ⟨rfl, rfl⟩
    | some c => cases h.isSome_eq
  | some r =>
    cases s with
    | none => cases h.isSome_eq
    | some c =>
      refine h.string.bind ?_
      rintro _ _ ⟨rfl, rfl⟩
      exact Spec.pure ⟨rfl, rfl⟩

section Built

variable {set : Settings} {remote : Object} {l : Multiset (Ref × Block)}

/-- curl is asked for what the settings say, and the body is what it delivers, in whatever
blocks. -/
theorem readUrl_spec (junk : Nat → UInt8) (h : Built set remote l) (w : Outside) :
    Spec l (readUrl junk remote w) fun o l' =>
      ∃ l₀, StoredIn o ((w.fetch set.request).contents.map .ofBytes) l₀ ∧ l' = l₀ + l := by
  obtain ⟨-, hparsed, hcafile, hcapath, hproxy⟩ := h.stored
  have hrequest : Request.mk (locate set.location).2 (Settings.timeout remote.connectionTimeout)
      (Settings.timeout remote.transferTimeout) remote.sslVerifyPeer remote.sslVerifyHost
      (nonempty set.sslCafile) (nonempty set.sslCapath) (nonempty set.proxy) = set.request := by
    cases h
    rfl
  unfold readUrl Transfer.contents
  refine Spec.call Spec.alloc (zero_add _).symm ?_
  rintro body _ rfl
  have hle : l ≤ {(body, CString.empty.bytes ++ [0])} + l := Multiset.le_add_left _ _
  refine (hparsed.mono hle).string.bind ?_
  rintro _ _ ⟨rfl, rfl⟩
  refine (optionalString_spec (hcafile.mono hle)).bind ?_
  rintro _ _ ⟨rfl, rfl⟩
  refine (optionalString_spec (hcapath.mono hle)).bind ?_
  rintro _ _ ⟨rfl, rfl⟩
  refine (optionalString_spec (hproxy.mono hle)).bind ?_
  rintro _ _ ⟨rfl, rfl⟩
  simp only [hrequest]
  refine Spec.call (readUrlBody_foldlM junk _ ⟨body, 0⟩ [] rfl) rfl ?_
  rintro ctx _ rfl
  rw [List.nil_append]
  split
  · exact Spec.pure ⟨_, StoredIn.terminated _ _, rfl⟩
  · refine Spec.call Spec.free rfl ?_
    rintro _ _ rfl
    exact Spec.pure ⟨0, .null, rfl⟩

theorem readPath_spec (junk : Nat → UInt8) (h : Built set remote l) (w : Outside)
    (hw : ∀ f ∈ w.file (locate set.location).2, f.Regular) :
    Spec l (readPath junk remote w) fun o l' => ∃ l₀, StoredIn o
      (((w.file (locate set.location).2).bind OpenFile.contents).map .ofBytes) l₀ ∧
        l' = l₀ + l := by
  obtain ⟨-, hparsed, -⟩ := h.stored
  refine hparsed.string.bind ?_
  rintro _ _ ⟨rfl, rfl⟩
  refine Spec.among (readFile_spec junk _ hw) (zero_add _).symm ?_
  intro o l₀ hl₀
  exact ⟨l₀, hl₀, rfl⟩

theorem read_spec (junk : Nat → UInt8) (h : Built set remote l) {w : Outside}
    (hw : set.Regular w) :
    Spec l (read junk remote w) fun o l' =>
      ∃ l₀, StoredIn o ((set.contents w).map .ofBytes) l₀ ∧ l' = l₀ + l := by
  have hpath := readPath_spec junk h w
  have hurl := readUrl_spec junk h w
  have hread : remote.read = (locate set.location).1 := by
    cases h
    rfl
  unfold read Settings.contents
  rw [hread]
  rcases hloc : locate set.location with ⟨_ | _, file⟩
  · rw [hloc] at hpath
    exact hpath (hw file hloc)
  · exact hurl

end Built

/-! ## `check_remote` -/

/-- The state in memory is `s`, with its contents in the blocks `l`. -/
structure Held {σ : Type} (x : State σ) (s : ObjState σ) (l : Multiset (Ref × Block)) : Prop where
  tst : x.tst = s.tst
  reloading : x.reloading = s.reloading
  object : x.object = s.object
  backup : x.backup = s.backup
  contents : StoredIn x.contents s.contents l

section Check

variable {σ : Type} {P : Type*} {src : Source σ P} {junk : Nat → UInt8} {set : Settings}
  {remote : Object} {w : Outside} {x : State σ} {s s' : ObjState σ} {r : Bool}
  {l lx lb : Multiset (Ref × Block)}

/-- The new contents replace the old ones, which are freed, or they are freed themselves. -/
theorem tryContents_spec (hx : Held x s lx) {isBackup : Bool} {buf : Option Ref}
    {c : Option CString} (hb : StoredIn buf c lb)
    (h : Remote.tryContents src.callback s isBackup c = some (r, s')) :
    Spec (lb + lx) (tryContents src.callback x isBackup buf)
      fun v l => v.1 = r ∧ Held v.2 s' l := by
  have hstring := hb.at (F := lx) rfl
  unfold Remote.tryContents at h
  unfold tryContents
  cases buf with
  | none =>
    cases hb
    cases h
    exact Spec.pure ⟨rfl, by rwa [zero_add]⟩
  | some b =>
    cases c with
    | none => cases hstring.isSome_eq
    | some c =>
      refine hstring.string.bind ?_
      rintro c _ ⟨rfl, rfl⟩
      by_cases hc : c.bytes = []
      · simp only [hc, if_true] at h ⊢
        cases h
        refine Spec.call hb.free rfl ?_
        rintro _ _ rfl
        exact Spec.pure ⟨rfl, by rwa [zero_add]⟩
      · simp only [hc, if_false] at h ⊢
        rw [hx.object]
        rcases hcb : src.callback s.object c isBackup with _ | ⟨result, object, c'⟩
        · simp [hcb] at h
        · -- The callback leaves the contents as they were.
          cases src.keeps hcb
          refine Spec.call hb.write_back rfl ?_
          rintro _ _ rfl
          cases result with
          | true =>
            simp only [hcb] at h
            cases h
            refine Spec.call hx.contents.free (add_comm _ _) ?_
            rintro _ _ rfl
            refine Spec.pure ⟨rfl, hx.tst, hx.reloading, rfl, hx.backup, ?_⟩
            rwa [zero_add]
          | false =>
            simp only [hcb] at h
            cases h
            refine Spec.call hb.free rfl ?_
            rintro _ _ rfl
            refine Spec.pure ⟨rfl, hx.tst, hx.reloading, rfl, hx.backup, ?_⟩
            rw [zero_add]
            exact hx.contents

theorem updateBackup_spec (h : Built set remote l) (hx : Held x s lx) (forceBackup : Bool) :
    Spec (lx + l) (updateBackup remote w x forceBackup) fun x' l' =>
      l' = lx + l ∧ Held x' (Remote.updateBackup set.cfg (set.inputs w) s forceBackup) lx := by
  have hautomated : remote.automatedBackups = set.cfg.automatedBackups := by
    cases h
    rfl
  have hcontents := hx.contents.at (F := l) rfl
  unfold updateBackup Remote.updateBackup
  rw [h.cfg_backup, hautomated]
  cases hname : remote.backup with
  | none => exact Spec.pure ⟨rfl, hx⟩
  | some name =>
    obtain ⟨c, hc⟩ := h.name hname
    by_cases hforce : (set.cfg.automatedBackups || forceBackup) = true
    · simp only [hforce, Option.isSome_some, Bool.and_self, if_true]
      refine (hc.mono (Multiset.le_add_left _ _)).string.bind ?_
      rintro _ _ ⟨-, rfl⟩
      have hwrite : (set.inputs w).write = w.write := rfl
      rw [hwrite]
      cases hw : w.write with
      | openFailed => exact Spec.pure ⟨rfl, hx⟩
      | wrote n junk =>
        cases hxc : x.contents with
        | none =>
          rw [hxc] at hcontents
          have hnone : s.contents = none := by simpa using hcontents.isSome_eq
          rw [hnone]
          exact Spec.pure ⟨rfl, hx⟩
        | some b =>
          rw [hxc] at hcontents
          obtain ⟨c, hsc⟩ := Option.isSome_iff_exists.mp hcontents.isSome_eq.symm
          rw [hsc] at hcontents
          have hstored := hx.contents
          rw [hxc, hsc] at hstored
          refine hcontents.string.bind ?_
          rintro _ _ ⟨rfl, rfl⟩
          rw [hsc, hx.backup]
          exact Spec.pure ⟨rfl, hx.tst, hx.reloading, hx.object, rfl, hstored⟩
    · simp only [hforce, Option.isSome_some, Bool.and_false]
      exact Spec.pure ⟨rfl, hx⟩

theorem checkRemoteBackup_spec (h : Built set remote l) (hx : Held x s lx) {name : Ref}
    (hname : remote.backup = some name)
    (hrun : Remote.checkRemoteBackup src.callback s = some (r, s')) :
    Spec (lx + l) (checkRemoteBackup junk src.callback x name) fun v l' =>
      v.1 = r ∧ ∃ lx', l' = lx' + l ∧ Held v.2 s' lx' := by
  obtain ⟨c, hc⟩ := h.name hname
  have hfile : ((x.backup.bind BackupFile.open?).bind OpenFile.contents).map CString.ofBytes =
      readBackup s := by
    rw [hx.backup, readBackup]
    cases s.backup with
    | none => rfl
    | some file =>
      show ((file.open?).bind OpenFile.contents).map CString.ofBytes = _
      unfold BackupFile.open?
      cases hreadable : file.readable <;> simp [OpenFile.contents, OpenFile.fsize, hreadable]
  refine (hc.mono (Multiset.le_add_left _ _)).string.bind ?_
  rintro _ _ ⟨-, rfl⟩
  have hregular : ∀ f ∈ x.backup.bind BackupFile.open?, f.Regular := by
    intro f hf
    obtain ⟨file, -, hopen⟩ := Option.bind_eq_some_iff.mp hf
    unfold BackupFile.open? at hopen
    split at hopen
    · cases hopen
      exact ⟨rfl, rfl⟩
    · cases hopen
  refine Spec.call (readFile_spec junk _ hregular) (zero_add _).symm fun buf lb hb => ?_
  rw [hfile] at hb
  refine Spec.among (tryContents_spec hx hb hrun) (add_assoc _ _ _).symm ?_
  rintro v lx' ⟨hr, hheld⟩
  exact ⟨hr, lx', rfl, hheld⟩

theorem loadRemote_spec (h : Built set remote l) (hx : Held x s lx) (hw : set.Regular w)
    {forceBackup : Bool}
    (hrun : Remote.loadRemote set.cfg (set.inputs w) src.callback s forceBackup = some (r, s')) :
    Spec (lx + l) (loadRemote junk src.callback remote w x forceBackup) fun v l' =>
      v.1 = r ∧ ∃ lx', l' = lx' + l ∧ Held v.2 s' lx' := by
  unfold Remote.loadRemote at hrun
  unfold loadRemote
  refine Spec.call (read_spec junk h hw) (add_comm _ _) ?_
  rintro buf _ ⟨lb, hb, rfl⟩
  have hlogged : Held x { s with log := s.log ++ [.read] } lx :=
    ⟨hx.tst, hx.reloading, hx.object, hx.backup, hx.contents⟩
  rcases htry : Remote.tryContents src.callback { s with log := s.log ++ [.read] } false
    ((set.inputs w).location.map .ofBytes) with _ | ⟨ok, s₁⟩
  · simp [htry] at hrun
  · refine Spec.call (F := l) (tryContents_spec hlogged hb htry) (by abel) ?_
    rintro ⟨ok, x₁⟩ l₁ ⟨rfl, hx₁⟩
    cases ok with
    | true =>
      simp only [htry] at hrun
      cases hrun
      refine (updateBackup_spec h hx₁ forceBackup).bind ?_
      rintro x₂ _ ⟨rfl, hx₂⟩
      exact Spec.pure ⟨rfl, l₁, rfl, hx₂⟩
    | false =>
      simp only [htry, h.cfg_backup] at hrun
      cases hname : remote.backup with
      | none =>
        simp only [hname, Option.isSome_none, Bool.false_and] at hrun
        cases hrun
        exact Spec.pure ⟨rfl, l₁, rfl, hx₁⟩
      | some name =>
        obtain ⟨c, hc⟩ := h.name hname
        have hsize : (x₁.backup.any fun file => file.bytes != []) = backupHasSize s₁ := by
          rw [hx₁.backup, backupHasSize]
          cases s₁.backup <;> rfl
        simp only [hname, Option.isSome_some, Bool.true_and] at hrun
        refine (hc.mono (Multiset.le_add_left _ _)).string.bind ?_
        rintro _ _ ⟨-, rfl⟩
        simp only [hsize]
        cases hb : backupHasSize s₁ with
        | true =>
          rw [hb, if_pos rfl] at hrun
          exact checkRemoteBackup_spec h hx₁ hname hrun
        | false =>
          simp only [hb] at hrun
          cases hrun
          exact Spec.pure ⟨rfl, l₁, rfl, hx₁⟩

/-- A call answers as `checkRemote` says, and leaves the object with the contents it should
have. -/
theorem checkRemote_spec (h : Built set remote l) (hx : Held x s lx) (hw : set.Regular w)
    {forceLoad forceBackup : Bool}
    (hrun : Remote.checkRemote set.cfg (set.inputs w) src.callback s forceLoad forceBackup =
      some (r, s')) :
    Spec (lx + l) (checkRemote junk src.callback remote w x forceLoad forceBackup) fun v l' =>
      v.1 = r ∧ ∃ lx', l' = lx' + l ∧ Held v.2 s' lx' := by
  have hperiod : remote.period = set.cfg.period := by
    cases h
    rfl
  have hwins : (!forceLoad && !x.reloading && decide (0 < remote.period ∧
      (remote.period.toNat : Int) < w.now - x.tst) && !w.claimed) =
      wins set.cfg (set.inputs w) s forceLoad := by
    rw [hx.reloading, hx.tst, hperiod]
    rfl
  unfold Remote.checkRemote at hrun
  unfold checkRemote
  simp only [hwins]
  by_cases hload : (forceLoad || wins set.cfg (set.inputs w) s forceLoad) = true
  · simp only [hload, if_true] at hrun ⊢
    rcases hrem : Remote.loadRemote set.cfg (set.inputs w) src.callback
      { s with reloading := wins set.cfg (set.inputs w) s forceLoad || s.reloading } forceBackup
      with _ | ⟨result, s₁⟩
    · simp [hrem] at hrun
    · simp only [hrem] at hrun
      cases hrun
      have hmarked : Held
          { x with reloading := wins set.cfg (set.inputs w) s forceLoad || x.reloading }
          { s with reloading := wins set.cfg (set.inputs w) s forceLoad || s.reloading } lx :=
        ⟨hx.tst, by rw [hx.reloading], hx.object, hx.backup, hx.contents⟩
      refine (loadRemote_spec h hmarked hw hrem).bind ?_
      rintro ⟨ok, x₁⟩ _ ⟨rfl, lx', rfl, hx₁⟩
      have htst : x₁.tst = s₁.tst := hx₁.tst
      have hreloading : x₁.reloading = s₁.reloading := hx₁.reloading
      refine Spec.pure ⟨rfl, lx', rfl, ?_, ?_, hx₁.object, hx₁.backup, hx₁.contents⟩
      · rw [htst]
        rfl
      · rw [hreloading]
  · simp only [hload] at hrun ⊢
    cases hrun
    exact Spec.pure ⟨rfl, lx, rfl, hx⟩

theorem use_spec (h : Built set remote l) (hx : Held x s lx) (hw : set.Regular w) {u : Use}
    {a : Reply}
    (hrun : Remote.use src.callback set s w u = some (a, s')) :
    Spec (lx + l) (use junk src.callback remote w x u) fun v l' =>
      v.1 = a ∧ ∃ lx', l' = lx' + l ∧ Held v.2 s' lx' := by
  cases u with
  | check forceLoad forceBackup =>
    obtain ⟨⟨result, s₁⟩, hcheck, heq⟩ := Option.map_eq_some_iff.mp hrun
    cases heq
    refine (checkRemote_spec h hx hw hcheck).bind ?_
    rintro ⟨ok, x₁⟩ l' ⟨rfl, hx₁⟩
    exact Spec.pure ⟨rfl, hx₁⟩
  | inspect synth =>
    cases hrun
    unfold use inspectRemote Remote.inspectRemote
    cases synth with
    | true =>
      refine (optionalString_spec (hx.contents.at rfl)).bind ?_
      rintro _ _ ⟨rfl, rfl⟩
      exact Spec.pure ⟨rfl, lx, rfl, hx⟩
    | false => exact Spec.pure ⟨rfl, lx, rfl, hx⟩

theorem uses_spec (h : Built set remote l) (calls : List (Outside × Use))
    (hcalls : ∀ call ∈ calls, set.Regular call.1) :
    ∀ {x : State σ} {s s' : ObjState σ} {lx : Multiset (Ref × Block)} {replies : List Reply},
      Held x s lx → Remote.uses src.callback set s calls = some (replies, s') →
      Spec (lx + l) (uses junk src.callback remote x calls) fun v l' =>
        v.1 = replies ∧ ∃ lx', l' = lx' + l ∧ Held v.2 s' lx' := by
  induction calls with
  | nil =>
    intro x s s' lx replies hx hrun
    cases hrun
    exact Spec.pure ⟨rfl, lx, rfl, hx⟩
  | cons call calls ih =>
    intro x s s' lx replies hx hrun
    obtain ⟨w, u⟩ := call
    obtain ⟨hw, hcalls⟩ := List.forall_mem_cons.mp hcalls
    unfold Remote.uses at hrun
    rcases huse : Remote.use src.callback set s w u with _ | ⟨a, s₁⟩
    · simp [huse] at hrun
    · simp only [huse] at hrun
      obtain ⟨⟨rest, s₂⟩, hrest, heq⟩ := Option.map_eq_some_iff.mp hrun
      cases heq
      refine (use_spec h hx hw huse).bind ?_
      rintro ⟨a, x₁⟩ _ ⟨rfl, lx₁, rfl, hx₁⟩
      refine (ih hcalls hx₁ hrest).bind ?_
      rintro ⟨replies, x₂⟩ l' ⟨rfl, hx₂⟩
      exact Spec.pure ⟨rfl, hx₂⟩

end Check

/-- **Memory safety of a remote**: whatever its settings, its uses and what it gets from outside,
where the location is no file or a regular one, an object answers as `checkRemote` says without
touching memory that is not its own, and when it is freed there is nothing left of it but its copy
of the name of the backup. -/
theorem lifetime_spec {σ : Type} {P : Type*} (src : Source σ P) (junk : Nat → UInt8)
    (set : Settings) (object : σ) (backup : Option BackupFile) (calls : List (Outside × Use))
    (hcalls : ∀ call ∈ calls, set.Regular call.1) {replies : List Reply} {s : ObjState σ}
    (hrun : Remote.uses src.callback set (.init object backup) calls = some (replies, s)) :
    Spec 0 (lifetime junk src.callback set object backup calls) fun v l =>
      v = (replies, s.object, s.backup) ∧ ∃ name, StoredIn name (nonempty set.backup) l := by
  have hinit : Held ⟨0, false, none, object, backup⟩ (.init object backup) 0 :=
    ⟨rfl, rfl, rfl, rfl, .null⟩
  refine (newRemote_spec set).bind fun remote l h => ?_
  rw [← zero_add l]
  refine (uses_spec h calls hcalls hinit hrun).bind ?_
  rintro ⟨replies, x⟩ _ ⟨rfl, lx, rfl, hx⟩
  refine (freeRemote_spec h hx.contents).bind ?_
  intro _ l' hname
  refine Spec.pure ⟨?_, remote.backup, hname⟩
  have hobject : x.object = s.object := hx.object
  have hbackup : x.backup = s.backup := hx.backup
  rw [hobject, hbackup]

/-- The rules are loaded in two blocks, are seen in `vcl_synth`, and come from the backup when the
location fails. -/
def rulesByHttp : Settings where
  location := .ofString "http://r"
  backup := some (.ofBytes [98])
  automatedBackups := true
  period := 60
  connectionTimeout := 0
  transferTimeout := 500
  sslVerifyPeer := true
  sslVerifyHost := true
  sslCafile := none
  sslCapath := some .empty
  proxy := none

def rulesUses : List (Outside × Use) :=
  let transfer (t : Transfer) (now : Int) : Outside :=
    ⟨fun _ => none, fun _ => t, now, now, false, .wrote 4 []⟩
  [(transfer ⟨[[97, 45], [62, 98]], true, 200⟩ 5, .check true false),
    (transfer ⟨[], true, 200⟩ 6, .inspect true),
    (transfer ⟨[[97]], true, 404⟩ 7, .check true false)]

theorem lifetime_spec_rules :
    Spec 0 (lifetime (fun _ => 7) (rulesSource some).callback rulesByHttp [] none rulesUses)
      fun v l =>
        v = ([.checked true, .inspected (some (.ofBytes [97, 45, 62, 98])), .checked true],
          [⟨.ofBytes [97], .ofBytes [98]⟩], some ⟨[97, 45, 62, 98], true⟩) ∧
        ∃ name, StoredIn name (some (.ofBytes [98])) l := by
  have hrun : Remote.uses (rulesSource some).callback rulesByHttp (.init [] none) rulesUses =
      some ([.checked true, .inspected (some (.ofBytes [97, 45, 62, 98])), .checked true],
        ⟨7, false, some (.ofBytes [97, 45, 62, 98]), [⟨.ofBytes [97], .ofBytes [98]⟩],
          some ⟨[97, 45, 62, 98], true⟩, [.read, .read]⟩) := by decide +kernel
  refine lifetime_spec (rulesSource some) (fun _ => 7) rulesByHttp [] none rulesUses ?_ hrun
  intro _ _ file hloc
  have hurl : (locate rulesByHttp.location).1 = .url := by decide +kernel
  rw [hloc] at hurl
  cases hurl

end Mem

end VmodCfg.Remote
