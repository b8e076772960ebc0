import VmodCfg.Lib.CString

/-!
# `varnish.get_header` and `varnish.set_header`

Varnish names a header by an identifier in memory: a byte with the length of
the rest, and the rest, which is the name and a colon. The commands build it
from the name that the script passes, and `CAST_HDR` hands it on as it is.
-/

namespace VmodCfg.Script

open CString

inductive Gethdr where
  | req
  | reqTop
  | bereq
  | resp
  | beresp
  | obj
  deriving DecidableEq, Repr

/-- The pointers of `ctx` that tell which objects there are; `objcore` is
`ctx->req != NULL && ctx->req->objcore != NULL`. -/
structure HttpCtx where
  httpReq : Bool
  httpReqTop : Bool
  httpBereq : Bool
  httpResp : Bool
  httpBeresp : Bool
  objcore : Bool
  deriving DecidableEq, Repr

/-- `get_http_where`; `none` is `WRONG`. -/
def getHttpWhere (name : CString) : Option Gethdr :=
  if name = ofString "req" then some .req
  else if name = ofString "req-top" then some .reqTop
  else if name = ofString "bereq" then some .bereq
  else if name = ofString "resp" then some .resp
  else if name = ofString "beresp" then some .beresp
  else if name = ofString "obj" then some .obj
  else none

def isValidHttpWhere (ctx : HttpCtx) : Gethdr → Bool
  | .req => ctx.httpReq
  | .reqTop => ctx.httpReqTop
  | .bereq => ctx.httpBereq
  | .resp => ctx.httpResp
  | .beresp => ctx.httpBeresp
  | .obj => ctx.objcore

/-! ## The identifier -/

/-- `sprintf(buffer, "%c%s:", (char) (strlen(name) + 1), name)`, with the terminator. -/
def headerBuffer (name : CString) : Buffer :=
  UInt8.ofNat (name.bytes.length + 1) :: (name.bytes ++ [58, 0])

/-- The text that an identifier stands for: as many bytes as its first byte says. -/
def identifierText (hdr : Buffer) : List UInt8 := (hdr.drop 1).take (hdr.byte 0).toNat

def decodeHeader (hdr : Buffer) : Option (List UInt8) :=
  if (identifierText hdr).getLast? = some 58 then some (identifierText hdr).dropLast else none

/-- The length byte is the length of the text after it, and the identifier decodes to the name. -/
def Lossless (name : CString) (hdr : Buffer) : Prop :=
  (hdr.byte 0).toNat = hdr.strlen 1 ∧ decodeHeader hdr = some name.bytes

theorem byte_headerBuffer (name : CString) :
    ((headerBuffer name).byte 0).toNat = (name.bytes.length + 1) % 256 := by
  show (UInt8.ofNat (name.bytes.length + 1)).toNat = _
  rw [UInt8.toNat_ofNat']

theorem str_headerBuffer (name : CString) :
    ((headerBuffer name).str 1).bytes = name.bytes ++ [58] := by
  show (name.bytes ++ [58, 0]).takeWhile (· != 0) = _
  have hname : ∀ c ∈ name.bytes, (c != 0) = true := by
    intro c hc
    simpa using ne_of_mem_of_not_mem hc name.no_nul
  rw [List.takeWhile_append_of_pos hname]
  rfl

theorem strlen_headerBuffer (name : CString) :
    (headerBuffer name).strlen 1 = name.bytes.length + 1 := by
  rw [Buffer.strlen, str_headerBuffer, List.length_append]
  rfl

/-- If the length byte does not wrap, the text is the name and the colon. -/
theorem identifierText_headerBuffer {name : CString} (h : name.bytes.length ≤ 254) :
    identifierText (headerBuffer name) = name.bytes ++ [58] := by
  have hlength : ((headerBuffer name).byte 0).toNat = (name.bytes ++ [58]).length := by
    rw [byte_headerBuffer, List.length_append, List.length_singleton]
    omega
  have hdrop : (headerBuffer name).drop 1 = (name.bytes ++ [58]) ++ [0] := by
    simp [headerBuffer]
  rw [identifierText, hlength, hdrop, List.take_left]

/-- The length byte is right up to 254 bytes; from there on it wraps. -/
theorem lossless_headerBuffer_iff (name : CString) :
    Lossless name (headerBuffer name) ↔ name.bytes.length ≤ 254 := by
  constructor
  · rintro ⟨hlength, -⟩
    rw [byte_headerBuffer, strlen_headerBuffer] at hlength
    omega
  · intro h
    constructor
    · rw [byte_headerBuffer, strlen_headerBuffer]
      omega
    · rw [decodeHeader, identifierText_headerBuffer h, List.getLast?_concat, if_pos rfl,
        List.dropLast_concat]

/-! ## The commands -/

/-- A call of Varnish: where to, the identifier, and the new value, if it is `VRT_SetHdr`. -/
structure HeaderCall where
  target : Gethdr
  hdr : Buffer
  value : Option CString
  deriving DecidableEq

/-- What a command does: the call that it makes, the error, and whether it fails the task. -/
structure HeaderEnd where
  call : Option HeaderCall
  error : Option CString
  failed : Bool
  deriving DecidableEq

/-- `varnish_get_header_command` and `varnish_set_header_command`: `targets` is what `whereName` is
compared with, `command` the name in the message. `room` says that the message fits the workspace.
The result is `none` when `get_http_where` panics. -/
def headerCommand (targets : List CString) (command : CString) (value : Option CString)
    (ctx : HttpCtx) (room : Bool) (name whereName : CString) : Option HeaderEnd :=
  if whereName ∈ targets then do
    let he ← getHttpWhere whereName
    if isValidHttpWhere ctx he then return ⟨some ⟨he, headerBuffer name, value⟩, none, false⟩
    else if room then
      return ⟨none, some (ofString "varnish." ++ command ++ ofString "() called over unavailable '" ++
        whereName ++ ofString "' object."), false⟩
    else return ⟨none, none, true⟩
  else some ⟨none, none, false⟩

def varnishGetHeaderCommand : HttpCtx → Bool → CString → CString → Option HeaderEnd :=
  headerCommand (["req", "req-top", "bereq", "beresp", "resp", "obj"].map ofString)
    (ofString "get_header") none

def varnishSetHeaderCommand (value : CString) :
    HttpCtx → Bool → CString → CString → Option HeaderEnd :=
  headerCommand (["req", "req-top", "bereq", "beresp", "resp"].map ofString)
    (ofString "set_header") (some value)

/-- `varnish.get_header` in both engines, from the conversion of its arguments on. -/
def varnishGetHeader (ctx : HttpCtx) (room : Bool) (name whereName : Option CString) :
    Option HeaderEnd :=
  match name with
  | none => some ⟨none, none, false⟩
  | some name =>
    if name.bytes = [] then some ⟨none, none, false⟩
    else varnishGetHeaderCommand ctx room name (whereName.getD (ofString "req"))

/-- `varnish.set_header` in both engines, from the conversion of its arguments on. -/
def varnishSetHeader (ctx : HttpCtx) (room : Bool) (name value whereName : Option CString) :
    Option HeaderEnd :=
  match name, value with
  | some name, some value =>
    if name.bytes = [] ∨ value.bytes = [] then some ⟨none, none, false⟩
    else varnishSetHeaderCommand value ctx room name (whereName.getD (ofString "req"))
  | _, _ => some ⟨none, none, false⟩

section Commands

variable {targets : List CString} {command : CString} {value : Option CString} {ctx : HttpCtx}
  {room : Bool} {name whereName : CString} {e : HeaderEnd} {c : HeaderCall}

theorem headerCommand_call
    (h : headerCommand targets command value ctx room name whereName = some e) (hc : c ∈ e.call) :
    whereName ∈ targets ∧ getHttpWhere whereName = some c.target ∧
      isValidHttpWhere ctx c.target = true ∧ c.hdr = headerBuffer name ∧ c.value = value := by
  unfold headerCommand at h
  split at h
  · rename_i htarget
    cases hwhere : getHttpWhere whereName with
    | none => simp [hwhere] at h
    | some he =>
      simp only [hwhere, Option.bind_eq_bind, Option.bind_some] at h
      split at h
      · rename_i hvalid
        cases h
        cases hc
        exact ⟨htarget, rfl, hvalid, rfl, rfl⟩
      · split at h
        · cases h
          cases hc
        · cases h
          cases hc
  · cases h
    cases hc

/-- `get_http_where` knows what the commands compare with: there is no panic. -/
theorem headerCommand_isSome (h : ∀ w ∈ targets, (getHttpWhere w).isSome) :
    (headerCommand targets command value ctx room name whereName).isSome := by
  unfold headerCommand
  split
  · rename_i htarget
    obtain ⟨he, hwhere⟩ := Option.isSome_iff_exists.mp (h _ htarget)
    simp only [hwhere, Option.bind_eq_bind, Option.bind_some]
    split
    · rfl
    · split <;> rfl
  · rfl

end Commands

theorem varnishHeader_isSome (ctx : HttpCtx) (room : Bool) (name value whereName : Option CString) :
    (varnishGetHeader ctx room name whereName).isSome ∧
      (varnishSetHeader ctx room name value whereName).isSome := by
  constructor
  · unfold varnishGetHeader
    split
    · rfl
    · split
      · rfl
      · exact headerCommand_isSome (by decide +kernel)
  · unfold varnishSetHeader
    split
    · split
      · rfl
      · exact headerCommand_isSome (by decide +kernel)
    · rfl

/-- **Header names are encoded losslessly** exactly up to 254 bytes, wherever `VRT_GetHdr` or
`VRT_SetHdr` is called. -/
theorem header_names_lossless_iff {ctx : HttpCtx} {room : Bool} {name : CString}
    {value whereName : Option CString} {e : HeaderEnd} {c : HeaderCall}
    (h : varnishGetHeader ctx room (some name) whereName = some e ∨
      varnishSetHeader ctx room (some name) value whereName = some e)
    (hc : c ∈ e.call) : Lossless name c.hdr ↔ name.bytes.length ≤ 254 := by
  have hhdr : c.hdr = headerBuffer name := by
    obtain hget | hset := h
    · unfold varnishGetHeader at hget
      simp only at hget
      split at hget
      · cases hget
        cases hc
      · exact (headerCommand_call hget hc).2.2.2.1
    · unfold varnishSetHeader at hset
      split at hset
      · rename_i hn
        cases hn
        split at hset
        · cases hset
          cases hc
        · exact (headerCommand_call hset hc).2.2.2.1
      · cases hset
        cases hc
  rw [hhdr]
  exact lossless_headerBuffer_iff name

abbrev fullCtx : HttpCtx := ⟨true, true, true, true, true, true⟩

theorem header_names_lossless_iff_foo :
    Lossless (ofString "foo") (headerBuffer (ofString "foo")) :=
  (@header_names_lossless_iff fullCtx true (ofString "foo") none none
    ⟨some ⟨.req, headerBuffer (ofString "foo"), none⟩, none, false⟩
    ⟨.req, headerBuffer (ofString "foo"), none⟩ (.inl (by decide +kernel)) rfl).mpr
    (by decide +kernel)

/-- The identifier that is built for a name of 255 bytes says that its text is empty. -/
theorem header_names_wrap :
    (letters 255).bytes ≠ [] ∧
      varnishGetHeader fullCtx true (some (letters 255)) none =
        some ⟨some ⟨.req, headerBuffer (letters 255), none⟩, none, false⟩ ∧
      (headerBuffer (letters 255)).byte 0 = 0 ∧
      ¬ Lossless (letters 255) (headerBuffer (letters 255)) := by
  refine ⟨by decide, by decide +kernel, by decide +kernel, fun hlossless => ?_⟩
  have hlength := (lossless_headerBuffer_iff _).mp hlossless
  rw [length_letters] at hlength
  omega

end VmodCfg.Script
