import Mathlib.Algebra.Order.BigOperators.Group.List
import VmodCfg.File.CJsonStrings
import VmodCfg.File.DumpBounds
import VmodCfg.File.JsonSafety

/-!
# Reading a dump back

Every call of `dump_variables` that does not fail gives out the same text, and `file_parse_json`
makes one insertion for each variable in it. A byte that is no ASCII is read as two, so that the
variables are the same only where there is none.
-/

namespace VmodCfg.File

universe u

open CString

/-! ## The text of a dump -/

section Text

variable (vars : Variables) (pre : Option CString)

theorem emit_injective {t u : List UInt8} (h : emit t = emit u) : t = u := by
  have hrun := congrFun h ⟨some [], [], 0, 0⟩
  rw [emit_streamed, emit_streamed] at hrun
  simpa using hrun

theorem dumpMembers_eq_emit (l : List (CString × CString)) (i : UInt32) :
    dumpMembers pre l i = emit (membersText pre l i) := by
  rw [← membersTo_dumpChar, membersTo_eq, putAll_dumpChar]

theorem dumpText_object (hcount : (dumped pre vars.toList).length ≤ 2 ^ 32) :
    JsonText.Object (dumpText vars pre) (dumped pre vars.toList) := by
  obtain ⟨text, hemit, hobj, -⟩ := dump_text vars pre hcount
  rw [← membersTo_dumpChar, dumpTo_eq, putAll_dumpChar] at hemit
  rwa [emit_injective hemit]

/-- Of more variables than that, there are two without a comma between them. -/
theorem dumpText_no_comma (hmany : 2 ^ 32 < (dumped pre vars.toList).length) :
    ∃ t ps r, JsonText.Members t ps ∧ dumpText vars pre = 123 :: (t ++ 34 :: r) := by
  have hne : dumped pre vars.toList ≠ [] := by
    intro hnil
    rw [hnil] at hmany
    cases hmany
  obtain ⟨t, ps, r, ht, hdump⟩ := dumpMembers_wraps pre vars.toList 0 (by simpa using hmany) hne
  rw [dumpMembers_eq_emit] at hdump
  refine ⟨t, ps, r ++ [125], ht, ?_⟩
  rw [dumpText, emit_injective hdump, List.append_assoc, List.append_assoc]
  rfl

theorem printable_stringText (value : CString) : Printable (stringText value) := by
  have hbytes : Printable (value.bytes.flatMap byteText) := by
    intro b hb
    obtain ⟨c, -, hc⟩ := List.mem_flatMap.mp hb
    exact (byteText_decodes c).2 b hc
  exact .cons (by decide) (hbytes.append (by decide))

theorem printable_membersText (l : List (CString × CString)) (i : UInt32) :
    Printable (membersText pre l i) := by
  induction l generalizing i with
  | nil => exact List.forall_mem_nil _
  | cons x l ih =>
    have hcomma : Printable (comma i) := by
      unfold comma
      split <;> decide
    unfold membersText
    split
    · exact ih i
    · exact hcomma.append ((printable_stringText _).append
        (.cons (by decide) ((printable_stringText _).append (ih (i + 1)))))

theorem zero_not_mem_dumpText : 0 ∉ dumpText vars pre := by
  have hprint : Printable (dumpText vars pre) :=
    .cons (by decide) ((printable_membersText pre _ 0).append (by decide))
  intro hzero
  exact absurd (hprint 0 hzero).1 (by decide)

/-- What a call gives out, unless it fails: what is new in the body, or the result. -/
def dumpOutput (ctx : DumpCtx) (stream : Bool) : Option (List UInt8) :=
  let d := dumpVariables vars ctx stream pre
  d.result.map fun result =>
    if stream && ctx.synth then d.body.drop ctx.body.length else result

theorem dumpOutput_eq {ctx : DumpCtx} {stream : Bool} {text : List UInt8}
    (h : dumpOutput vars pre ctx stream = some text) : text = dumpText vars pre := by
  unfold dumpOutput at h
  rw [dumpVariables_eq_reserved] at h
  by_cases hfree : ctx.freeWs = 0
  · rw [dumpReserved_empty vars ctx stream pre hfree] at h
    cases h
  · by_cases hmode : (stream && ctx.synth) = true
    · rw [dumpReserved_streamed vars ctx stream pre hfree hmode] at h
      simp only [if_true, Option.map_some, hmode, List.drop_left, Option.some.injEq] at h
      exact h.symm
    · by_cases hfits : (dumpText vars pre).length ≤ ctx.freeWs
      · rw [dumpReserved_stored vars ctx stream pre hfree hmode hfits] at h
        simp only [if_true, Option.map_some, hmode, wsText, Option.some.injEq] at h
        exact h.symm
      · rw [dumpReserved_refused vars ctx stream pre hfree hmode (Nat.lt_of_not_le hfits)] at h
        cases h

end Text

/-! ## What the dump is read as -/

def reread (x : CString × CString) : CString × CString :=
  (.ofBytes (widen x.1.bytes), .ofBytes (widen x.2.bytes))

def byteCount (x : CString × CString) : Nat := x.1.bytes.length + x.2.bytes.length

theorem bytes_widen (s : CString) : (CString.ofBytes (widen s.bytes)).bytes = widen s.bytes :=
  bytes_ofBytes (zero_not_mem_widen s.no_nul)

theorem reread_of_ascii {x : CString × CString} (hname : Ascii x.1.bytes)
    (hvalue : Ascii x.2.bytes) : reread x = x := by
  rw [reread, widen_eq_self hname, widen_eq_self hvalue, ofBytes_bytes, ofBytes_bytes]

theorem byteCount_reread (x : CString × CString) : byteCount x ≤ byteCount (reread x) ∧
    (byteCount (reread x) = byteCount x → Ascii x.1.bytes ∧ Ascii x.2.bytes) := by
  obtain ⟨hname, hname'⟩ := length_widen x.1.bytes
  obtain ⟨hvalue, hvalue'⟩ := length_widen x.2.bytes
  rw [← hname', ← hvalue']
  simp only [byteCount, reread, bytes_widen]
  omega

theorem dumped_none (l : List (CString × CString)) : dumped none l = l.map pairBytes := by
  simp [dumped, dumpSkips]

section Items

variable {D : Type u} (cfg : FileCfg) (l : List (CString × CString))

theorem named_stringItems (ps : List (List UInt8 × List UInt8)) :
    (CJson.stringItems ps : JsonItems D).Named := by
  induction ps with
  | nil => trivial
  | cons x ps ih => exact (JsonItems.named_cons ..).mpr ⟨trivial, ih⟩

theorem newPrefixes_stringItems (path : CString) (ps : List (List UInt8 × List UInt8)) :
    newPrefixes cfg path (CJson.stringItems ps : JsonItems D) = [] := by
  induction ps with
  | nil => rfl
  | cons x ps ih => exact ih

theorem entries_stringItems (lib : JsonLib D) :
    entries cfg lib .empty (CJson.stringItems (l.map pairBytes)) = l.map reread := by
  induction l with
  | nil => rfl
  | cons x l ih =>
    rw [List.map_cons, List.map_cons, ← ih]
    refine (entries_item cfg lib .empty _ (by simp) _).trans ?_
    simp only [jsonText, Option.map_some, Option.toList_some, empty_append]
    rfl

end Items

section ReadBack

variable (cfg : FileCfg) (vars : Variables)

theorem fileParseJson_dumpText (hfew : vars.size ≤ 2 ^ 32) (vars' : Variables) :
    fileParseJson CJson.lib cfg (.ofBytes (dumpText vars none)) = .parsed vars' ↔
      Variables.insertAll ∅ (vars.toList.map reread) = some vars' := by
  have hcount : (dumped none vars.toList).length ≤ 2 ^ 32 := by
    rwa [dumped_none, List.length_map, Std.ExtTreeMap.length_toList]
  have hparse : CJson.lib.parse (.ofBytes (dumpText vars none)) =
      some (.object (CJson.stringItems (dumped none vars.toList))) :=
    CJson.parseWithOpts_object CJson.ofNumeral (dumpText_object vars none hcount)
      (zero_not_mem_dumpText vars none)
  rw [dumped_none] at hparse
  have hwalk := fileParseJsonWalk_eq_some cfg CJson.lib_prints .empty ∅ vars'
    (named_stringItems (vars.toList.map pairBytes))
  rw [newPrefixes_stringItems, entries_stringItems, and_iff_right (List.forall_mem_nil _)] at hwalk
  rw [fileParseJson_object cfg hparse, ← hwalk]
  cases fileParseJsonWalk CJson.lib cfg .empty ∅ (CJson.stringItems (vars.toList.map pairBytes)) <;>
    simp

theorem fileParseJson_of_too_many (hmany : 2 ^ 32 < vars.size) :
    fileParseJson CJson.lib cfg (.ofBytes (dumpText vars none)) = .failed := by
  have hcount : 2 ^ 32 < (dumped none vars.toList).length := by
    rwa [dumped_none, List.length_map, Std.ExtTreeMap.length_toList]
  obtain ⟨t, ps, r, ht, htext⟩ := dumpText_no_comma vars none hcount
  have hzero := zero_not_mem_dumpText vars none
  rw [htext] at hzero ⊢
  have hparse : CJson.lib.parse (.ofBytes (123 :: (t ++ 34 :: r))) = none :=
    CJson.parseWithOpts_no_comma CJson.ofNumeral ht hzero
  simp only [fileParseJson, hparse]

/-- The names and values are ASCII, the names are neither empty nor too long, and the counter of
the dump does not wrap. -/
structure ReadsBack : Prop where
  ascii : ∀ x ∈ vars.toList, Ascii x.1.bytes ∧ Ascii x.2.bytes
  names : ∀ x ∈ vars.toList, x.1 ≠ .empty ∧ x.1.bytes.length < 2 ^ 31
  few : vars.size ≤ 2 ^ 32

/-- Where the insertions give the variables again, no byte was read as two. -/
theorem ascii_of_insertAll {vars : Variables}
    (h : Variables.insertAll ∅ (vars.toList.map reread) = some vars) :
    ∀ x ∈ vars.toList, Ascii x.1.bytes ∧ Ascii x.2.bytes := by
  have hperm : (vars.toList.map byteCount).sum =
      (vars.toList.map fun x => byteCount (reread x)).sum := by
    have hsum := ((Variables.toList_insertAll h).map byteCount).sum_eq
    rwa [List.map_map] at hsum
  intro x hx
  by_contra hascii
  have hlt : byteCount x < byteCount (reread x) :=
    Nat.lt_of_le_of_ne (byteCount_reread x).1 fun heq => hascii ((byteCount_reread x).2 heq.symm)
  have hsum := List.sum_lt_sum byteCount (fun x => byteCount (reread x))
    (fun y _ => (byteCount_reread y).1) ⟨x, hx, hlt⟩
  omega

/-- **A dump is read back exactly when** the names and values are ASCII, the names are good ones,
and there are not more variables than the counter can count. -/
theorem dump_read_back_iff {ctx : DumpCtx} {stream : Bool} {text : List UInt8}
    (h : dumpOutput vars none ctx stream = some text) :
    fileParseJson CJson.lib cfg (.ofBytes text) = .parsed vars ↔ ReadsBack vars := by
  obtain rfl := dumpOutput_eq vars none h
  constructor
  · intro hparsed
    have hfew : vars.size ≤ 2 ^ 32 := by
      by_contra hmany
      rw [fileParseJson_of_too_many cfg vars (Nat.lt_of_not_le hmany)] at hparsed
      cases hparsed
    have hinsert := (fileParseJson_dumpText cfg vars hfew vars).mp hparsed
    have hascii := ascii_of_insertAll hinsert
    refine ⟨hascii, fun x hx => ?_, hfew⟩
    obtain ⟨hnames, -, -⟩ :=
      (Variables.insertAll_isSome_iff _ _).mp (Option.isSome_of_eq_some hinsert)
    have hpos := hnames (reread x) (List.mem_map_of_mem hx)
    rw [reread_of_ascii (hascii x hx).1 (hascii x hx).2] at hpos
    exact asprintf_pos.mp hpos
  · intro hreads
    rw [fileParseJson_dumpText cfg vars hreads.few]
    have hsame : ∀ x ∈ vars.toList, reread x = x := by
      intro x hx
      exact reread_of_ascii (hreads.ascii x hx).1 (hreads.ascii x hx).2
    rw [List.map_congr_left hsame, List.map_id']
    have hsome : (Variables.insertAll ∅ vars.toList).isSome := by
      rw [Variables.insertAll_isSome_iff]
      refine ⟨fun x hx => asprintf_pos.mpr (hreads.names x hx), fun x _ => ?_, vars.nodup_names⟩
      exact Std.ExtTreeMap.not_mem_empty
    obtain ⟨vars', hvars'⟩ := Option.isSome_iff_exists.mp hsome
    rw [hvars', Std.ExtTreeMap.ext_toList (Variables.toList_insertAll hvars')]

/-- The variable `a` with a quotation mark as its value: the text is `{"a":"\""}`. -/
theorem dump_read_back_quote :
    dumpOutput (.ofList [(.ofBytes [97], .ofBytes [34])] _) none ⟨false, [], 64⟩ false =
      some [123, 34, 97, 34, 58, 34, 92, 34, 34, 125] ∧
    (fileParseJson CJson.lib ⟨.ofBytes [58], .ofBytes [59]⟩
        (.ofBytes [123, 34, 97, 34, 58, 34, 92, 34, 34, 125]) =
      .parsed (.ofList [(.ofBytes [97], .ofBytes [34])] _) ↔
        ReadsBack (.ofList [(.ofBytes [97], .ofBytes [34])] _)) := by
  have h : dumpOutput (.ofList [(.ofBytes [97], .ofBytes [34])] _) none ⟨false, [], 64⟩ false =
      some [123, 34, 97, 34, 58, 34, 92, 34, 34, 125] := by
    decide +kernel
  exact ⟨h, dump_read_back_iff _ _ h⟩

def ValidUtf8 (t : List UInt8) : Prop := ∃ s : String, s.toUTF8.toList = t

/-- The variable `a` with the value `é`, which has two bytes, is read back with another value, of
four bytes. -/
theorem dump_not_read_back :
    ∃ vars vars' : Variables, ∃ text,
      (∀ x ∈ vars.toList, x.1 ≠ .empty ∧ ValidUtf8 x.1.bytes ∧ ValidUtf8 x.2.bytes) ∧
      dumpOutput vars none ⟨false, [], 64⟩ false = some text ∧
      fileParseJson CJson.lib ⟨.ofBytes [58], .ofBytes [59]⟩ (.ofBytes text) = .parsed vars' ∧
      vars[CString.ofString "a"]? = some (.ofString "é") ∧
      vars'[CString.ofString "a"]? = some (.ofString "Ã©") ∧ vars' ≠ vars := by
  refine ⟨.ofList [(.ofString "a", .ofString "é")] _, .ofList [(.ofString "a", .ofString "Ã©")] _,
    dumpText (.ofList [(.ofString "a", .ofString "é")] _) none, ?_, by decide +kernel, ?_,
    by decide +kernel, by decide +kernel, ?_⟩
  · have htoList : (Std.ExtTreeMap.ofList [(ofString "a", ofString "é")] strcmp).toList =
        [(.ofString "a", .ofString "é")] := by decide +kernel
    rw [htoList]
    intro x hx
    obtain rfl := List.mem_singleton.mp hx
    exact ⟨by decide +kernel, ⟨"a", by decide +kernel⟩, ⟨"é", by decide +kernel⟩⟩
  · rw [fileParseJson_dumpText _ _ (by decide +kernel)]
    decide +kernel
  · intro heq
    have hvalue := congrArg (fun vars : Variables => vars[CString.ofString "a"]?) heq
    revert hvalue
    decide +kernel

end ReadBack

end VmodCfg.File
