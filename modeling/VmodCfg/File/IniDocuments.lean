import VmodCfg.File.IniGrammar

/-!
# INI documents are loaded

The files that `file_parse_ini` accepts are those whose lines are written as the grammar says, and
it loads what they say.
-/

namespace VmodCfg.File

open CString

namespace Ini

/-! ## What the parser makes of the lines -/

theorem entriesFrom_written {first : Bool} {sect prev : CString} {line line' : List UInt8}
    {lines : List (List UInt8)} {es : List IniEntry} (h : Lines sect prev (line :: lines) es)
    (hline : ∀ kind, Written (prev.bytes != []) line kind →
      classify first (prev.bytes != []) line' = kind)
    (ih : ∀ {sect prev es}, Lines sect prev lines es → entriesFrom false sect prev lines = es ∧
      beforeMalformed false (prev.bytes != []) lines = none) :
    entriesFrom first sect prev (line' :: lines) = es ∧
      beforeMalformed first (prev.bytes != []) (line' :: lines) = none := by
  have hcut : ∀ name, ((strncpy0 name maxName).bytes != []) = ((CString.ofBytes name).bytes != []) := by
    intro name
    rw [← cut_ofBytes, cut_ne_nil]
  cases h with
  | skipped hkind h =>
    have hclassify := hline _ hkind
    obtain ⟨hes, hnone⟩ := ih h
    rw [entriesFrom, beforeMalformed_other (by rw [hclassify]; decide), hclassify]
    exact ⟨hes, congrArg (Option.map _) hnone⟩
  | header hkind h =>
    have hclassify := hline _ hkind
    obtain ⟨hes, hnone⟩ := ih h
    rw [entriesFrom, beforeMalformed_other (by rw [hclassify]; simp), hclassify]
    exact ⟨hes, congrArg (Option.map _) hnone⟩
  | pair hkind h =>
    have hclassify := hline _ hkind
    obtain ⟨hes, hnone⟩ := ih h
    rw [entriesFrom, beforeMalformed_other (by rw [hclassify]; simp), hclassify, prevAfter, hcut,
      hnone]
    exact ⟨congrArg (List.cons _) hes, rfl⟩
  | continuation hkind h =>
    have hclassify := hline _ hkind
    obtain ⟨hes, hnone⟩ := ih h
    rw [entriesFrom, beforeMalformed_other (by rw [hclassify]; simp), hclassify]
    exact ⟨congrArg (List.cons _) hes, congrArg (Option.map _) hnone⟩

theorem lines_cons {first : Bool} {sect prev : CString} {line line' : List UInt8}
    {lines : List (List UInt8)}
    (hnone : beforeMalformed first (prev.bytes != []) (line' :: lines) = none)
    (hline : classify first (prev.bytes != []) line' ≠ .malformed →
      Written (prev.bytes != []) line (classify first (prev.bytes != []) line'))
    (ih : ∀ {sect prev}, beforeMalformed false (prev.bytes != []) lines = none →
      Lines sect prev lines (entriesFrom false sect prev lines)) :
    Lines sect prev (line :: lines) (entriesFrom first sect prev (line' :: lines)) := by
  have hne : classify first (prev.bytes != []) line' ≠ .malformed := fun hmal => by
    rw [beforeMalformed_malformed hmal] at hnone
    cases hnone
  have hwritten := hline hne
  rw [beforeMalformed_other hne] at hnone
  have hrest := Option.map_eq_none_iff.mp hnone
  rw [entriesFrom]
  cases hkind : classify first (prev.bytes != []) line' with
  | skipped =>
    rw [hkind] at hwritten hrest
    exact .skipped hwritten (ih hrest)
  | continuation value =>
    rw [hkind] at hwritten hrest
    exact .continuation hwritten (ih hrest)
  | header name =>
    rw [hkind] at hwritten hrest
    exact .header hwritten (ih hrest)
  | pair name value =>
    rw [hkind, prevAfter, ← cut_ofBytes, cut_ne_nil] at hrest
    rw [hkind] at hwritten
    exact .pair hwritten (ih hrest)
  | malformed => exact absurd hkind hne

theorem lines_entriesFrom {sect prev : CString} {lines : List (List UInt8)}
    (hnone : beforeMalformed false (prev.bytes != []) lines = none) :
    Lines sect prev lines (entriesFrom false sect prev lines) := by
  induction lines generalizing sect prev with
  | nil => exact .nil
  | cons line lines ih =>
    refine lines_cons hnone (fun hne => ?_) fun h => ih h
    rw [classify_eq] at hne ⊢
    exact written_classifyText (fun hbom => absurd hbom Bool.false_ne_true) hne

theorem entriesFrom_lines {sect prev : CString} {lines : List (List UInt8)} {es : List IniEntry}
    (h : Lines sect prev lines es) : entriesFrom false sect prev lines = es ∧
      beforeMalformed false (prev.bytes != []) lines = none := by
  induction lines generalizing sect prev es with
  | nil =>
    cases h
    exact ⟨rfl, rfl⟩
  | cons line lines ih =>
    refine entriesFrom_written h (fun kind hkind => ?_) fun h => ih h
    rw [classify_eq]
    exact classifyText_written hkind fun hbom => absurd hbom Bool.false_ne_true

theorem textLines_bom (t : List UInt8) : ∃ line lines, textLines t = line :: lines ∧
    textLines (bom ++ t) = (bom ++ line) :: lines ∧ line <+: t := by
  have hbom : NoNewline bom := by
    exact @of_decide_eq_true _ (List.decidableBAll _ _) rfl
  have hadd : ∀ {line : List UInt8}, NoNewline line → NoNewline (bom ++ line) := by
    intro line hline c hc
    rcases List.mem_append.mp hc with hc | hc
    · exact hbom c hc
    · exact hline c hc
  rcases exists_line t with h | ⟨line, c, left, rfl, hline, hc⟩
  · exact ⟨t, [], textLines_line h, textLines_line (hadd h), List.prefix_refl t⟩
  · refine ⟨line, textLines left, textLines_newline hline hc left, ?_, List.prefix_append ..⟩
    rw [← List.append_assoc, textLines_newline (hadd hline) hc]

/-- **A document's lines are read as they are written**, and none is malformed. -/
theorem entries_document {t : List UInt8} {es : List IniEntry} (h : Document t es) :
    entries t = es ∧ beforeMalformed true false (textLines t) = none := by
  obtain ⟨marked, hmark, hlines⟩ := h
  rename_i t
  obtain ⟨line, lines, htext, hbom, hprefix⟩ := textLines_bom t
  rw [htext] at hlines
  cases marked with
  | true =>
    rw [if_pos rfl, entries, hbom]
    refine entriesFrom_written hlines (fun kind hkind => ?_) fun h => entriesFrom_lines h
    have hfound : bom.isPrefixOf (bom ++ line) = true :=
      List.isPrefixOf_iff_prefix.mpr (List.prefix_append ..)
    rw [classify_eq, hfound]
    exact classifyText_written hkind fun _ => rfl
  | false =>
    rw [if_neg Bool.false_ne_true, List.nil_append, entries, htext]
    refine entriesFrom_written hlines (fun kind hkind => ?_) fun h => entriesFrom_lines h
    have hfound : bom.isPrefixOf line = false := by
      rw [← Bool.not_eq_true, List.isPrefixOf_iff_prefix]
      exact fun hline => hmark rfl (hline.trans hprefix)
    rw [classify_eq, hfound]
    exact classifyText_written hkind fun hfalse => absurd hfalse Bool.false_ne_true

/-- **Where no line is malformed, the text is a document.** -/
theorem document_entries {t : List UInt8}
    (hnone : beforeMalformed true false (textLines t) = none) : Document t (entries t) := by
  by_cases hmark : bom <+: t
  · obtain ⟨t, rfl⟩ := hmark
    obtain ⟨line, lines, htext, hbom, -⟩ := textLines_bom t
    rw [hbom] at hnone
    have hfound : bom.isPrefixOf (bom ++ line) = true :=
      List.isPrefixOf_iff_prefix.mpr (List.prefix_append ..)
    have hlines : Lines .empty .empty (line :: lines) (entriesFrom true .empty .empty
        ((bom ++ line) :: lines)) := by
      refine lines_cons hnone (fun hne => ?_) fun h => lines_entriesFrom h
      rw [classify_eq, hfound] at hne ⊢
      exact written_classifyText (fun _ => rfl) hne
    rw [← htext] at hlines
    rw [entries, hbom]
    exact .mk true nofun hlines
  · obtain ⟨line, lines, htext, -, hprefix⟩ := textLines_bom t
    have hfound : bom.isPrefixOf line = false := by
      rw [← Bool.not_eq_true, List.isPrefixOf_iff_prefix]
      exact fun hline => hmark (hline.trans hprefix)
    rw [htext] at hnone
    have hlines : Lines .empty .empty (line :: lines) (entriesFrom true .empty .empty
        (line :: lines)) := by
      refine lines_cons hnone (fun hne => ?_) fun h => lines_entriesFrom h
      rw [classify_eq, hfound] at hne ⊢
      exact written_classifyText (fun hfalse => absurd hfalse Bool.false_ne_true) hne
    rw [← htext] at hlines
    exact .mk false (fun _ => hmark) hlines

/-! ## The run of the parser -/

theorem after_isSome_iff {c : Context} {lines : List (List UInt8)} :
    (c.after lines).isSome ↔
      beforeMalformed (c.lineno + 1 == 1) (c.prevName.bytes != []) lines = none := by
  induction lines generalizing c with
  | nil => exact ⟨fun _ => rfl, fun _ => rfl⟩
  | cons line lines ih =>
    rw [Context.after, beforeMalformed, ← Context.classify]
    split
    · simp
    · have hfirst : ((c.next line).lineno + 1 == 1) = false := by
        rw [context_next_lineno]
        simp
      rw [ih, hfirst, context_next_hasPrev, Option.map_eq_none_iff]

theorem beforeMalformed_reads_none {rest : List UInt8} {strs : List (List UInt8)}
    (h : Reads maxLine rest strs) (hshort : ShortLines maxLine rest) (first hasPrev : Bool)
    (hstrs : beforeMalformed first hasPrev strs = none) :
    beforeMalformed first hasPrev (textLines rest) = none := by
  induction h generalizing first hasPrev with
  | eof =>
    have hempty : beforeMalformed first hasPrev [[]] = _ := beforeMalformed_empty
    exact hempty.trans rfl
  | @line rest left str strs hread hs ih =>
    have hstep := readStep_of_streamReader (by decide) hshort hread
    have hleft := hstep.shortLines hshort
    have hne : classify first hasPrev str ≠ .malformed := fun hmal => by
      rw [beforeMalformed_malformed hmal] at hstrs
      cases hstrs
    rw [beforeMalformed_other hne] at hstrs
    have hrest := ih hleft _ _ (Option.map_eq_none_iff.mp hstrs)
    cases hstep with
    | last hline =>
      rw [textLines_line hline, beforeMalformed_other hne]
      rfl
    | one hline hc hone =>
      rw [textLines_newline hline hc, beforeMalformed_other hne, hrest]
      rfl
    | @doubled _ _ c hline hc hlt =>
      rw [textLines_newline hline hc, ← List.nil_append (c :: left),
        textLines_newline (List.forall_mem_nil _) hc, beforeMalformed_other hne,
        beforeMalformed_empty, hrest]
      rfl

end Ini

/-! ## Loading -/

theorem handled_iff (cfg : FileCfg) (es : List IniEntry) (vars : Variables) :
    handleAll cfg ∅ (es.map IniEntry.handed) = some vars ↔
      (∀ e ∈ es, 0 < (e.handed.flat cfg).asprintf) ∧
        vars.toList.Perm (((es.map fun e => e.handed.contribution cfg).map Prod.fst).dedup.map
          fun name => (name, joinValues cfg.valueDelimiter
            (valuesAt name (es.map fun e => e.handed.contribution cfg)))) := by
  have hsome : (handleAll cfg ∅ (es.map IniEntry.handed)).isSome ↔
      ∀ e ∈ es, 0 < (e.handed.flat cfg).asprintf := by
    rw [handleAll_isSome_iff, List.forall_mem_map]
  have hrepresents : ∀ {vars'}, handleAll cfg ∅ (es.map IniEntry.handed) = some vars' →
      Represents cfg.valueDelimiter vars' (es.map fun e => e.handed.contribution cfg) := by
    intro vars' hvars
    have hall := represents_handleAll (represents_empty cfg.valueDelimiter) hvars
    rwa [List.nil_append, List.map_map] at hall
  constructor
  · intro hvars
    exact ⟨hsome.mp (Option.isSome_of_eq_some hvars), toList_of_represents (hrepresents hvars)⟩
  · rintro ⟨hgood, hperm⟩
    obtain ⟨vars', hvars⟩ := Option.isSome_iff_exists.mp (hsome.mpr hgood)
    rw [hvars, Std.ExtTreeMap.ext_toList
      ((toList_of_represents (hrepresents hvars)).trans hperm.symm)]

section Loading

variable (cfg : FileCfg) {contents : CString}
  (hlines : Ini.ShortLines Ini.maxLine contents.bytes) (hlength : contents.bytes.length < 2 ^ 31)
include hlines hlength

/-- A file is loaded if no line is malformed, by the calls of the handler for its lines. -/
theorem fileParseIni_parsed_iff (vars : Variables) :
    fileParseIni cfg contents = .parsed vars ↔
      Ini.beforeMalformed true false (Ini.textLines contents.bytes) = none ∧
        handleAll cfg ∅ ((Ini.entries contents.bytes).map IniEntry.handed) = some vars := by
  have hread := Ini.readText_of_short hlength
  have hreads : Ini.Reads Ini.maxLine contents.bytes (Ini.readLines Ini.maxLine
      (contents.bytes.length + 1) contents.bytes) := Ini.reads_readLines (Nat.lt_succ_self _)
  have hcalls : Ini.Context.init.calls (Ini.readLines Ini.maxLine (contents.bytes.length + 1)
      contents.bytes) = (Ini.entries contents.bytes).map IniEntry.handed := by
    have hknows : Ini.Knows .init .empty .empty := ⟨rfl, rfl⟩
    rw [Ini.calls_eq_handed hknows]
    exact congrArg (List.map IniEntry.handed) (Ini.entriesFrom_reads hreads hlines _ _ _)
  rw [handleAll_eq_callAll, ← hcalls]
  unfold fileParseIni
  rw [show contents.bytes.take (Ini.streamLeft contents) = contents.bytes from hread]
  constructor
  · intro h
    simp only at h
    split at h
    · cases h
    · rename_i rc vars' hrun
      obtain ⟨st, hparse, heq⟩ := Option.map_eq_some_iff.mp hrun
      cases heq
      split at h
      · rename_i hzero
        cases h
        obtain ⟨hcall, hafter⟩ := Ini.callAll_of_parseLines (c := .init)
          fileParseIniHandler_neverStops hparse hzero
        exact ⟨Ini.beforeMalformed_reads_none hreads hlines _ _ (Ini.after_isSome_iff.mp hafter),
          hcall⟩
      · cases h
  · rintro ⟨hnone, hcall⟩
    have hafter : (Ini.Context.init.after (Ini.readLines Ini.maxLine (contents.bytes.length + 1)
        contents.bytes)).isSome := by
      refine Ini.after_isSome_iff.mpr (Option.eq_none_iff_forall_ne_some.mpr fun before hbefore => ?_)
      obtain ⟨before', hbefore', -⟩ := Ini.beforeMalformed_reads hreads hlines _ _ hbefore
      exact absurd (hnone.symm.trans hbefore') (by simp)
    obtain ⟨c', hrun⟩ := Ini.parseLines_of_after fileParseIniHandler_neverStops hafter hcall
    have hstream : Ini.parseStream (fileParseIniHandler cfg) ∅ contents.bytes = some (0, vars) :=
      congrArg (Option.map _) hrun
    simp only [hstream, if_true]

/-- **The files that are loaded are the INI documents** whose names are good, and they are loaded as
one variable for each name, with the values that are given to it. Sections, and names whose values
go on, are cut to the buffers of the parser when they are handed over. -/
theorem ini_loads_documents (vars : Variables) :
    fileParseIni cfg contents = .parsed vars ↔ ∃ es, Ini.Document contents.bytes es ∧
      (∀ e ∈ es, 0 < (e.handed.flat cfg).asprintf) ∧
        vars.toList.Perm (((es.map fun e => e.handed.contribution cfg).map Prod.fst).dedup.map
          fun name => (name, joinValues cfg.valueDelimiter
            (valuesAt name (es.map fun e => e.handed.contribution cfg)))) := by
  rw [fileParseIni_parsed_iff cfg hlines hlength]
  constructor
  · rintro ⟨hnone, hvars⟩
    exact ⟨_, Ini.document_entries hnone, (handled_iff cfg _ vars).mp hvars⟩
  · rintro ⟨es, hdocument, hes⟩
    obtain ⟨rfl, hnone⟩ := Ini.entries_document hdocument
    exact ⟨hnone, (handled_iff cfg _ vars).mpr hes⟩

end Loading

/-- `[s]`, `a = 1 ;x` and, indented, `2`: the variable `s:a` has both values. -/
theorem ini_loads_documents_continued :
    ∃ vars, fileParseIni ⟨.ofString ":", .ofString ","⟩ (.ofString "[s]\na = 1 ;x\n 2") =
        .parsed vars ∧ vars.toList = [(.ofString "s:a", .ofString "1,2")] := by
  have hspace : Ini.Blank [] := by decide
  have hblank : Ini.Blank [32] := by decide
  have hname : Ini.Name [97] :=
    ⟨by decide, List.forall_mem_singleton.mpr (by decide), by decide, by rintro c ⟨⟩; decide⟩
  have hvalue : Ini.Value true [49] := ⟨by decide, by decide⟩
  have htail : Ini.Tail [32, 59, 120] := .comment (w := []) (c := 32) hspace (by decide) [120]
  have hone : Ini.Written false [97, 32, 61, 32, 49, 32, 59, 120] (.pair [97] [49]) :=
    .pair (w := []) hspace (fun _ => rfl) hname hblank nofun (.inl rfl) hblank hvalue htail
  have hmore : Ini.Value false [50] := ⟨by decide, by decide⟩
  have htwo : Ini.Written true [32, 50] (.continuation [50]) :=
    .continuation hblank (by decide) hmore ⟨50, [], rfl, by decide⟩ (.blank hspace)
  have hplain : 93 ∉ [(115 : UInt8)] ∧ Ini.Uncommented false [115] := by decide
  have hheader : Ini.Written false [91, 115, 93] (.header [115]) :=
    .header (w := []) hspace (fun _ => rfl) hplain.1 hplain.2 []
  have hlines : Ini.Lines .empty .empty
      [[91, 115, 93], [97, 32, 61, 32, 49, 32, 59, 120], [32, 50]]
      [⟨.ofBytes [115], .ofBytes [97], .ofBytes [49], false⟩,
        ⟨.ofBytes [115], .ofBytes [97], .ofBytes [50], true⟩] :=
    .header hheader (.pair hone (.continuation htwo .nil))
  have htext : Ini.textLines (CString.ofString "[s]\na = 1 ;x\n 2").bytes =
      [[91, 115, 93], [97, 32, 61, 32, 49, 32, 59, 120], [32, 50]] := by decide +kernel
  rw [← htext] at hlines
  have hdocument : Ini.Document (CString.ofString "[s]\na = 1 ;x\n 2").bytes _ :=
    .mk false (fun _ => by decide +kernel) hlines
  have hshort : Ini.ShortLines Ini.maxLine (CString.ofString "[s]\na = 1 ;x\n 2").bytes :=
    shortLines_of_length (by decide +kernel)
  have hload := ini_loads_documents ⟨.ofString ":", .ofString ","⟩ hshort (by decide +kernel)
    (.ofList [(.ofString "s:a", .ofString "1,2")] _)
  exact ⟨_, hload.mpr ⟨_, hdocument, by decide +kernel, by decide +kernel⟩, by decide +kernel⟩

end VmodCfg.File
