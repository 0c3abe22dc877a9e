import BracketLint.Proofs.Group.Anchors
import BracketLint.Proofs.Rule.ReportedGroups

/-!
The reports on groups in a strange context. The rule knows the position of a report and searches for
the group there. At the opening bracket of a group the search ends at that group, and no group opens at
a control keyword, so the words to ignore leave out exactly the braces that they stand in front of.
-/

namespace BracketLint

namespace Lines

variable {lines : Lines} {shape : Shape} {opened : Place}

/-- A word that is spelled on its line has its first byte there. -/
theorem Spells.isWordByte {word : Word} (h : lines.Spells word)
    (hhead : (Bytes.ofString word.text).head?.any Ascii.isWordByte = true) :
    (lines.text word.place.line)[word.place.column]?.any Ascii.isWordByte = true := by
  obtain ⟨rest, hrest⟩ := h
  rw [← List.head?_drop, ← hrest]
  cases hbytes : Bytes.ofString word.text with
  | nil =>
    rw [hbytes] at hhead
    cases hhead
  | cons b bytes =>
    rw [hbytes] at hhead
    exact hhead

/-- Control keywords start with a letter or an underscore. -/
theorem isWordByte_of_mem_bodyWords :
    ∀ word ∈ Verdict.bodyWords, (Bytes.ofString word).head?.any Ascii.isWordByte = true := by
  decide

/-- No control keyword is the name of an operator. -/
theorem operator_not_mem_bodyWords (symbol : String) : "operator" ++ symbol ∉ Verdict.bodyWords := by
  have hhead : ∀ word ∈ Verdict.bodyWords, word.toList.head? ≠ some 'o' := by decide
  intro hmem
  apply hhead _ hmem
  rw [String.toList_append]
  rfl

/-- A byte of a name stands where the word in front of a bracket is a control keyword. -/
theorem isWordByte_wordInFrontOf (h : (lines.wordInFrontOf shape opened).text ∈ Verdict.bodyWords) :
    let p := (lines.wordInFrontOf shape opened).place
    (lines.text p.line)[p.column]?.any Ascii.isWordByte = true := by
  intro p
  rcases lines.wordInFrontOf_cases shape opened with
    heq | ⟨-, heq | ⟨-, hoperator | ⟨hkeyword, heq⟩⟩⟩
  · have hspells : lines.Spells (lines.wordInFrontOf shape opened) := heq ▸ lines.spells_wordBefore _
    exact hspells.isWordByte (isWordByte_of_mem_bodyWords _ h)
  · have hspells : lines.Spells (lines.wordInFrontOf shape opened) :=
      heq ▸ lines.spells_nameInFrontOfAngles 0 0 _
    exact hspells.isWordByte (isWordByte_of_mem_bodyWords _ h)
  · obtain ⟨symbol, htext⟩ := exists_text_operatorName? hoperator
    exact absurd (htext ▸ h) (operator_not_mem_bodyWords symbol)
  · have hplace : p = _ := heq
    rw [hplace]
    refine (lines.spells_wordBefore _).isWordByte ?_
    rw [hkeyword]
    decide

end Lines

/-- No group opens at a byte of a name. -/
theorem GroupTree.WellNested.isWordByte_opened {lines : Lines} {tree : GroupTree}
    (hnested : tree.WellNested lines) {id : Nat} {group : Group}
    (hgroup : tree.group? id = some group) :
    (lines.text group.opened.line)[group.opened.column]?.any Ascii.isWordByte = false := by
  rcases Nat.eq_zero_or_pos id with rfl | hpos
  · obtain ⟨file, hfile, -, hopened, -⟩ := hnested.root
    obtain rfl := Option.some.inj (hgroup.symm.trans hfile)
    rw [hopened]
    rfl
  · have hbyte := (hnested.brackets id group hpos hgroup).1
    cases hopened : group.opened with
    | front => rfl
    | on line column =>
      rw [hopened, Lines.byteAt] at hbyte
      change (lines.text line)[column]?.any Ascii.isWordByte = false
      cases htext : (lines.text line)[column]? with
      | none => rfl
      | some b =>
        rw [htext, Option.getD_some] at hbyte
        split at hbyte
        · cases hshape : group.shape <;> rw [hshape] at hbyte <;> cases hbyte
        · rw [hbyte]
          cases group.shape <;> rfl

theorem Issue.eq_strangeBrace_of_isStrange {issue : Issue} (h : issue.isStrange = true) :
    ∃ context, issue = .strangeBrace context := by
  cases issue with
  | strangeBrace context => exact ⟨context, rfl⟩
  | _ => cases h

/-- What the decisions on the groups of a file report is a brace without a role, or the keyword in
front of misplaced parentheses. -/
theorem Record.exists_group_of_mem_diagnostics {lines : Lines} {d : Diagnostic} :
    let tree := (GroupTree.build lines).1
    let final := (start tree).classifyAll lines tree
    d ∈ final.diagnostics → ∃ id group,
      d.issue.isStrange = true ∧ final.unknownBrace? tree id = some group ∧
          group.opened = d.place ∨
        final.misplacedKeyword? tree id = some group ∧
          d = ⟨group.word.place, .keywordOutsideBody group.word.text⟩ := by
  intro tree final hd
  rw [diagnostics_classifyAll (asksBelow_build lines), List.mem_filterMap] at hd
  obtain ⟨id, hid, hreport⟩ := hd
  obtain ⟨hbrace, hkeyword⟩ := report_group lines (List.mem_range.mp hid)
  rw [hreport, Option.filter_some] at hbrace hkeyword
  cases hstrange : d.issue.isStrange with
  | true =>
    rw [if_pos hstrange, Option.map_some] at hbrace
    obtain ⟨group, hgroup, hplace⟩ := Option.map_eq_some_iff.mp hbrace.symm
    exact ⟨id, group, .inl ⟨rfl, hgroup, hplace⟩⟩
  | false =>
    rw [hstrange, Bool.not_false, if_pos rfl] at hkeyword
    obtain ⟨group, hgroup, heq⟩ := Option.map_eq_some_iff.mp hkeyword.symm
    exact ⟨id, group, .inr ⟨hgroup, heq.symm⟩⟩

theorem Record.group?_of_unknownBrace? {record : Record} {tree : GroupTree} {id : Nat} {group : Group}
    (h : record.unknownBrace? tree id = some group) : tree.group? id = some group :=
  (Option.filter_eq_some_iff.mp h).1

namespace Analysis

/-- Whether a report is about a brace without a role behind one of some words. -/
def isStrangeBehind (words : List String) (analysis : Analysis) (d : Diagnostic) : Bool :=
  d.issue.isStrange && (List.range analysis.tree.size).any fun id =>
    (analysis.record.unknownBrace? analysis.tree id).any fun group =>
      group.opened == d.place && words.contains group.word.text

theorem isStrangeBehind_iff {words : List String} {analysis : Analysis} {d : Diagnostic} :
    analysis.isStrangeBehind words d = true ↔ d.issue.isStrange = true ∧
      ∃ id group, analysis.record.unknownBrace? analysis.tree id = some group ∧
        group.opened = d.place ∧ group.word.text ∈ words := by
  simp only [isStrangeBehind, Bool.and_eq_true, List.any_eq_true, List.mem_range, Option.any_eq_true,
    beq_iff_eq, List.contains_iff_mem]
  refine and_congr_right fun _ => ⟨fun ⟨id, _, hid⟩ => ⟨id, hid⟩, ?_⟩
  rintro ⟨id, group, hbrace, hbehind⟩
  have hgroup := Record.group?_of_unknownBrace? hbrace
  exact ⟨id, GroupTree.lt_size_of_group? hgroup, group, hbrace, hbehind⟩

end Analysis

namespace Rule

variable (source : Bytes) (kind : FileKind) (options : ScrubOptions)

/-- The reports of the last stage are those of the decisions on groups. -/
theorem stageDiagnostics_classify :
    stageDiagnostics .classify (Analysis.ofSource source kind options) =
      (Analysis.ofSource source kind options).record.diagnostics := by
  have hparts : (Analysis.ofSource source kind options).diagnostics =
      (Lines.scrub source kind options).2 ++
        (GroupTree.build (Lines.scrub source kind options).1).2 ++
        (Analysis.ofSource source kind options).record.diagnostics := rfl
  have hscrub : (Lines.scrub source kind options).2.filter (·.stage == .classify) = [] := by
    rw [List.filter_eq_nil_iff]
    intro d hd
    rw [Lines.stage_of_mem_scrub hd]
    decide
  have hbuild : (GroupTree.build (Lines.scrub source kind options).1).2.filter
      (·.stage == .classify) = [] := by
    rw [List.filter_eq_nil_iff]
    intro d hd
    rw [Forest.stage_of_mem_ofBrackets hd]
    decide
  rw [stageDiagnostics, hparts, List.filter_append, List.filter_append, hscrub, hbuild,
    List.nil_append, List.nil_append, List.filter_eq_self]
  intro d hd
  obtain ⟨id, group, ⟨hstrange, -⟩ | ⟨-, rfl⟩⟩ := Record.exists_group_of_mem_diagnostics hd
  · obtain ⟨context, hissue⟩ := Issue.eq_strangeBrace_of_isStrange hstrange
    rw [Diagnostic.stage, hissue]
    rfl
  · rfl

variable {source kind options} {analysis : Analysis} {words : List String} {d : Diagnostic}

theorem isIgnored_iff : isIgnored words analysis d = true ↔
    ∃ group, analysis.tree.group? (analysis.tree.groupAt d.place) = some group ∧
      group.opened = d.place ∧ group.word.text ∈ words := by
  simp only [isIgnored, Bool.and_eq_true, Option.any_eq_true, beq_iff_eq, List.contains_iff_mem,
    Bool.not_eq_true', List.isEmpty_eq_false_iff]
  refine ⟨fun h => h.2, fun ⟨group, hgroup, hplace, hword⟩ => ⟨?_, group, hgroup, hplace, hword⟩⟩
  exact List.ne_nil_of_mem hword

/-- No group opens at a keyword that is reported. -/
theorem opened_ne_of_misplacedKeyword? {lines : Lines} {record : Record} {id id' : Nat}
    {group other : Group} (hkeyword : record.misplacedKeyword? (GroupTree.build lines).1 id = some group)
    (hother : (GroupTree.build lines).1.group? id' = some other) :
    other.opened ≠ group.word.place := by
  obtain ⟨hgroup, htraits⟩ := Option.filter_eq_some_iff.mp hkeyword
  rw [Bool.and_eq_true, Bool.and_eq_true, List.contains_iff_mem, Option.any_eq_true] at htraits
  obtain ⟨⟨-, hword⟩, parent, hparent, -⟩ := htraits
  have hanchor := (GroupTree.anchors_of_group? lines hgroup hparent).1
  rw [hanchor] at hword
  have hbyte := Lines.isWordByte_wordInFrontOf hword
  rw [← hanchor] at hbyte
  intro heq
  have hnested : (GroupTree.build lines).1.WellNested lines :=
    GroupTree.wellNested_ofForest (Forest.word_ofBrackets_sublist _) (Forest.height_ofBrackets_le _)
  have hnone := hnested.isWordByte_opened hother
  rw [heq, hbyte] at hnone
  cases hnone

/-- The rule ignores the reports on strange braces behind one of its words, and no others. -/
theorem isIgnored_eq
    (hd : d ∈ stageDiagnostics .classify (Analysis.ofSource source kind options)) :
    isIgnored words (Analysis.ofSource source kind options) d =
      (Analysis.ofSource source kind options).isStrangeBehind words d := by
  have hnested := Analysis.wellNested_ofSource source kind options
  have hordered := Analysis.ordered_children_ofSource source kind options
  rw [stageDiagnostics_classify] at hd
  rw [Bool.eq_iff_iff, isIgnored_iff, Analysis.isStrangeBehind_iff]
  obtain ⟨id, group, ⟨hstrange, hbrace, hplace⟩ | ⟨hkeyword, rfl⟩⟩ :=
    Record.exists_group_of_mem_diagnostics hd
  · have hgroup := Record.group?_of_unknownBrace? hbrace
    constructor
    · rintro ⟨found, hfound, hopened, hword⟩
      -- The search ends at the group of the brace.
      rw [← hplace, hnested.groupAt_opened hordered hgroup] at hfound
      obtain rfl := Option.some.inj (hgroup.symm.trans hfound)
      exact ⟨hstrange, id, group, hbrace, hopened, hword⟩
    · rintro ⟨-, id', group', hbrace', hopened, hword⟩
      have hgroup' := Record.group?_of_unknownBrace? hbrace'
      have hfound := hnested.groupAt_opened hordered hgroup'
      rw [hopened] at hfound
      exact ⟨group', hfound ▸ hgroup', hopened, hword⟩
  · constructor
    · rintro ⟨found, hfound, hopened, -⟩
      exact absurd hopened (opened_ne_of_misplacedKeyword? hkeyword hfound)
    · rintro ⟨hstrange, -⟩
      cases hstrange

/-- A report on a strange brace is a warning, and only one brace opens at it. -/
theorem existsUnique_of_isStrange
    (hd : d ∈ stageDiagnostics .classify (Analysis.ofSource source kind options))
    (hstrange : d.issue.isStrange = true) :
    let analysis := Analysis.ofSource source kind options
    d.severity = .warning ∧ ∃! id, ∃ group,
      analysis.record.unknownBrace? analysis.tree id = some group ∧ group.opened = d.place := by
  rw [stageDiagnostics_classify] at hd
  obtain ⟨id, group, ⟨-, hbrace, hplace⟩ | ⟨-, rfl⟩⟩ := Record.exists_group_of_mem_diagnostics hd
  · obtain ⟨context, hissue⟩ := Issue.eq_strangeBrace_of_isStrange hstrange
    refine ⟨by rw [Diagnostic.severity, hissue]; rfl, id, ⟨group, hbrace, hplace⟩, ?_⟩
    rintro id' ⟨group', hbrace', hplace'⟩
    exact (Analysis.wellNested_ofSource source kind options).opened_injective
      (Record.group?_of_unknownBrace? hbrace') (Record.group?_of_unknownBrace? hbrace)
      (hplace'.trans hplace.symm)
  · cases hstrange

/-- All other reports of the last stage are errors about keywords. -/
theorem eq_keyword_of_not_isStrange
    (hd : d ∈ stageDiagnostics .classify (Analysis.ofSource source kind options))
    (hkeyword : d.issue.isStrange = false) :
    d.severity = .error ∧ ∃ word, d.issue = .keywordOutsideBody word := by
  rw [stageDiagnostics_classify] at hd
  obtain ⟨id, group, ⟨hstrange, -⟩ | ⟨-, rfl⟩⟩ := Record.exists_group_of_mem_diagnostics hd
  · rw [hkeyword] at hstrange
    cases hstrange
  · exact ⟨rfl, _, rfl⟩

/-- The rule about strange contexts reports what the last stage found, in its order, except for the
braces behind one of its words. Every report on a strange brace tells the one brace that it is about,
and every other report is an error about a keyword, which no word leaves out. -/
theorem check_strangeContext (path root : Path) (content : Bytes) (options : ScrubOptions)
    (allow : Bool) (words : List String)
    (hfile : (allow && (FileContext.ofFile path root content).kind.isTest) = false) :
    let file := FileContext.ofFile path root content
    let analysis := Analysis.ofSource content file.kind options
    let rule := strangeContext allow words
    let found := stageDiagnostics .classify analysis
    rule.check file analysis =
        (found.filter fun d => !analysis.isStrangeBehind words d).map (ofDiagnostic rule file) ∧
      (∀ d ∈ found, d.issue.isStrange = true → d.severity = .warning ∧ ∃! id, ∃ group,
        analysis.record.unknownBrace? analysis.tree id = some group ∧ group.opened = d.place) ∧
      (∀ d ∈ found, d.issue.isStrange = false →
        d.severity = .error ∧ ∃ word, d.issue = .keywordOutsideBody word) ∧
      (rule.check file analysis).filter (·.severity == .error) =
        (found.filter (!·.issue.isStrange)).map (ofDiagnostic rule file) := by
  intro file analysis rule found
  have hcheck : rule.check file analysis =
      (found.filter fun d => !analysis.isStrangeBehind words d).map (ofDiagnostic rule file) := by
    have hfilter : (found.filter fun d => !isIgnored words analysis d) =
        found.filter fun d => !analysis.isStrangeBehind words d :=
      List.filter_congr fun d hd => congrArg (!·) (isIgnored_eq hd)
    have hnotSkipped : (rule.allowsInTests && file.kind.isTest) = false := hfile
    rw [check, hnotSkipped, if_neg Bool.false_ne_true, ← hfilter]
    rfl
  refine ⟨hcheck, fun d => existsUnique_of_isStrange, fun d => eq_keyword_of_not_isStrange, ?_⟩
  rw [hcheck, List.filter_map, List.filter_filter]
  refine congrArg (List.map _) (List.filter_congr fun d hd => ?_)
  change (d.severity == .error && !analysis.isStrangeBehind words d) = !d.issue.isStrange
  cases hstrange : d.issue.isStrange with
  | true =>
    rw [(existsUnique_of_isStrange hd hstrange).1]
    rfl
  | false =>
    rw [(eq_keyword_of_not_isStrange hd hstrange).1, Analysis.isStrangeBehind, hstrange]
    rfl

/-- Braces without a role, and a control keyword outside of all routines. -/
def misplacedText : Bytes := Bytes.ofString "+\x7b\x7dif(x)"

/-- With its own word and the empty word ignored, the keyword is still reported, but not the braces. -/
theorem check_strangeContext_misplaced :
    let file := FileContext.ofFile ⟨"/m.cpp"⟩ ⟨"/"⟩ misplacedText
    let rule := strangeContext false ["", "if"]
    rule.check file (Analysis.ofSource misplacedText file.kind {}) =
      [ofDiagnostic rule file ⟨.on 1 3, .keywordOutsideBody "if"⟩] := by
  intro file rule
  have hleft : (stageDiagnostics .classify (Analysis.ofSource misplacedText file.kind {})).filter
      (fun d => !(Analysis.ofSource misplacedText file.kind {}).isStrangeBehind ["", "if"] d) =
        [⟨.on 1 3, .keywordOutsideBody "if"⟩] := by decide +kernel
  rw [(check_strangeContext ⟨"/m.cpp"⟩ ⟨"/"⟩ misplacedText {} false ["", "if"] rfl).1, hleft]
  rfl

end Rule
end BracketLint
