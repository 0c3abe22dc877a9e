import BracketLint.Proofs.Analysis.Locations
import BracketLint.Proofs.Lines.WordPlaces

/-!
Where an analysis reports. The matching of brackets reports at brackets, and the decisions on groups
report at their opening brackets and at the words in front of them, so with what scrubbing reports
everything stands on the lines of the file.
-/

namespace BracketLint

namespace Verdict

/-- A report about a group stands at its opening bracket or at the word in front of it. -/
theorem place_of_report {lines : Lines} {tree : GroupTree} {id : Nat} (kindOf : Nat → GroupKind)
    {d : Diagnostic} (h : ((inquiry lines tree id).value kindOf).report = some d) :
    ∃ group parent, tree.group? id = some group ∧ group.parent = some parent ∧
      (d.place = group.opened ∨ d.place = group.word.place ∧ group.word.text ≠ "") := by
  cases hgroup : tree.group? id with
  | none =>
    rw [inquiry, hgroup] at h
    cases h
  | some group =>
    cases hparent : group.parent with
    | none =>
      rw [value_inquiry_of_root kindOf hgroup hparent] at h
      cases h
    | some parent =>
      refine ⟨group, parent, rfl, hparent, ?_⟩
      rw [report_inquiry kindOf hgroup hparent, reportOn] at h
      split at h
      · split_ifs at h with hword
        cases h
        refine Or.inr ⟨rfl, fun hempty => ?_⟩
        rw [hempty] at hword
        cases hword
      · split_ifs at h
        cases h
        exact Or.inl rfl

end Verdict

section Build

variable (raws : List Bytes) (kind : FileKind) (options : ScrubOptions)

theorem GroupTree.standsOn_of_mem_build {d : Diagnostic}
    (hd : d ∈ (build (Lines.ofRawLines raws kind options).1).2) : d.place.StandsOn raws 1 :=
  Lines.standsOn_of_isBracket (Issue.isSome_ofByte? (isAbout_of_mem_build _ hd))

theorem Record.standsOn_of_mem_diagnostics {d : Diagnostic}
    (hd : d ∈ ((start (GroupTree.build (Lines.ofRawLines raws kind options).1).1).classifyAll
      (Lines.ofRawLines raws kind options).1
      (GroupTree.build (Lines.ofRawLines raws kind options).1).1).diagnostics) :
    d.place.StandsOn raws 1 := by
  obtain ⟨id, hreport⟩ := (coherent_classifyAll _).1.exists_of_mem_diagnostics hd
  rw [ofGroup_build] at hreport
  obtain ⟨group, parent, hgroup, hparent, hplace⟩ := Verdict.place_of_report _ hreport
  have hopened : (Bracket.ofByte? ((Lines.ofRawLines raws kind options).1.byteAt
      group.opened)).isSome = true := by
    rw [(GroupTree.byteAt_of_group? _ hgroup hparent).1]
    cases group.shape <;> rfl
  rcases hplace with hplace | ⟨hplace, hword⟩
  · rw [hplace]
    exact Lines.standsOn_of_isBracket hopened
  · rw [(GroupTree.anchors_of_group? _ hgroup hparent).1] at hplace hword
    rw [hplace]
    exact Lines.standsOn_wordInFrontOf hopened hword

end Build

namespace Rule

variable {rule : Rule} {file : FileContext} {analysis : Analysis} {id limit : Nat}
  {severity : Severity} {v : Violation}

theorem exists_group_of_longRoutine?
    (h : longRoutine? limit severity rule file analysis id = some v) :
    ∃ group, analysis.tree.group? id = some group ∧ analysis.kind id = .routineBody ∧
      v.location = file.location group.opened ∧ v.rule = rule.name ∧ v.severity = severity := by
  obtain ⟨group, hgroup, h⟩ := Option.bind_eq_some_iff.mp h
  split at h
  · cases h
  next hkind =>
  split at h
  · cases h
  cases h
  simp only [Bool.or_eq_true, bne_iff_ne, not_or, not_not] at hkind
  exact ⟨group, hgroup, hkind.1, rfl, rfl, rfl⟩

theorem exists_group_of_deepBlock? (h : deepBlock? limit severity rule file analysis id = some v) :
    ∃ group, analysis.tree.group? id = some group ∧ analysis.kind id = .codeBody ∧
      v.location = file.location group.opened ∧ v.rule = rule.name ∧ v.severity = severity := by
  obtain ⟨group, hgroup, h⟩ := Option.bind_eq_some_iff.mp h
  split at h
  · cases h
  next hkind =>
  obtain ⟨depth, -, h⟩ := Option.bind_eq_some_iff.mp h
  split at h
  · cases h
  cases h
  exact ⟨group, hgroup, by simpa only [bne_iff_ne, not_not] using hkind, rfl, rfl, rfl⟩

end Rule

/-- What the rules read positions of stands on some lines: the reports, and the brackets of the groups
that hold statements. -/
structure Analysis.StandsOn (raws : List Bytes) (analysis : Analysis) : Prop where
  found : ∀ d ∈ analysis.diagnostics, d.place.StandsOn raws 1
  body : ∀ {id : Nat} {group : Group}, (analysis.kind id).isExecutable = true →
    analysis.tree.group? id = some group →
      group.opened.StandsOn raws 1 ∧ group.closed.StandsOn raws 1

theorem Analysis.standsOn_ofSource (source : Bytes) (kind : FileKind) (options : ScrubOptions) :
    (ofSource source kind options).StandsOn (Bytes.lines source.dropByteOrderMark) := by
  refine ⟨fun d hd => ?_, fun hexecutable hgroup => ?_⟩
  · have hparts : (ofSource source kind options).diagnostics =
        (Lines.scrub source kind options).2 ++
          (GroupTree.build (Lines.scrub source kind options).1).2 ++
          (ofSource source kind options).record.diagnostics := rfl
    rw [hparts, List.mem_append, List.mem_append] at hd
    rcases hd with (hd | hd) | hd
    · exact Lines.standsOn_of_mem_ofRawLines hd
    · exact GroupTree.standsOn_of_mem_build _ kind options hd
    · exact Record.standsOn_of_mem_diagnostics _ kind options hd
  · obtain ⟨group, hgroup', hopened, hclosed⟩ := Record.byteAt_of_isExecutable _ hexecutable
    obtain rfl := Option.some.inj (hgroup.symm.trans hgroup')
    have hbrace {p : Place} {b : UInt8} (hp : (Lines.scrub source kind options).1.byteAt p = b)
        (hb : (Bracket.ofByte? b).isSome = true) :
        p.StandsOn (Bytes.lines source.dropByteOrderMark) 1 := by
      subst hp
      exact Lines.standsOn_of_isBracket hb
    exact ⟨hbrace hopened (by decide), hbrace hclosed (by decide)⟩

/-- The location of a violation is that of a position on a line. -/
theorem Rule.exists_place_of_mem_check {raws : List Bytes} {rule : Rule} {file : FileContext}
    {analysis : Analysis} (hstands : analysis.StandsOn raws) {v : Violation}
    (hv : v ∈ rule.check file analysis) :
    ∃ p : Place, v.location = file.location p ∧ p.StandsOn raws 1 := by
  have hmem := mem_violations_of_mem_check hv
  cases rule with
  | bracketStructure | sourceHygiene _ =>
    obtain ⟨d, hd, rfl⟩ := List.mem_map.mp hmem
    exact ⟨d.place, rfl, hstands.found d (List.mem_of_mem_filter hd)⟩
  | strangeContext _ _ =>
    obtain ⟨d, hd, rfl⟩ := List.mem_map.mp hmem
    exact ⟨d.place, rfl, hstands.found d (List.mem_of_mem_filter (List.mem_of_mem_filter hd))⟩
  | routineLength maxLines _ severity =>
    obtain ⟨id, -, hid⟩ := List.mem_filterMap.mp hmem
    obtain ⟨group, hgroup, hkind, hlocation, -, -⟩ := exists_group_of_longRoutine? hid
    exact ⟨group.opened, hlocation, (hstands.body (by rw [hkind]; rfl) hgroup).1⟩
  | nestingDepth maxDepth _ severity =>
    obtain ⟨id, -, hid⟩ := List.mem_filterMap.mp hmem
    obtain ⟨group, hgroup, hkind, hlocation, -, -⟩ := exists_group_of_deepBlock? hid
    exact ⟨group.opened, hlocation, (hstands.body (by rw [hkind]; rfl) hgroup).1⟩

end BracketLint
