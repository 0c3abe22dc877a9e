import Mathlib.Data.List.Basic
import BracketLint.Proofs.Group.OnDemand
import BracketLint.Proofs.Place

/-!
What the decisions on the groups of a file report. The decision on a group reports at most once:
braces are reported if no rule explains them, and parentheses behind a control keyword if they stand
among declarations. All groups together report in the order of their numbers.
-/

namespace BracketLint

open scoped Place

/-- Whether the cause is a brace that no rule explains. -/
def Issue.isStrange : Issue → Bool
  | strangeBrace _ => true
  | _ => false

namespace Verdict

/-- The words in front of parentheses that only make sense among statements. -/
def bodyWords : List String := ["if", "while", "for", "switch", "catch", "__except"]

/-- What there is to report about a group in brackets, by its role and the role of the group around
it. -/
def reportOn (lines : Lines) (group : Group) (kind around : GroupKind) : Option Diagnostic :=
  match group.shape with
  | .paren =>
    if bodyWords.contains group.word.text && around.isDeclarationScope then
      some ⟨group.word.place, .keywordOutsideBody group.word.text⟩
    else none
  | .brace =>
    if kind == .unknown then
      some ⟨group.opened, .strangeBrace (strangeContext group (byteBeforeWord lines group).1)⟩
    else none

/-- The control keywords are the words whose role belongs among statements. -/
theorem any_belongsToBody_keywordKind? (word : String) :
    (keywordKind? word).any belongsToBody = bodyWords.contains word := by
  unfold keywordKind?
  split
  -- The last case is any other word, whose role in expressions is at home everywhere.
  case h_12 =>
    have hword : bodyWords.contains word = false := by simp_all [bodyWords]
    rw [hword]
    split <;> rfl
  all_goals rfl

theorem ne_unknown_of_keywordKind? {word : String} {kind : GroupKind}
    (h : keywordKind? word = some kind) : kind ≠ .unknown := by
  rintro rfl
  unfold keywordKind? at h
  split at h
  case h_12 => split at h <;> cases h
  all_goals cases h

theorem declarationKind_ne_unknown {lines : Lines} {tree : GroupTree} {id : Nat} {group : Group} :
    declarationKind lines tree id group ≠ .unknown := by
  rw [declarationKind]
  split_ifs <;> exact GroupKind.noConfusion

section Decision

variable {lines : Lines} {tree : GroupTree} {id parent : Nat} {group : Group}
  (kindOf : Nat → GroupKind)

theorem report_ofParens (hshape : group.shape = .paren) (kind : GroupKind) :
    ((ofParens lines tree id parent group).value kindOf).report =
      reportOn lines group kind (kindOf parent) := by
  have hbody := any_belongsToBody_keywordKind? group.word.text
  rw [reportOn, hshape, ofParens]
  dsimp only
  cases hkeyword : keywordKind? group.word.text with
  | some own =>
    rw [hkeyword, Option.any_some] at hbody
    dsimp only
    rw [← hbody]
    cases belongsToBody own <;> rfl
  | none =>
    rw [hkeyword, Option.any_none] at hbody
    dsimp only
    rw [← hbody, Bool.false_and, if_neg Bool.false_ne_true]
    split <;> rfl

theorem around_eq_unknown_of_ofParens
    (h : ((ofParens lines tree id parent group).value kindOf).kind = .unknown) :
    kindOf parent = .unknown := by
  rw [ofParens] at h
  split at h
  · next own hkeyword =>
    have hne := ne_unknown_of_keywordKind? hkeyword
    split_ifs at h
    · exact absurd h hne
    · exact absurd h hne
  · split at h
    · cases h
    · simp only [Inquiry.value] at h
      split_ifs at h with hunknown
      · exact beq_iff_eq.mp hunknown
      · exact absurd h declarationKind_ne_unknown

theorem head_ne_unknown {around : GroupKind} {verdict : Verdict}
    (h : ofBraceHead? lines tree parent group around = some verdict) :
    verdict.kind ≠ .unknown ∧ verdict.report = none := by
  unfold ofBraceHead? at h
  dsimp only at h
  repeat' split at h
  all_goals cases h
  all_goals exact ⟨GroupKind.noConfusion, rfl⟩

theorem bodyBehind?_ne_unknown {kind body : GroupKind} (h : bodyBehind? kind = some body) :
    body ≠ .unknown := by
  rintro rfl
  cases kind <;> cases h

theorem report_ofBareBrace (hshape : group.shape = .brace) (around outer : GroupKind) :
    (ofBareBrace lines group around).report =
      reportOn lines group (ofBareBrace lines group around).kind outer := by
  rw [reportOn, hshape, ofBareBrace]
  dsimp only
  split_ifs <;> simp_all

/-- Braces are reported exactly if they have no role. -/
theorem report_ofBraces (hshape : group.shape = .brace) (outer : GroupKind) :
    ((ofBraces lines tree id parent group).value kindOf).report =
      reportOn lines group ((ofBraces lines tree id parent group).value kindOf).kind outer := by
  -- A role, wherever it comes from, leaves nothing to report.
  have hknown {kind : GroupKind} (h : kind ≠ .unknown) : reportOn lines group kind outer = none := by
    rw [reportOn, hshape]
    exact if_neg (by rwa [beq_iff_eq])
  rw [ofBraces, Inquiry.value]
  cases hhead : ofBraceHead? lines tree parent group (kindOf parent) with
  | some verdict =>
    obtain ⟨hkind, hreport⟩ := head_ne_unknown hhead
    exact hreport.trans (hknown hkind).symm
  | none =>
    dsimp only
    split
    · exact report_ofBareBrace hshape _ outer
    · next sibling _ =>
      rw [Inquiry.value]
      cases hbody : bodyBehind? (kindOf sibling) with
      | some body => exact (hknown (bodyBehind?_ne_unknown hbody)).symm
      | none => exact report_ofBareBrace hshape _ outer

theorem value_inquiry_of_root (hgroup : tree.group? id = some group) (hroot : group.parent = none) :
    (inquiry lines tree id).value kindOf = { kind := .file } := by
  rw [inquiry, hgroup]
  dsimp only
  rw [hroot]
  rfl

theorem report_inquiry (hgroup : tree.group? id = some group) (hparent : group.parent = some parent) :
    ((inquiry lines tree id).value kindOf).report =
      reportOn lines group ((inquiry lines tree id).value kindOf).kind (kindOf parent) := by
  rw [inquiry, hgroup]
  dsimp only
  rw [hparent]
  dsimp only
  cases hshape : group.shape with
  | paren => exact report_ofParens kindOf hshape _
  | brace => exact report_ofBraces kindOf hshape _

/-- A group without a role is a brace, or it stands in a group without a role. -/
theorem brace_or_around_of_unknown (hgroup : tree.group? id = some group)
    (hparent : group.parent = some parent)
    (h : ((inquiry lines tree id).value kindOf).kind = .unknown) :
    group.shape = .brace ∨ kindOf parent = .unknown := by
  rw [inquiry, hgroup] at h
  dsimp only at h
  rw [hparent] at h
  dsimp only at h
  cases hshape : group.shape with
  | brace => exact Or.inl rfl
  | paren =>
    rw [hshape] at h
    exact Or.inr (around_eq_unknown_of_ofParens kindOf h)

end Decision
end Verdict

namespace Record

section Order

variable {lines : Lines} {tree : GroupTree}

/-- A record right after the first groups of a tree were decided: it holds their verdicts and no
others, and it has reported what they report, in their order. -/
structure Filled (lines : Lines) (tree : GroupTree) (count : Nat) (record : Record) : Prop where
  size_eq : record.verdicts.size = tree.size
  verdict_eq : ∀ id < count, record.verdict? id = some (Verdict.ofGroup lines tree id)
  none_of_le : ∀ id, count ≤ id → record.verdict? id = none
  reported_eq : record.reported =
    ((List.range count).filterMap fun id => (Verdict.ofGroup lines tree id).report).reverse

theorem filled_start : (start tree).Filled lines tree 0 where
  size_eq := (coherent_start lines tree).size_eq
  verdict_eq _ h := absurd h (Nat.not_lt_zero _)
  none_of_le id _ := by
    cases hverdict : (start tree).verdict? id with
    | none => rfl
    | some verdict =>
      rw [verdict?_eq_some, start, Array.getElem?_replicate] at hverdict
      split at hverdict <;> cases hverdict
  reported_eq := rfl

/-- An inquiry about groups that are decided is answered from the record, which stays as it is. -/
theorem Filled.resolve_eq {count : Nat} {record : Record} (hfilled : record.Filled lines tree count)
    (inquiry : Inquiry Verdict) (hbelow : inquiry.AsksBelow count) :
    resolve count (fun id _ record => classify lines tree id record) inquiry record =
      (inquiry.value (Verdict.kindOfGroup lines tree), record) := by
  induction inquiry with
  | answer verdict => rfl
  | ask id proceed ih =>
    obtain ⟨hid, hbelow⟩ := hbelow
    have hclassify : classify lines tree id record = (Verdict.kindOfGroup lines tree id, record) := by
      rw [classify, hfilled.verdict_eq id hid]
      rfl
    rw [resolve, dif_pos hid, hclassify]
    exact ih _ (hbelow _)

variable (hasks : ∀ id, (Verdict.inquiry lines tree id).AsksBelow id)
include hasks

theorem Filled.classify_next {count : Nat} {record : Record}
    (hfilled : record.Filled lines tree count) (hcount : count < tree.size) :
    (classify lines tree count record).2.Filled lines tree (count + 1) := by
  -- No entry for the group yet, and all that it asks about is decided.
  have hclassify : (classify lines tree count record).2 =
      record.keep count (Verdict.ofGroup lines tree count) := by
    rw [classify, hfilled.none_of_le count (Nat.le_refl _)]
    dsimp only
    rw [hfilled.resolve_eq _ (hasks count), ofGroup_eq hasks]
  rw [hclassify]
  refine ⟨size_keep.trans hfilled.size_eq, fun id hid => ?_, fun id hid => ?_, ?_⟩
  · rcases Nat.lt_succ_iff_lt_or_eq.mp hid with hlt | rfl
    · rw [verdict?_keep_of_ne (Nat.ne_of_lt hlt), hfilled.verdict_eq id hlt]
    · exact verdict?_keep_self (hfilled.size_eq ▸ hcount)
  · rw [verdict?_keep_of_ne (Nat.ne_of_gt hid), hfilled.none_of_le id (Nat.le_of_succ_le hid)]
  -- The newest report goes in front, as the list is kept in reverse.
  · rw [keep, hfilled.reported_eq, List.range_succ, List.filterMap_append, List.reverse_append]
    cases hreport : (Verdict.ofGroup lines tree count).report <;> simp [hreport]

theorem filled_classifyEach {count : Nat} (hcount : count ≤ tree.size) :
    (classifyEach lines tree (List.range count) (start tree)).Filled lines tree count := by
  induction count with
  | zero => exact filled_start
  | succ count ih =>
    rw [List.range_succ, classifyEach, List.foldl_append]
    exact (ih (Nat.le_of_succ_le hcount)).classify_next hasks hcount

/-- If all groups are decided, each of them reports once, in the order of their numbers. -/
theorem diagnostics_classifyAll :
    ((start tree).classifyAll lines tree).diagnostics =
      (List.range tree.size).filterMap fun id => (Verdict.ofGroup lines tree id).report := by
  have hfilled := filled_classifyEach hasks (Nat.le_refl tree.size)
  rw [diagnostics, classifyAll, hfilled.reported_eq, List.reverse_reverse]

theorem kind_classifyAll {id : Nat} (hid : id < tree.size) :
    ((start tree).classifyAll lines tree).kind id = Verdict.kindOfGroup lines tree id := by
  have hfilled := filled_classifyEach hasks (Nat.le_refl tree.size)
  rw [kind, classifyAll, hfilled.verdict_eq id hid]
  rfl

end Order

/-- The group with a number, if it is a brace without a role. -/
def unknownBrace? (record : Record) (tree : GroupTree) (id : Nat) : Option Group :=
  (tree.group? id).filter fun group => group.shape == .brace && record.kind id == .unknown

/-- The group with a number, if it is in parentheses behind a control keyword and stands among
declarations. -/
def misplacedKeyword? (record : Record) (tree : GroupTree) (id : Nat) : Option Group :=
  (tree.group? id).filter fun group =>
    group.shape == .paren && Verdict.bodyWords.contains group.word.text &&
      group.parent.any fun parent => (record.kind parent).isDeclarationScope

section Build

variable (lines : Lines)

theorem asksBelow_build (id : Nat) :
    (Verdict.inquiry lines (GroupTree.build lines).1 id).AsksBelow id :=
  Verdict.asksBelow_inquiry lines _ _ id

theorem ofGroup_build (id : Nat) :
    Verdict.ofGroup lines (GroupTree.build lines).1 id =
      (Verdict.inquiry lines (GroupTree.build lines).1 id).value
        (Verdict.kindOfGroup lines (GroupTree.build lines).1) :=
  ofGroup_eq (asksBelow_build lines) id

theorem kind_build {id : Nat} (hid : id < (GroupTree.build lines).1.size) :
    ((start (GroupTree.build lines).1).classifyAll lines (GroupTree.build lines).1).kind id =
      Verdict.kindOfGroup lines (GroupTree.build lines).1 id :=
  kind_classifyAll (asksBelow_build lines) hid

theorem kindOfGroup_build_zero :
    Verdict.kindOfGroup lines (GroupTree.build lines).1 0 = .file := by
  have hgroup : (GroupTree.build lines).1.group? 0 = some _ := GroupTree.group?_ofForest ..
  rw [Verdict.kindOfGroup, ofGroup_build, Verdict.value_inquiry_of_root _ hgroup rfl]

theorem report_build {id parent : Nat} {group : Group}
    (hgroup : (GroupTree.build lines).1.group? id = some group)
    (hparent : group.parent = some parent) :
    (Verdict.ofGroup lines (GroupTree.build lines).1 id).report =
      Verdict.reportOn lines group (Verdict.kindOfGroup lines (GroupTree.build lines).1 id)
        (Verdict.kindOfGroup lines (GroupTree.build lines).1 parent) := by
  rw [Verdict.kindOfGroup, ofGroup_build, Verdict.report_inquiry _ hgroup hparent]

theorem zero_or_parent {id : Nat} (hid : id < (GroupTree.build lines).1.size) :
    ∃ group, (GroupTree.build lines).1.group? id = some group ∧
      (id = 0 ∧ group.shape = .brace ∨
        ∃ parent < id, group.parent = some parent) := by
  have hgroup := Array.getElem?_eq_getElem hid
  refine ⟨_, hgroup, ?_⟩
  rcases Nat.eq_zero_or_pos id with rfl | hpos
  · left
    rw [GroupTree.eq_fileGroup_of_group?_zero hgroup]
    exact ⟨rfl, rfl⟩
  · exact Or.inr (GroupTree.parent_lt_of_group? lines _ _ hpos hgroup)

/-- The report on a group is about a strange brace and stands there if the group is a brace without
a role, and about a keyword if the group is one of misplaced parentheses. -/
theorem report_group {id : Nat} (hid : id < (GroupTree.build lines).1.size) :
    let tree := (GroupTree.build lines).1
    let final := (start tree).classifyAll lines tree
    let report := (Verdict.ofGroup lines tree id).report
    (report.filter (·.issue.isStrange)).map (·.place) =
        (final.unknownBrace? tree id).map (·.opened) ∧
      report.filter (!·.issue.isStrange) = (final.misplacedKeyword? tree id).map fun group =>
        ⟨group.word.place, .keywordOutsideBody group.word.text⟩ := by
  intro tree final report
  obtain ⟨group, hgroup, ⟨rfl, hshape⟩ | ⟨parent, hlt, hparent⟩⟩ := zero_or_parent lines hid
  · have hkind : final.kind 0 = .file := (kind_build lines hid).trans (kindOfGroup_build_zero lines)
    have hreport : report = none := by
      change (Verdict.ofGroup lines tree 0).report = none
      rw [ofGroup_build, Verdict.value_inquiry_of_root _ (GroupTree.group?_ofForest ..) rfl]
    rw [hreport, unknownBrace?, misplacedKeyword?, hgroup, hkind, Option.filter_some,
      Option.filter_some, hshape]
    exact ⟨rfl, rfl⟩
  · have hparentKind : final.kind parent = Verdict.kindOfGroup lines tree parent :=
      kind_build lines (Nat.lt_trans hlt hid)
    have hreport : report =
        Verdict.reportOn lines group (final.kind id) (final.kind parent) := by
      rw [kind_build lines hid, hparentKind]
      exact report_build lines hgroup hparent
    rw [hreport, unknownBrace?, misplacedKeyword?, hgroup, Option.filter_some, Option.filter_some,
      hparent, Option.any_some, Verdict.reportOn]
    cases group.shape with
    | paren =>
      dsimp only
      split <;> simp_all [Issue.isStrange]
    | brace =>
      dsimp only
      split <;> simp_all [Issue.isStrange]

/-- A group without a role is a brace, or stands in a brace without a role. -/
theorem exists_unknownBrace {id : Nat} (hid : id < (GroupTree.build lines).1.size) :
    let tree := (GroupTree.build lines).1
    let final := (start tree).classifyAll lines tree
    final.kind id = .unknown →
      ∃ outer ∈ id :: tree.ancestors id, (final.unknownBrace? tree outer).isSome := by
  intro tree final
  -- By induction up the tree: parentheses without a role stand in a group without a role.
  induction id using Nat.strongRecOn with
  | ind id ih =>
    intro hunknown
    have hkind : Verdict.kindOfGroup lines tree id = .unknown := by
      rw [← hunknown]
      exact (kind_build lines hid).symm
    obtain ⟨group, hgroup, ⟨rfl, -⟩ | ⟨parent, hlt, hparent⟩⟩ := zero_or_parent lines hid
    · rw [kindOfGroup_build_zero] at hkind
      cases hkind
    · rw [Verdict.kindOfGroup, ofGroup_build] at hkind
      rcases Verdict.brace_or_around_of_unknown _ hgroup hparent hkind with hbrace | haround
      · refine ⟨id, List.mem_cons_self, ?_⟩
        rw [unknownBrace?, hgroup, Option.filter_some, hbrace, hunknown]
        rfl
      · have hparentSize : parent < tree.size := Nat.lt_trans hlt hid
        obtain ⟨outer, houter, hsome⟩ :=
          ih parent hlt hparentSize ((kind_build lines hparentSize).trans haround)
        refine ⟨outer, List.mem_cons_of_mem _ ?_, hsome⟩
        rw [Forest.ancestors_of_parent? ((GroupTree.parent?_eq hgroup).trans hparent) hlt]
        exact houter

theorem pairwise_unknownBrace? (record : Record) :
    ((List.range (GroupTree.build lines).1.size).filterMap
      (record.unknownBrace? (GroupTree.build lines).1)).Pairwise (·.opened < ·.opened) := by
  refine List.pairwise_lt_range.filterMap _ fun id id' hlt group hgroup group' hgroup' => ?_
  have hg := (Option.filter_eq_some_iff.mp hgroup).1
  have hg' := (Option.filter_eq_some_iff.mp hgroup').1
  exact GroupTree.opened_lt_opened_of_lt (Forest.word_ofBrackets_sublist _) hlt hg hg'

end Build

/-- No group stays without a role in silence. The reports on strange braces stand at the braces
without a role, one for each of them, and every group without a role is such a brace or stands in
one. All other reports are about keywords, one for each group of parentheses behind a control keyword
that stands among declarations. -/
theorem classifyAll_reports (lines : Lines) :
    let tree := (GroupTree.build lines).1
    let final := (start tree).classifyAll lines tree
    let braces := (List.range tree.size).filterMap (final.unknownBrace? tree)
    let keywords := (List.range tree.size).filterMap (final.misplacedKeyword? tree)
    (final.diagnostics.filter (·.issue.isStrange)).map (·.place) = braces.map (·.opened) ∧
      (braces.map (·.opened)).Nodup ∧
      (∀ id < tree.size, final.kind id = .unknown →
        ∃ outer ∈ id :: tree.ancestors id, (final.unknownBrace? tree outer).isSome) ∧
      final.diagnostics.filter (!·.issue.isStrange) = keywords.map fun group =>
        ⟨group.word.place, .keywordOutsideBody group.word.text⟩ := by
  intro tree final braces keywords
  have hdiagnostics : final.diagnostics =
      (List.range tree.size).filterMap fun id => (Verdict.ofGroup lines tree id).report :=
    diagnostics_classifyAll fun id => Verdict.asksBelow_inquiry lines _ _ id
  refine ⟨?_, ?_, fun id hid => exists_unknownBrace lines hid, ?_⟩
  · rw [hdiagnostics, List.filter_filterMap, List.map_filterMap, List.map_filterMap]
    apply List.filterMap_congr
    intro id hid
    exact (report_group lines (List.mem_range.mp hid)).1
  · rw [List.nodup_iff_pairwise_ne, List.pairwise_map]
    exact (pairwise_unknownBrace? lines final).imp fun hlt => ne_of_lt hlt
  · rw [hdiagnostics, List.filter_filterMap, List.map_filterMap]
    apply List.filterMap_congr
    intro id hid
    exact (report_group lines (List.mem_range.mp hid)).2

end Record
end BracketLint
