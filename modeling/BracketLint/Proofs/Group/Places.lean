import Mathlib.Data.List.Basic
import BracketLint.Proofs.Group.Reports
import BracketLint.Proofs.Group.Search

/-!
Where reports stand. Whatever the matching reports, it reports at a bracket of the file, and the
brace that no rule explains is reported at itself. The groups that hold statements stand at two
braces.
-/

namespace BracketLint

/-- Whether a report with some cause is about a bracket of some byte. -/
def Issue.isAbout : Issue → UInt8 → Bool
  | unmatchedCloser shape, b => b == shape.byte true
  | braceClosesParen _, b => b == Ascii.closeBrace
  | parenInBrace _, b => b == Ascii.closeParen
  | tooDeep _, b => b == Ascii.openParen || b == Ascii.openBrace
  | unclosed shape, b => b == shape.byte false
  | strangeBrace _, b => b == Ascii.openBrace
  | _, _ => false

/-- A report stands at one of some brackets and is about that bracket. -/
def Diagnostic.StandsAt (d : Diagnostic) (brackets : List Bracket) : Prop :=
  ∃ b ∈ brackets, b.place = d.place ∧ d.issue.isAbout (b.shape.byte b.closes) = true

theorem Diagnostic.StandsAt.mono {d : Diagnostic} {brackets brackets' : List Bracket}
    (h : d.StandsAt brackets) (hsub : brackets ⊆ brackets') : d.StandsAt brackets' := by
  obtain ⟨b, hb, hplace, habout⟩ := h
  exact ⟨b, hsub hb, hplace, habout⟩

namespace Forest

/-- What the search for the end of a group reports stands at the bracket that opens the group or at
one of those searched. -/
theorem Finds.standsAt {depth : Nat} {shape : Shape} {opened : Place} {brackets : List Bracket}
    {ending : Ending} {found : List Diagnostic} (h : Finds depth shape opened brackets ending found)
    {d : Diagnostic} (hd : d ∈ found) : d.StandsAt (⟨opened, shape, false⟩ :: brackets) := by
  induction h with
  | runsOut =>
    obtain rfl := List.mem_singleton.mp hd
    exact ⟨_, List.mem_cons_self, rfl, beq_self_eq_true _⟩
  | closes => cases hd
  | crosses =>
    obtain rfl := List.mem_singleton.mp hd
    exact ⟨_, List.mem_cons_of_mem _ List.mem_cons_self, rfl, rfl⟩
  | passes _ ih =>
    rcases List.mem_cons.mp hd with rfl | hd
    · exact ⟨_, List.mem_cons_of_mem _ List.mem_cons_self, rfl, rfl⟩
    · exact (ih hd).mono (List.cons_subset_cons _ (List.subset_cons_self _ _))
  | @tooDeep _ _ _ _ inner _ _ =>
    obtain rfl := List.mem_singleton.mp hd
    refine ⟨_, List.mem_cons_of_mem _ List.mem_cons_self, rfl, ?_⟩
    cases inner <;> rfl
  | nests _ hinner _ ih ih₁ =>
    rcases List.mem_append.mp hd with hd | hd
    · exact (ih hd).mono (List.subset_cons_self _ _)
    · -- Behind the inner group lies a part of what was searched for its end.
      have hrest := hinner.kept_sublist.subset
      refine (ih₁ hd).mono (List.cons_subset_cons _ fun b hb => List.mem_cons_of_mem _ (hrest ?_))
      exact List.mem_append_right _ (List.mem_cons_of_mem _ hb)
  | breaks _ _ ih => exact (ih hd).mono (List.subset_cons_self _ _)
  | absorbs _ _ ih => exact (ih hd).mono (List.subset_cons_self _ _)
  | stops _ _ ih => exact (ih hd).mono (List.subset_cons_self _ _)

/-- What the search for the end of a group reports is of the stage of the matching. -/
theorem Finds.stage_eq {depth : Nat} {shape : Shape} {opened : Place} {brackets : List Bracket}
    {ending : Ending} {found : List Diagnostic} (h : Finds depth shape opened brackets ending found)
    {d : Diagnostic} (hd : d ∈ found) : d.stage = .build := by
  induction h with
  | runsOut | crosses | tooDeep =>
    obtain rfl := List.mem_singleton.mp hd
    rfl
  | closes => cases hd
  | passes _ ih =>
    rcases List.mem_cons.mp hd with rfl | hd
    · rfl
    · exact ih hd
  | nests _ _ _ ih ih₁ => exact (List.mem_append.mp hd).elim ih ih₁
  | breaks _ _ ih | absorbs _ _ ih | stops _ _ ih => exact ih hd

/-- What the matching of a file reports stands at its brackets. -/
theorem standsAt_ofBrackets (brackets : List Bracket) {d : Diagnostic}
    (hd : d ∈ (ofBrackets brackets).diagnostics) : d.StandsAt brackets := by
  fun_induction ofBrackets brackets with
  | case1 => cases hd
  | case2 b rest hc _ ih =>
    rcases List.mem_cons.mp hd with rfl | hd
    · refine ⟨b, List.mem_cons_self, rfl, ?_⟩
      rw [hc]
      exact beq_self_eq_true _
    · exact (ih hd).mono (List.subset_cons_self _ _)
  | case3 b rest hc closedAt inside rest₁ shorter found hs behind ih =>
    have hfinds := finds_of_search hs
    obtain ⟨place, shape, rfl⟩ := exists_opener hc
    rcases List.mem_append.mp hd with hd | hd
    · exact hfinds.standsAt hd
    · refine (ih hd).mono fun b hb => List.mem_cons_of_mem _ (hfinds.kept_sublist.subset ?_)
      exact List.mem_append_right _ (List.mem_cons_of_mem _ hb)
  | case4 b rest hc closedAt rest₁ shorter found hs behind ih =>
    have hfinds := finds_of_search hs
    obtain ⟨place, shape, rfl⟩ := exists_opener hc
    rcases List.mem_append.mp hd with hd | hd
    · exact hfinds.standsAt hd
    · refine (ih hd).mono fun b hb => List.mem_cons_of_mem _ (hfinds.kept_sublist.subset ?_)
      exact List.mem_cons_of_mem _ hb
  | case5 b rest hc found hs =>
    obtain ⟨place, shape, rfl⟩ := exists_opener hc
    exact (finds_of_search hs).standsAt hd

/-- What the matching of a file reports is of its own stage. -/
theorem stage_of_mem_ofBrackets {brackets : List Bracket} {d : Diagnostic}
    (hd : d ∈ (ofBrackets brackets).diagnostics) : d.stage = .build := by
  fun_induction ofBrackets brackets with
  | case1 => cases hd
  | case2 b rest hc _ ih =>
    rcases List.mem_cons.mp hd with rfl | hd
    · rfl
    · exact ih hd
  | case3 b rest hc closedAt inside rest₁ shorter found hs behind ih
  | case4 b rest hc closedAt rest₁ shorter found hs behind ih =>
    exact (List.mem_append.mp hd).elim (finds_of_search hs).stage_eq ih
  | case5 b rest hc found hs => exact (finds_of_search hs).stage_eq hd

end Forest

theorem Forest.anchors_of_mem_toGroups {lines : Lines} {forest : Forest} :
    ∀ {parent first : Nat}, ∀ group ∈ forest.toGroups lines parent first,
      group.word = lines.wordInFrontOf group.shape group.opened ∧
        group.statementStart = lines.groupStart group.opened group.word := by
  induction forest with
  | empty => exact fun _ hgroup => absurd hgroup List.not_mem_nil
  | group shape opened closed inside behind ih ih₁ =>
    intro parent first group hgroup
    rcases List.mem_cons.mp hgroup with rfl | hgroup
    · exact ⟨rfl, rfl⟩
    · exact (List.mem_append.mp hgroup).elim (ih group) (ih₁ group)

/-- The word and the statement of a group are found from its opening bracket. -/
theorem GroupTree.anchors_of_group? (lines : Lines) {id parent : Nat} {group : Group}
    (hgroup : (build lines).1.group? id = some group) (hparent : group.parent = some parent) :
    group.word = lines.wordInFrontOf group.shape group.opened ∧
      group.statementStart = lines.groupStart group.opened group.word := by
  cases id with
  | zero =>
    rw [eq_fileGroup_of_group?_zero hgroup] at hparent
    cases hparent
  | succ id =>
    rw [build, group?_ofForest, List.getElem?_cons_succ] at hgroup
    exact Forest.anchors_of_mem_toGroups group (List.mem_of_getElem? hgroup)

namespace Verdict

variable {lines : Lines} {tree : GroupTree} {id parent : Nat} {group : Group}
  (kindOf : Nat → GroupKind)

theorem isExecutable_of_keywordKind? {word : String} {kind : GroupKind}
    (h : keywordKind? word = some kind) : kind.isExecutable = false := by
  unfold keywordKind? at h
  split at h
  case h_12 =>
    split at h <;> cases h
    rfl
  all_goals
    cases h
    rfl

theorem isExecutable_declarationKind :
    (declarationKind lines tree id group).isExecutable = false := by
  rw [declarationKind]
  split_ifs <;> rfl

/-- Parentheses hold no statements. -/
theorem isExecutable_ofParens :
    ((ofParens lines tree id parent group).value kindOf).kind.isExecutable = false := by
  rw [ofParens]
  split
  · next kind hkind =>
    have hexecutable := isExecutable_of_keywordKind? hkind
    split
    · exact hexecutable
    · exact hexecutable
  · split
    · rfl
    · simp only [Inquiry.value]
      split_ifs
      · rfl
      · exact isExecutable_declarationKind
      · rfl
      · rfl

/-- A group that holds statements is in braces, and not the file itself. -/
theorem exists_brace_of_isExecutable
    (h : ((inquiry lines tree id).value kindOf).kind.isExecutable = true) :
    ∃ group parent, tree.group? id = some group ∧ group.parent = some parent ∧
      group.shape = .brace := by
  rw [inquiry] at h
  split at h
  · cases h
  next group hgroup =>
  split at h
  · cases h
  next parent hparent =>
  split at h
  · rw [isExecutable_ofParens kindOf] at h
    cases h
  · next hshape => exact ⟨group, parent, hgroup, hparent, hshape⟩

/-- What is reported about a group is a keyword in front of parentheses, or a brace that is reported
at itself. -/
theorem exists_brace_of_report {d : Diagnostic}
    (h : ((inquiry lines tree id).value kindOf).report = some d) :
    (∃ word, d.issue = .keywordOutsideBody word) ∨
      ∃ group parent context, tree.group? id = some group ∧ group.parent = some parent ∧
        group.shape = .brace ∧ d = ⟨group.opened, .strangeBrace context⟩ := by
  cases hgroup : tree.group? id with
  | none =>
    rw [inquiry, hgroup] at h
    cases h
  | some group =>
    cases hparent : group.parent with
    | none =>
      rw [value_inquiry_of_root kindOf hgroup hparent] at h
      cases h
    | some parent =>
      rw [report_inquiry kindOf hgroup hparent, reportOn] at h
      cases hshape : group.shape with
      | paren =>
        rw [hshape] at h
        dsimp only at h
        split_ifs at h
        cases h
        exact Or.inl ⟨_, rfl⟩
      | brace =>
        rw [hshape] at h
        dsimp only at h
        split_ifs at h
        cases h
        exact Or.inr ⟨group, parent, _, rfl, hparent, hshape, rfl⟩

end Verdict

theorem Record.Coherent.exists_of_mem_diagnostics {lines : Lines} {tree : GroupTree}
    {record : Record} (hcoherent : record.Coherent lines tree) {d : Diagnostic}
    (hd : d ∈ record.diagnostics) : ∃ id, (Verdict.ofGroup lines tree id).report = some d := by
  rw [Record.diagnostics, List.mem_reverse, hcoherent.reported.mem_iff, List.mem_filterMap] at hd
  obtain ⟨verdict?, hmem, hreport⟩ := hd
  obtain ⟨verdict, hverdict, hreport⟩ := Option.bind_eq_some_iff.mp hreport
  rw [hverdict] at hmem
  obtain ⟨id, hid⟩ := List.mem_iff_getElem?.mp hmem
  rw [Array.getElem?_toList, ← Record.verdict?_eq_some] at hid
  exact ⟨id, by rw [← hcoherent.verdict_eq id verdict hid, hreport]⟩

section Build

variable (lines : Lines)

/-- The record of all groups of a file is coherent and complete. -/
theorem Record.coherent_classifyAll :
    let tree := (GroupTree.build lines).1
    ((start tree).classifyAll lines tree).Coherent lines tree ∧
      ∀ id < tree.size, (((start tree).classifyAll lines tree).verdict? id).isSome := by
  intro tree
  obtain ⟨hcoherent, hall⟩ :=
    coherent_classifyEach (asksBelow_build lines) (List.range tree.size)
  exact ⟨hcoherent, fun id hid => hall id (List.mem_range.mpr hid) hid⟩

/-- A group of a file stands at two brackets of its shape. -/
theorem GroupTree.byteAt_of_group? {id parent : Nat} {group : Group}
    (hgroup : (build lines).1.group? id = some group) (hparent : group.parent = some parent) :
    lines.byteAt group.opened = group.shape.byte false ∧
      lines.byteAt group.closed = group.shape.byte true := by
  have hpos : 0 < id := by
    rcases Nat.eq_zero_or_pos id with rfl | hpos
    · rw [eq_fileGroup_of_group?_zero hgroup] at hparent
      cases hparent
    · exact hpos
  obtain ⟨ho, hc⟩ := mem_brackets_of_group? (Forest.word_ofBrackets_sublist _) hpos hgroup
  exact ⟨(lines.mem_brackets ho).1, (lines.mem_brackets hc).1⟩

/-- What the matching reports stands at a bracket that it is about. -/
theorem GroupTree.isAbout_of_mem_build {d : Diagnostic} (hd : d ∈ (build lines).2) :
    d.issue.isAbout (lines.byteAt d.place) = true := by
  obtain ⟨b, hb, hplace, habout⟩ := Forest.standsAt_ofBrackets lines.brackets hd
  rw [← hplace, (lines.mem_brackets hb).1]
  exact habout

/-- What the decisions report is a keyword, or it stands at a brace that it is about. -/
theorem Record.isAbout_of_mem_diagnostics {d : Diagnostic}
    (hd : d ∈ ((start (GroupTree.build lines).1).classifyAll lines
      (GroupTree.build lines).1).diagnostics) :
    (∃ word, d.issue = .keywordOutsideBody word) ∨
      d.issue.isAbout (lines.byteAt d.place) = true := by
  obtain ⟨id, hreport⟩ := (coherent_classifyAll lines).1.exists_of_mem_diagnostics hd
  rw [ofGroup_build] at hreport
  refine (Verdict.exists_brace_of_report _ hreport).imp_right ?_
  rintro ⟨group, parent, context, hgroup, hparent, hshape, rfl⟩
  rw [(GroupTree.byteAt_of_group? lines hgroup hparent).1, hshape]
  rfl

/-- A group that holds statements stands at two braces. -/
theorem Record.byteAt_of_isExecutable {id : Nat}
    (h : (((start (GroupTree.build lines).1).classifyAll lines (GroupTree.build lines).1).kind
      id).isExecutable = true) :
    ∃ group, (GroupTree.build lines).1.group? id = some group ∧
      lines.byteAt group.opened = Ascii.openBrace ∧
      lines.byteAt group.closed = Ascii.closeBrace := by
  obtain ⟨hcoherent, hall⟩ := coherent_classifyAll lines
  rw [hcoherent.kind_eq hall, Verdict.kindOfGroup, ofGroup_build] at h
  obtain ⟨group, parent, hgroup, hparent, hshape⟩ := Verdict.exists_brace_of_isExecutable _ h
  have hbytes := GroupTree.byteAt_of_group? lines hgroup hparent
  rw [hshape] at hbytes
  exact ⟨group, hgroup, hbytes⟩

end Build

end BracketLint
