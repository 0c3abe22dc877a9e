import BracketLint.Proofs.Group.Anchors
import BracketLint.Proofs.Group.Loops
import BracketLint.Proofs.Rule.ReportedGroups

/-!
The loops of an analysis. The cursor is free to start anywhere, in front of the file and behind it too.
The classification stops at places of groups, and none of these lies behind the stop, where a loop that
goes from place to place would never arrive.
-/

namespace BracketLint
open scoped Place

variable {lines : Lines} {tree : GroupTree} {id : Nat} {group : Group}

/-- From a position on, the loops of the cursor end without a failed check in what the cursor finds, and
the search behind something in brackets ends whatever the brackets are. -/
structure Lines.LoopsEnd (lines : Lines) (p : Place) : Prop where
  skipSpaceBack : Loop.skipSpaceBack lines p = Part.some (lines.skipSpaceBack p)
  skipSpaceForward : Loop.skipSpaceForward lines p = Part.some (lines.skipSpaceForward p)
  wordBefore : Loop.wordBefore lines p = Part.some (lines.wordBefore p)
  nameAfter : Loop.nameAfter lines p = Part.some (lines.nameAfter p)
  templateNameAfter : Loop.templateNameAfter lines p = Part.some (lines.templateNameAfter p)
  templateNameBefore : Loop.templateNameBefore lines p = Part.some (lines.templateNameBefore p)
  skipBalanced : ∀ opener closer, (Loop.skipBalanced lines opener closer p).Dom

/-- Up to the places of a group, the loops of the classification end without a failed check, wherever
they start, and in what the classification finds. -/
structure Group.LoopsEnd (lines : Lines) (tree : GroupTree) (id : Nat) (group : Group) : Prop where
  namesBetween : ∀ first, ∀ last ∈ [group.word.place, group.opened],
    Loop.namesBetween lines first last = Part.some (lines.namesIn (lines.stretch first last))
  holdsAssignment : ∀ first, ∀ last ∈ [group.word.place, group.opened],
    Loop.holdsAssignment lines first last =
      Part.some ((lines.stretch first last).holdsAssignment lines 0 0)
  opensDefinition :
    Loop.opensDefinition lines tree id = Part.some (Verdict.opensDefinition lines tree id group)
  classHead : ∀ start, (Loop.classHead lines start group.opened).Dom
  /-- Only braces have the head of a class in front. -/
  className : 0 < id → group.shape = .brace →
    Loop.classHead lines group.statementStart group.opened =
      Part.some (ClassHead.name? lines group.statementStart group.opened)

theorem Lines.loopsEnd (lines : Lines) (p : Place) : lines.LoopsEnd p where
  skipSpaceBack := Loop.skipSpaceBack_eq lines p
  skipSpaceForward := Loop.skipSpaceForward_eq lines p
  wordBefore := Loop.wordBefore_eq lines p
  nameAfter := Loop.nameAfter_eq lines p
  templateNameAfter := Loop.templateNameAfter_eq lines p
  templateNameBefore := Loop.templateNameBefore_eq lines p
  skipBalanced opener closer := by
    obtain ⟨found, hfound, -⟩ := Loop.exists_skipBalanced lines opener closer p
    rw [hfound]
    trivial

theorem GroupTree.opened_le_stop (hgroup : (build lines).1.group? id = some group) :
    group.opened ≤ lines.stop := by
  rcases Nat.eq_zero_or_pos id with rfl | hpos
  · rw [eq_fileGroup_of_group?_zero hgroup]
    exact (Lines.isCanonical_on_zero (Nat.zero_le _)).le_stop
  · obtain ⟨hbracket, -⟩ := mem_brackets_of_group? (Forest.word_ofBrackets_sublist _) hpos hgroup
    exact (lines.mem_brackets hbracket).2.2.le

theorem GroupTree.place_word_le_stop (hgroup : (build lines).1.group? id = some group) :
    group.word.place ≤ lines.stop := by
  rcases Nat.eq_zero_or_pos id with rfl | hpos
  · rw [eq_fileGroup_of_group?_zero hgroup]
    exact Place.front_le _
  · exact (anchored_build lines hpos hgroup).word_lt.le.trans (opened_le_stop hgroup)

theorem GroupTree.loopsEnd_build (hnested : (build lines).1.WellNested lines)
    (hgroup : (build lines).1.group? id = some group) :
    group.LoopsEnd lines (build lines).1 id := by
  have hopened : group.opened ≤ lines.stop := opened_le_stop hgroup
  have hlast : ∀ last ∈ [group.word.place, group.opened], last ≤ lines.stop := by
    rintro last (_ | ⟨_, _ | ⟨_, ⟨⟩⟩⟩)
    · exact place_word_le_stop hgroup
    · exact hopened
  refine ⟨?_, ?_, ?_, ?_, ?_⟩
  · intro first last hmem
    exact Loop.namesBetween_eq lines (hlast last hmem) first
  · intro first last hmem
    exact Loop.holdsAssignment_eq lines (hlast last hmem) first
  · exact Loop.opensDefinition_eq hnested hgroup fun _ _ => opened_le_stop
  · intro start
    obtain ⟨name, hname⟩ := Loop.exists_classHead hopened start
    rw [hname]
    trivial
  · intro hpos hbrace
    have hbyte := (hnested.brackets id group hpos hgroup).1
    rw [hbrace] at hbyte
    exact Loop.classHead_eq hbyte (anchored_build lines hpos hgroup).start_le

namespace Analysis

/-- In every file all loops of the cursor and of the classification come to an end. No counter is
decremented at zero, and nothing is read or cut out beyond the end of a line. -/
theorem loops_end (source : Bytes) (kind : FileKind) (options : ScrubOptions) :
    let analysis := ofSource source kind options
    (∀ p, analysis.lines.LoopsEnd p) ∧
      ∀ id group, analysis.tree.group? id = some group →
        group.LoopsEnd analysis.lines analysis.tree id := by
  intro analysis
  refine ⟨analysis.lines.loopsEnd, fun id group hgroup => ?_⟩
  exact GroupTree.loopsEnd_build (wellNested_ofSource source kind options) hgroup

/-- The loops in the head of this class end behind its parameters in angle brackets. -/
theorem loops_end_class :
    let analysis := ofSource (Bytes.ofString "class A<B> \x7b\x7d;") .implementation {}
    ∃ group, analysis.tree.group? 1 = some group ∧ group.LoopsEnd analysis.lines analysis.tree 1 ∧
      Loop.classHead analysis.lines group.statementStart group.opened =
        Part.some (some (some "A")) := by
  intro analysis
  have hgroup : analysis.tree.group? 1 =
      some ⟨.brace, .on 1 11, .on 1 12, ⟨"", .on 1 9⟩, .on 1 0, some 0, []⟩ := by decide +kernel
  have hname : ClassHead.name? analysis.lines (.on 1 0) (.on 1 11) = some (some "A") := by
    decide +kernel
  have hloops := (loops_end (Bytes.ofString "class A<B> \x7b\x7d;") .implementation {}).2 1 _ hgroup
  refine ⟨_, hgroup, hloops, ?_⟩
  rw [hloops.className Nat.one_pos rfl, hname]

end Analysis
end BracketLint
