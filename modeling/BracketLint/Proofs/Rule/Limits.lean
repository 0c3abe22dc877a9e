import BracketLint.Proofs.Lines.FirstWords
import BracketLint.Rule

/-!
When the rules with limits report something. A file with a long routine of deep blocks shows every
change of a limit: whatever the options for scrubbing are, its blocks are five levels deep and its
routine has 81 lines.
-/

namespace BracketLint

namespace Rule

/-- The depth of a block in its routine; nothing for other groups and outside of routines. -/
def blockDepth? (analysis : Analysis) (id : Nat) : Option Nat :=
  if (analysis.tree.group? id).isSome && analysis.kind id == .codeBody then codeDepth? analysis id
  else none

/-- The lines of the body of an outermost routine; nothing for other groups. -/
def bodyLines? (analysis : Analysis) (id : Nat) : Option Nat :=
  if analysis.kind id == .routineBody && !isInsideRoutine analysis id then
    (analysis.tree.group? id).map (·.lineSpan)
  else none

/-- What the rules with limits compare with them, for each group of the tree. -/
def measures (analysis : Analysis) : List (Option Nat × Option Nat) :=
  analysis.tree.walk.map fun id => (blockDepth? analysis id, bodyLines? analysis id)

section Measures

variable {analysis analysis' : Analysis} (hrecord : analysis.record = analysis'.record)
include hrecord

theorem codeDepthIn_congr (depth : Nat) (ids : List Nat) :
    codeDepthIn analysis depth ids = codeDepthIn analysis' depth ids := by
  induction ids generalizing depth with
  | nil => rfl
  | cons id ids ih => rw [codeDepthIn, codeDepthIn, Analysis.kind, Analysis.kind, hrecord, ih, ih]

/-- The lines of the file and what was found in it are not read, only its groups. -/
theorem measures_congr (htree : analysis.tree = analysis'.tree) :
    measures analysis = measures analysis' := by
  have hkind : analysis.kind = analysis'.kind := by
    funext id
    rw [Analysis.kind, Analysis.kind, hrecord]
  have hdepth : blockDepth? analysis = blockDepth? analysis' := by
    funext id
    rw [blockDepth?, blockDepth?, codeDepth?, codeDepth?, codeDepthIn_congr hrecord, htree, hkind]
  have hlines : bodyLines? analysis = bodyLines? analysis' := by
    funext id
    rw [bodyLines?, bodyLines?, isInsideRoutine, isInsideRoutine, htree, hkind]
  rw [measures, measures, htree, hdepth, hlines]

end Measures

theorem check_of_isTest_eq_false (rule : Rule) {file : FileContext}
    (hfile : file.kind.isTest = false) (analysis : Analysis) :
    rule.check file analysis = rule.violations file analysis := by
  rw [check, hfile, Bool.and_false, if_neg Bool.false_ne_true]

section Reports

variable (limit : Nat) (allow : Bool) (severity : Severity) (rule : Rule) (file : FileContext)
  (analysis : Analysis)

theorem deepBlock?_eq_none_iff (id : Nat) :
    deepBlock? limit severity rule file analysis id = none ↔
      blockDepth? analysis id ≠ some (limit + 1) := by
  rw [deepBlock?, blockDepth?]
  cases analysis.tree.group? id with
  | none => simp
  | some group =>
    by_cases hkind : analysis.kind id = .codeBody
    · cases hdepth : codeDepth? analysis id with
      | none => simp [hkind]
      | some depth => by_cases h : depth = limit + 1 <;> simp [hkind, h]
    · simp [hkind]

theorem longRoutine?_eq_none_iff (id : Nat) :
    longRoutine? limit severity rule file analysis id = none ↔
      ∀ lines, bodyLines? analysis id = some lines → lines ≤ limit := by
  rw [longRoutine?, bodyLines?]
  cases analysis.tree.group? id with
  | none => simp
  | some group =>
    by_cases hkind : analysis.kind id = .routineBody
    · cases hinside : isInsideRoutine analysis id with
      | true => simp [hkind]
      | false => by_cases h : group.lineSpan ≤ limit <;> simp [hkind, h]
    · simp [hkind]

/-- The rule about nesting reports the blocks one level behind its limit. -/
theorem violations_nestingDepth_eq_nil_iff :
    (nestingDepth limit allow severity).violations file analysis = [] ↔
      some (limit + 1) ∉ analysis.tree.walk.map (blockDepth? analysis) := by
  rw [violations, List.filterMap_eq_nil_iff, List.mem_map]
  simp only [deepBlock?_eq_none_iff, not_exists, not_and, ne_eq]

/-- The rule about long routines reports the outermost bodies with more lines than its limit. -/
theorem violations_routineLength_eq_nil_iff :
    (routineLength limit allow severity).violations file analysis = [] ↔
      ∀ lines, some lines ∈ analysis.tree.walk.map (bodyLines? analysis) → lines ≤ limit := by
  rw [violations, List.filterMap_eq_nil_iff]
  simp only [longRoutine?_eq_none_iff, List.mem_map]
  constructor
  · rintro h lines ⟨id, hid, hlines⟩
    exact h id hid lines hlines
  · intro h id hid lines hlines
    exact h lines ⟨id, hid, hlines⟩

end Reports

end Rule

/-- The options play no part in texts that start with no word. -/
theorem Lines.assemble_eq_of_firstWord (kind : FileKind) (options : ScrubOptions)
    (raws : List Bytes) (blanked : List BlankedLine) {texts : List Bytes}
    (h : ∀ text ∈ texts, Statement.firstWord text = "") :
    assemble kind options raws blanked texts = assemble kind {} raws blanked texts := by
  have hstatement {text : Bytes} (hword : Statement.firstWord text = "") (markers : List String) :
      Statement.ofLine kind markers text = .blank := by
    rw [Statement.ofLine_eq_blank_iff, ← Statement.firstWord_eq_iff]
    exact hword
  fun_induction assemble kind options raws blanked texts with
  | case1 raw raws line blanked text texts ih =>
    rw [List.forall_mem_cons] at h
    rw [assemble, ih h.2, Line.ofText, Line.ofText, hstatement h.1, hstatement h.1]
  | case2 raws blanked texts hne => rw [assemble.eq_2 _ _ _ _ _ hne]

section DeepFile

-- The empty capture list makes the first brace the body of a lambda expression.
def deepOpening : Bytes :=
  [Ascii.openBracket, Ascii.closeBracket] ++ List.replicate 6 Ascii.openBrace

def deepClosing : Bytes := List.replicate 6 Ascii.closeBrace

/-- A lambda expression of 81 lines, with blocks that are five levels deep. -/
def deepText : Bytes := deepOpening ++ List.replicate 80 Ascii.lineFeed ++ deepClosing

/-- No option changes how the lines are read: none of them starts with a word. -/
theorem scrub_deepText (options : ScrubOptions) :
    (Lines.scrub deepText .implementation options).1 =
      (Lines.scrub deepText .implementation {}).1 := by
  have hwords : ∀ text ∈ Lines.finalTexts (Bytes.lines (Bytes.dropByteOrderMark deepText)),
      Statement.firstWord text = "" := by decide +kernel
  apply congrArg fun physical : List Line => (⟨.implementation, physical.toArray⟩ : Lines)
  exact Lines.assemble_eq_of_firstWord .implementation options _ _ hwords

/-- The blocks are one to five levels deep, and the routine has 81 lines. -/
theorem measures_deepText (options : ScrubOptions) :
    Rule.measures (Analysis.ofSource deepText .implementation options) =
      [(none, none), (none, some 81), (some 1, none), (some 2, none), (some 3, none),
        (some 4, none), (some 5, none)] := by
  have hlines := scrub_deepText options
  -- Without further options, one evaluation gives all.
  have husual : Rule.measures (Analysis.ofSource deepText .implementation {}) =
      [(none, none), (none, some 81), (some 1, none), (some 2, none), (some 3, none),
        (some 4, none), (some 5, none)] := by decide +kernel
  rw [← husual]
  apply Rule.measures_congr
  · exact congrArg (fun lines : Lines =>
      (Record.start (GroupTree.build lines).1).classifyAll lines (GroupTree.build lines).1) hlines
  · exact congrArg (fun lines : Lines => (GroupTree.build lines).1) hlines

theorem blockDepths_deepText (options : ScrubOptions) :
    let analysis := Analysis.ofSource deepText .implementation options
    analysis.tree.walk.map (Rule.blockDepth? analysis) =
      [none, none, some 1, some 2, some 3, some 4, some 5] := by
  have hdepths := congrArg (List.map Prod.fst) (measures_deepText options)
  rw [Rule.measures, List.map_map] at hdepths
  exact hdepths

theorem bodyLines_deepText (options : ScrubOptions) :
    let analysis := Analysis.ofSource deepText .implementation options
    analysis.tree.walk.map (Rule.bodyLines? analysis) =
      [none, some 81, none, none, none, none, none] := by
  have hlines := congrArg (List.map Prod.snd) (measures_deepText options)
  rw [Rule.measures, List.map_map] at hlines
  exact hlines

section Check

variable (limit : Nat) (allow : Bool) (severity : Severity) {file : FileContext}
  (hfile : file.kind = .implementation) (options : ScrubOptions)
include hfile

theorem check_nestingDepth_deepText :
    (Rule.nestingDepth limit allow severity).check file
      (Analysis.ofSource deepText file.kind options) = [] ↔ 5 ≤ limit := by
  have hnoTest : file.kind.isTest = false := by rw [hfile]; rfl
  rw [Rule.check_of_isTest_eq_false _ hnoTest, hfile, Rule.violations_nestingDepth_eq_nil_iff,
    blockDepths_deepText]
  simp only [List.mem_cons, Option.some.injEq, reduceCtorEq, List.not_mem_nil, false_or, or_false]
  omega

theorem check_routineLength_deepText :
    (Rule.routineLength limit allow severity).check file
      (Analysis.ofSource deepText file.kind options) = [] ↔ 81 ≤ limit := by
  have hnoTest : file.kind.isTest = false := by rw [hfile]; rfl
  rw [Rule.check_of_isTest_eq_false _ hnoTest, hfile, Rule.violations_routineLength_eq_nil_iff,
    bodyLines_deepText]
  simp

end Check

end DeepFile

end BracketLint
