import Mathlib.Data.List.Forall2
import BracketLint.Analysis
import BracketLint.Proofs.Group.OnDemand
import BracketLint.Proofs.Lines.SameCode

/-!
Two files with the same code have the same groups, and all groups have the same roles. Only one
thing is read off the raw text: the name of an `extern "C"` block is the literal as it was written.
So the names are the same as well if those literals are.
-/

namespace BracketLint

namespace Lines

/-- Wherever a quote stands in the code, the same literal ends there in both files. -/
def SameLiterals (lines lines' : Lines) : Prop :=
  ∀ p, lines.byteAt p = Ascii.doubleQuote →
    Verdict.literalBefore? lines p = Verdict.literalBefore? lines' p

/-- A literal is read off the line up to its closing quote, and that quote stands in the code. -/
theorem sameLiterals_of_take {lines lines' : Lines}
    (h : ∀ index column, column < (lines.text index).length →
      (lines.raw index).take (column + 1) = (lines'.raw index).take (column + 1)) :
    SameLiterals lines lines' := by
  intro p hp
  cases p with
  | front => cases hp
  | on index column =>
    have hlt : column < (lines.text index).length := by
      rw [byteAt] at hp
      split at hp
      · cases hp
      · by_contra hle
        rw [List.getElem?_eq_none (Nat.le_of_not_lt hle)] at hp
        cases hp
    have hahead (raw : Bytes) : raw.take column = (raw.take (column + 1)).take column := by
      rw [List.take_take, Nat.min_eq_left (Nat.le_succ _)]
    have hslice (raw : Bytes) (first : Nat) :
        slice raw first (column + 1) = (raw.take (column + 1)).drop first := by
      rw [slice, List.drop_take]
    simp only [Verdict.literalBefore?, Place.line, Place.column, hslice]
    rw [hahead (lines.raw index), hahead (lines'.raw index), h index column hlt]

/-- A quote stands only on lines with code, so the raw text of other lines does not matter. -/
theorem sameLiterals_of_raw {lines lines' : Lines}
    (h : ∀ index, lines.text index ≠ [] → lines.raw index = lines'.raw index) :
    SameLiterals lines lines' := by
  apply sameLiterals_of_take
  intro index column hlt
  rw [h index (List.length_pos_iff.mp (Nat.zero_lt_of_lt hlt))]

end Lines

/-- Two verdicts agree if they give the same role and report the same. Where `named` holds they also
give the same name. -/
structure Verdict.Agrees (named : Prop) (verdict verdict' : Verdict) : Prop where
  kind_eq : verdict.kind = verdict'.kind
  report_eq : verdict.report = verdict'.report
  name_eq : named → verdict.name = verdict'.name

theorem Verdict.Agrees.refl {named : Prop} (verdict : Verdict) : verdict.Agrees named verdict :=
  ⟨rfl, rfl, fun _ => rfl⟩

theorem Verdict.Agrees.refl_option {named : Prop} (verdict? : Option Verdict) :
    Option.Rel (Verdict.Agrees named) verdict? verdict? := by
  cases verdict? with
  | none => exact .none
  | some verdict => exact .some (.refl verdict)

/-- Two inquiries that ask for the same groups, one after another, and whose answers agree. -/
inductive Inquiry.Agrees (named : Prop) : Inquiry Verdict → Inquiry Verdict → Prop
  | answer {verdict verdict' : Verdict} :
    verdict.Agrees named verdict' → Agrees named (.answer verdict) (.answer verdict')
  | ask {id : Nat} {proceed proceed' : GroupKind → Inquiry Verdict} :
    (∀ kind, Agrees named (proceed kind) (proceed' kind)) →
    Agrees named (.ask id proceed) (.ask id proceed')

theorem Inquiry.Agrees.refl {named : Prop} (inquiry : Inquiry Verdict) :
    inquiry.Agrees named inquiry := by
  induction inquiry with
  | answer verdict => exact .answer (.refl verdict)
  | ask id proceed ih => exact .ask ih

theorem Verdict.byteAt_byteBeforeWord (lines : Lines) (group : Group) :
    lines.byteAt (byteBeforeWord lines group).2 = (byteBeforeWord lines group).1 := by
  rw [byteBeforeWord]
  split
  · rfl
  · rfl

namespace Lines.SameCode

variable {lines lines' : Lines} (h : SameCode lines lines')
include h

section Head

theorem keyFrom_eq (opened : Place) (steps : Nat) (word : Word) :
    ClassHead.keyFrom lines opened steps word = ClassHead.keyFrom lines' opened steps word := by
  induction steps generalizing word with
  | zero => rfl
  | succ steps ih =>
    simp only [ClassHead.keyFrom, h.nameAfter_eq, h.templateNameAfter_eq, ih]

theorem nameFrom_eq (name : Option String) (stretch : Stretch) :
    ClassHead.nameFrom lines name stretch = ClassHead.nameFrom lines' name stretch := by
  fun_induction ClassHead.nameFrom lines name stretch <;> rw [ClassHead.nameFrom.eq_def lines']
  -- The cases in which something in brackets is passed over come first.
  case case2 name p b rest hb word hword hskip =>
    dsimp only
    rw [if_pos hb, ← h.nameAfter_eq, if_pos hword]
    split
    · rfl
    · next hskip' => cases hskip.symm.trans hskip'
  case case3 name p b rest hb word hword behind hskip ih =>
    dsimp only
    rw [if_pos hb, ← h.nameAfter_eq, if_pos hword]
    split
    · next hskip' => cases hskip.symm.trans hskip'
    · next hskip' => rw [ih, Option.some.inj (hskip'.symm.trans hskip)]
  case case9 name p b rest hb hcolon hless hskip =>
    dsimp only
    rw [if_neg hb, if_neg hcolon, if_pos hless]
    split
    · rfl
    · next hskip' => cases hskip.symm.trans hskip'
  case case10 name p b rest hb hcolon hless behind hskip ih =>
    dsimp only
    rw [if_neg hb, if_neg hcolon, if_pos hless]
    split
    · next hskip' => cases hskip.symm.trans hskip'
    · next hskip' => rw [ih, Option.some.inj (hskip'.symm.trans hskip)]
  all_goals simp_all +zetaDelta [← h.nameAfter_eq]

theorem className?_eq (start opened : Place) :
    ClassHead.name? lines start opened = ClassHead.name? lines' start opened := by
  simp only [ClassHead.name?, h.keyFrom_eq, h.nameFrom_eq, h.stretch_eq, h.nameAfter_eq]

end Head

section Tree

theorem operatorName?_eq (opened : Place) :
    lines.operatorName? opened = lines'.operatorName? opened := by
  simp only [operatorName?, h.text_eq]

theorem wordInFrontOf_eq (shape : Shape) (opened : Place) :
    lines.wordInFrontOf shape opened = lines'.wordInFrontOf shape opened := by
  simp only [wordInFrontOf, h.wordBefore_eq, h.prev_eq, h.operatorName?_eq, h.byteAt_eq,
    h.templateNameBefore_eq]

theorem groupStart_eq (opened : Place) (word : Word) :
    lines.groupStart opened word = lines'.groupStart opened word := by
  simp only [groupStart, h.statementStart_eq, h.byteAt_eq, h.skipSpaceBack_eq, h.prev_eq]

theorem brackets_eq : lines.brackets = lines'.brackets := by
  simp only [brackets, h.lastIndex_eq, h.text_eq]

theorem toGroups_eq (forest : Forest) (parent first : Nat) :
    forest.toGroups lines parent first = forest.toGroups lines' parent first := by
  induction forest generalizing parent first with
  | empty => rfl
  | group shape opened closed inside behind ih ih₁ =>
    simp only [Forest.toGroups, h.wordInFrontOf_eq, h.groupStart_eq, ih, ih₁]

/-- The tree of a file and the brackets that fit nowhere in it depend on the code only. -/
theorem build_eq : GroupTree.build lines = GroupTree.build lines' := by
  simp only [GroupTree.build, GroupTree.ofForest, GroupTree.fileGroup, h.brackets_eq, h.stop_eq,
    h.toGroups_eq]

end Tree

section Verdicts

variable (tree : GroupTree) (id parent : Nat) (group : Group)

theorem byteBeforeWord_eq :
    Verdict.byteBeforeWord lines group = Verdict.byteBeforeWord lines' group := by
  simp only [Verdict.byteBeforeWord, h.byteAt_eq, h.skipSpaceBack_eq, h.prev_eq]

theorem statementAt_eq (start : Place) :
    Verdict.statementAt lines start = Verdict.statementAt lines' start := by
  rw [Verdict.statementAt, Verdict.statementAt, h.nameAfter_eq]

theorem opensDefinition_eq :
    Verdict.opensDefinition lines tree id group = Verdict.opensDefinition lines' tree id group := by
  simp only [Verdict.opensDefinition, h.stretch_eq, h.next_eq]

theorem declarationKind_eq :
    Verdict.declarationKind lines tree id group = Verdict.declarationKind lines' tree id group := by
  simp only [Verdict.declarationKind, h.byteBeforeWord_eq, h.byteAt_eq, h.prev_eq, h.stretch_eq,
    h.statementAt_eq, h.namesIn_eq, h.holdsAssignment_eq, h.opensDefinition_eq]

theorem ofParens_eq :
    Verdict.ofParens lines tree id parent group = Verdict.ofParens lines' tree id parent group := by
  simp only [Verdict.ofParens, h.byteBeforeWord_eq, h.declarationKind_eq, h.opensDefinition_eq]

theorem followsArrow_eq :
    Verdict.followsArrow lines group = Verdict.followsArrow lines' group := by
  simp only [Verdict.followsArrow, h.byteBeforeWord_eq, h.templateNameBefore_eq, h.skipSpaceBack_eq,
    h.byteAt_eq, h.prev_eq]

theorem isNamedInitializer_eq :
    Verdict.isNamedInitializer lines group = Verdict.isNamedInitializer lines' group := by
  simp only [Verdict.isNamedInitializer, h.byteAt_eq, h.skipSpaceForward_eq, h.next_eq]

theorem ofBareBrace_eq (around : GroupKind) :
    Verdict.ofBareBrace lines group around = Verdict.ofBareBrace lines' group around := by
  simp only [Verdict.ofBareBrace, h.byteBeforeWord_eq, h.followsArrow_eq, h.isNamedInitializer_eq]

theorem ofBraceHead?_agrees (around : GroupKind) :
    Option.Rel (Verdict.Agrees (SameLiterals lines lines'))
      (Verdict.ofBraceHead? lines tree parent group around)
      (Verdict.ofBraceHead? lines' tree parent group around) := by
  simp only [Verdict.ofBraceHead?, h.byteBeforeWord_eq, h.statementAt_eq, h.stretch_eq,
    h.namesIn_eq, h.className?_eq, h.nameAfter_eq]
  split
  · exact Verdict.Agrees.refl_option _
  generalize (if Verdict.mayHoldClassHead (Verdict.statementAt lines' group.statementStart) then
    ClassHead.name? lines' group.statementStart group.opened else none) = classHead
  cases classHead with
  | some name => exact Verdict.Agrees.refl_option _
  | none =>
    dsimp only
    split
    · exact Verdict.Agrees.refl_option _
    split
    · -- The block of an `extern "C"` takes its name from the raw text.
      next hextern =>
      simp only [Bool.and_eq_true, beq_iff_eq] at hextern
      refine .some ⟨rfl, rfl, fun hliterals => hliterals _ ?_⟩
      rw [h.byteAt_eq, Verdict.byteAt_byteBeforeWord, hextern.2]
    · exact Verdict.Agrees.refl_option _

theorem ofBraces_agrees :
    (Verdict.ofBraces lines tree id parent group).Agrees (SameLiterals lines lines')
      (Verdict.ofBraces lines' tree id parent group) := by
  refine .ask fun around => ?_
  have hhead := h.ofBraceHead?_agrees tree parent group around
  generalize Verdict.ofBraceHead? lines tree parent group around = head at hhead ⊢
  generalize Verdict.ofBraceHead? lines' tree parent group around = head' at hhead ⊢
  cases hhead with
  | some hagrees => exact .answer hagrees
  | none =>
    simp only [h.byteBeforeWord_eq, h.ofBareBrace_eq]
    exact .refl _

/-- The decision on a group asks for the same groups in both files, and its answers agree. -/
theorem inquiry_agrees :
    (Verdict.inquiry lines tree id).Agrees (SameLiterals lines lines')
      (Verdict.inquiry lines' tree id) := by
  rw [Verdict.inquiry, Verdict.inquiry]
  cases tree.group? id with
  | none => exact .refl _
  | some group =>
    dsimp only
    cases group.parent with
    | none => exact .refl _
    | some parent =>
      dsimp only
      cases group.shape with
      | paren =>
        dsimp only
        rw [h.ofParens_eq]
        exact .refl _
      | brace => exact h.ofBraces_agrees tree id parent group

end Verdicts

end Lines.SameCode

namespace Record

/-- Two records hold agreeing verdicts on the same groups and have reported the same. -/
structure Agrees (named : Prop) (record record' : Record) : Prop where
  size_eq : record.verdicts.size = record'.verdicts.size
  verdict_rel : ∀ id,
    Option.Rel (Verdict.Agrees named) (record.verdict? id) (record'.verdict? id)
  reported_eq : record.reported = record'.reported

variable {named : Prop} {lines lines' : Lines} {tree : GroupTree}

/-- What is read off a verdict in the same way from agreeing verdicts is the same in both records.
-/
theorem Agrees.read_eq {α : Type} {record record' : Record} (h : record.Agrees named record')
    (read : Option Verdict → α)
    (hread : ∀ verdict verdict', verdict.Agrees named verdict' →
      read (some verdict) = read (some verdict')) (id : Nat) :
    read (record.verdict? id) = read (record'.verdict? id) := by
  have hrel := h.verdict_rel id
  generalize record.verdict? id = verdict? at hrel ⊢
  generalize record'.verdict? id = verdict?' at hrel ⊢
  cases hrel with
  | none => rfl
  | some hagrees => exact hread _ _ hagrees

theorem Agrees.kind_eq {record record' : Record} (h : record.Agrees named record') (id : Nat) :
    record.kind id = record'.kind id := by
  rw [Record.kind, Record.kind]
  exact h.read_eq (fun verdict? => (verdict?.map Verdict.kind).getD .unknown)
    (fun _ _ hagrees => hagrees.kind_eq) id

theorem Agrees.name?_eq {record record' : Record} (h : record.Agrees named record')
    (hnamed : named) (id : Nat) : record.name? id = record'.name? id := by
  rw [Record.name?, Record.name?]
  exact h.read_eq (fun verdict? => verdict?.bind Verdict.name)
    (fun _ _ hagrees => hagrees.name_eq hnamed) id

theorem Agrees.keep {record record' : Record} {verdict verdict' : Verdict}
    (h : record.Agrees named record') (hverdict : verdict.Agrees named verdict') (id : Nat) :
    (record.keep id verdict).Agrees named (record'.keep id verdict') where
  size_eq := by rw [size_keep, size_keep, h.size_eq]
  verdict_rel i := by
    rcases eq_or_ne i id with rfl | hne
    · by_cases hi : i < record.verdicts.size
      · rw [verdict?_keep_self hi, verdict?_keep_self (h.size_eq ▸ hi)]
        exact .some hverdict
      · have hsize : (record.keep i verdict).verdicts.size ≤ i := by
          rw [size_keep]
          exact Nat.le_of_not_lt hi
        have hsize' : (record'.keep i verdict').verdicts.size ≤ i := by
          rw [size_keep, ← h.size_eq]
          exact Nat.le_of_not_lt hi
        rw [verdict?_of_size_le hsize, verdict?_of_size_le hsize']
        exact .none
    · rw [verdict?_keep_of_ne hne, verdict?_keep_of_ne hne]
      exact h.verdict_rel i
  reported_eq := by
    rw [Record.keep, Record.keep, hverdict.report_eq, h.reported_eq]

theorem agrees_start (tree : GroupTree) : (start tree).Agrees named (start tree) where
  size_eq := rfl
  verdict_rel _ := Verdict.Agrees.refl_option _
  reported_eq := rfl

/-- Agreeing inquiries are resolved alike from agreeing records, if each group in front of the bound
is. -/
theorem agrees_resolve (bound : Nat)
    (lookUp lookUp' : (id : Nat) → id < bound → Record → GroupKind × Record)
    (hlookUp : ∀ id h record record', record.Agrees named record' →
      (lookUp id h record).1 = (lookUp' id h record').1 ∧
        (lookUp id h record).2.Agrees named (lookUp' id h record').2)
    {inquiry inquiry' : Inquiry Verdict} (hinquiry : inquiry.Agrees named inquiry') :
    ∀ {record record' : Record}, record.Agrees named record' →
      (resolve bound lookUp inquiry record).1.Agrees named
          (resolve bound lookUp' inquiry' record').1 ∧
        (resolve bound lookUp inquiry record).2.Agrees named
          (resolve bound lookUp' inquiry' record').2 := by
  induction hinquiry with
  | answer hverdict => exact fun h => ⟨hverdict, h⟩
  | @ask id proceed proceed' _ ih =>
    intro record record' h
    rw [resolve, resolve]
    split
    · next hid =>
      obtain ⟨hkind, h₁⟩ := hlookUp id hid record record' h
      dsimp only
      rw [hkind]
      exact ih _ h₁
    · exact ih _ h

section

variable (hinquiry : ∀ id, (Verdict.inquiry lines tree id).Agrees named
  (Verdict.inquiry lines' tree id))
include hinquiry

theorem agrees_classify (id : Nat) : ∀ {record record' : Record}, record.Agrees named record' →
    (classify lines tree id record).1 = (classify lines' tree id record').1 ∧
      (classify lines tree id record).2.Agrees named (classify lines' tree id record').2 := by
  induction id using Nat.strongRecOn with
  | ind id ih =>
    intro record record' h
    rw [classify, classify]
    have hrel := h.verdict_rel id
    generalize record.verdict? id = verdict? at hrel ⊢
    generalize record'.verdict? id = verdict?' at hrel ⊢
    cases hrel with
    | some hagrees => exact ⟨hagrees.kind_eq, h⟩
    | none =>
      obtain ⟨hverdict, h₁⟩ := agrees_resolve id
        (fun i _ record => classify lines tree i record)
        (fun i _ record => classify lines' tree i record)
        (fun i hi _ _ => ih i hi) (hinquiry id) h
      exact ⟨hverdict.kind_eq, h₁.keep hverdict id⟩

theorem agrees_classifyEach (ids : List Nat) : ∀ {record record' : Record},
    record.Agrees named record' →
      (record.classifyEach lines tree ids).Agrees named (record'.classifyEach lines' tree ids) := by
  induction ids with
  | nil => exact fun h => h
  | cons id ids ih => exact fun h => ih (agrees_classify hinquiry id h).2

end

end Record

/-- Two files with the same code give agreeing records: their groups have the same roles, the same
is reported, and the names are the same if the literals are. -/
theorem Lines.SameCode.classifyAll_agrees {lines lines' : Lines} (h : lines.SameCode lines')
    (tree : GroupTree) :
    ((Record.start tree).classifyAll lines tree).Agrees (lines.SameLiterals lines')
      ((Record.start tree).classifyAll lines' tree) :=
  Record.agrees_classifyEach (h.inquiry_agrees tree) _ (Record.agrees_start tree)

/-- Two files with the same code have the same tree, the same roles, and the same names if the same
literals stand in the code; what is reported behind the scrubbing is the same. -/
theorem Analysis.ofSource_agrees {source source' : Bytes} {kind : FileKind}
    {options : ScrubOptions}
    (h : Lines.SameCode (Lines.scrub source kind options).1 (Lines.scrub source' kind options).1) :
    let analysis := ofSource source kind options
    let analysis' := ofSource source' kind options
    analysis.tree = analysis'.tree ∧ (∀ id, analysis.kind id = analysis'.kind id) ∧
      (Lines.SameLiterals analysis.lines analysis'.lines →
        ∀ id, analysis.name? id = analysis'.name? id) ∧
      ∃ found, analysis.diagnostics = (Lines.scrub source kind options).2 ++ found ∧
        analysis'.diagnostics = (Lines.scrub source' kind options).2 ++ found := by
  intro analysis analysis'
  have hbuild : GroupTree.build analysis.lines = GroupTree.build analysis'.lines := h.build_eq
  have htree : analysis.tree = analysis'.tree := congrArg Prod.fst hbuild
  have hrecord : analysis.record.Agrees (Lines.SameLiterals analysis.lines analysis'.lines)
      analysis'.record := by
    have hagrees := h.classifyAll_agrees analysis.tree
    change (((Record.start analysis.tree).classifyAll analysis.lines analysis.tree).Agrees _
      ((Record.start analysis'.tree).classifyAll analysis'.lines analysis'.tree))
    rw [← htree]
    exact hagrees
  refine ⟨htree, hrecord.kind_eq, hrecord.name?_eq,
    (GroupTree.build analysis.lines).2 ++ analysis.record.diagnostics, ?_, ?_⟩
  · exact List.append_assoc _ _ _
  · rw [hbuild, Record.diagnostics, hrecord.reported_eq]
    exact List.append_assoc _ _ _

end BracketLint
