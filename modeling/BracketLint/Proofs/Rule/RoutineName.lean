import BracketLint.Proofs.Group.Roles
import BracketLint.Proofs.Group.Siblings
import BracketLint.Proofs.Rule.RoutineLength

/-!
The routine that the report about a long body names. The name is the word in front of the parentheses
right before the body. These need not hold the parameters of the routine: a member that a constructor
sets, an exception specification, or a call in an earlier statement can stand there as well.
-/

namespace BracketLint
open scoped Place

namespace Analysis

/-- The parentheses right before a group, with their number, if a word stands in front of them. -/
def wordedParens? (analysis : Analysis) (id : Nat) : Option (Nat × Group) :=
  (analysis.tree.previousSibling? id).bind fun before =>
    ((analysis.tree.group? before).filter fun group =>
      group.shape == .paren && group.word.text != "").map (before, ·)

/-- Parentheses that declare the routine with a body: they stand side by side with the body and in
front of it, in the same statement. -/
structure Declares (analysis : Analysis) (before id : Nat) (params body : Group) : Prop where
  number_lt : before < id
  parent_eq : params.parent = body.parent
  shape_eq : params.shape = .paren
  kind_eq : analysis.kind before = .routineDeclaration
  start_le : body.statementStart ≤ params.opened

/-- Why parentheses right before a body do not declare its routine. -/
inductive Misleads (analysis : Analysis) (before : Nat) (params body : Group) : Prop
  /-- The word is a keyword, as that of an exception specification. -/
  | keyword (h : (Verdict.keywordKind? params.word.text).isSome = true)
  /-- Nothing is known about the group around them. -/
  | strange {parent : Nat} (hparent : params.parent = some parent)
      (h : analysis.kind parent = .unknown)
  /-- They set a member in a constructor. -/
  | member (h : analysis.kind before = .constructorClause)
  /-- They belong to a call, and the body does not follow them with only qualifiers in between. -/
  | call (h : analysis.kind before = .routineCall)
      (hbetween : ∃ entry ∈ analysis.lines.stretch (analysis.lines.next params.closed) body.opened,
        Stretch.isQualifierByte entry.2 = false)
  /-- They open in front of the statement of the body. -/
  | earlier (h : params.opened < body.statementStart)

theorem wordedParens?_eq_some_iff {analysis : Analysis} {id before : Nat} {params : Group} :
    analysis.wordedParens? id = some (before, params) ↔
      analysis.tree.previousSibling? id = some before ∧ analysis.tree.group? before = some params ∧
        params.shape = .paren ∧ params.word.text ≠ "" := by
  rw [wordedParens?, Option.bind_eq_some_iff]
  constructor
  · rintro ⟨before', hbefore, hfound⟩
    obtain ⟨group, hgroup, heq⟩ := Option.map_eq_some_iff.mp hfound
    obtain ⟨rfl, rfl⟩ := Prod.mk.inj heq
    rw [Option.filter_eq_some_iff, Bool.and_eq_true, beq_iff_eq, bne_iff_ne] at hgroup
    exact ⟨hbefore, hgroup⟩
  · rintro ⟨hbefore, hgroup, hshape, hword⟩
    refine ⟨before, hbefore, ?_⟩
    rw [hgroup, Option.filter_some, hshape, bne_iff_ne.mpr hword]
    rfl

section OfSource

variable (source : Bytes) (kind : FileKind) (options : ScrubOptions)

/-- The roles of the groups of a file answer the inquiries about them. -/
theorem kind_eq_value (id : Nat) :
    let analysis := ofSource source kind options
    analysis.kind id =
      ((Verdict.inquiry analysis.lines analysis.tree id).value analysis.kind).kind := by
  intro analysis
  obtain ⟨hcoherent, hall⟩ := Record.coherent_classifyAll analysis.lines
  have hkind : analysis.kind = Verdict.kindOfGroup analysis.lines analysis.tree :=
    funext (hcoherent.kind_eq hall)
  rw [hkind, Verdict.kindOfGroup]
  exact congrArg Verdict.kind (Record.ofGroup_build analysis.lines id)

/-- The role of a group in parentheses behind a word, case by case. -/
theorem kind_parens_cases {id parent : Nat} {group : Group} :
    let analysis := ofSource source kind options
    analysis.tree.group? id = some group → group.parent = some parent → group.shape = .paren →
      group.word.text ≠ "" →
        Verdict.keywordKind? group.word.text = some (analysis.kind id) ∨
          Verdict.keywordKind? group.word.text = none ∧
            (analysis.kind parent = .unknown ∧ analysis.kind id = .unknown ∨
              analysis.kind parent ≠ .unknown ∧
                (analysis.kind id = .constructorClause ∨ analysis.kind id = .routineDeclaration ∨
                  analysis.kind id = .routineCall ∧
                    Verdict.opensDefinition analysis.lines analysis.tree id group = false)) := by
  intro analysis hgroup hparent hshape hword
  have hkind : analysis.kind id = ((Verdict.ofParens analysis.lines analysis.tree id parent
      group).value analysis.kind).kind := by
    rw [kind_eq_value source kind options id, Verdict.inquiry, hgroup]
    dsimp only
    rw [hparent]
    dsimp only
    rw [hshape]
  rw [hkind]
  exact Verdict.ofParens_cases hword analysis.kind

/-- The body of a routine is in braces and lies in a group. -/
theorem brace_of_routineBody {id : Nat} {body : Group} :
    let analysis := ofSource source kind options
    analysis.tree.group? id = some body → analysis.kind id = .routineBody →
      body.shape = .brace ∧ ∃ parent, body.parent = some parent := by
  intro analysis hbody hkind
  have hvalue : ((Verdict.inquiry analysis.lines analysis.tree id).value analysis.kind).kind =
      .routineBody := (kind_eq_value source kind options id).symm.trans hkind
  obtain ⟨body', parent, hbody', hparent, hshape⟩ :=
    Verdict.exists_brace_of_isExecutable analysis.kind (by rw [hvalue]; rfl)
  obtain rfl := Option.some.inj (hbody.symm.trans hbody')
  exact ⟨hshape, parent, hparent⟩

/-- The parentheses right before a body declare its routine exactly if nothing misleads. -/
theorem declares_iff_not_misleads {id before : Nat} {params body : Group} :
    let analysis := ofSource source kind options
    analysis.tree.group? id = some body → analysis.kind id = .routineBody →
      analysis.wordedParens? id = some (before, params) →
        (analysis.Declares before id params body ↔ ¬analysis.Misleads before params body) := by
  intro analysis hbody hkind hparens
  have hnested : analysis.tree.WellNested analysis.lines := wellNested_ofSource source kind options
  have hordered : ∀ id, (analysis.tree.children id).Pairwise (· < ·) :=
    ordered_children_ofSource source kind options
  obtain ⟨hprevious, hgroup, hshape, hword⟩ := wordedParens?_eq_some_iff.mp hparens
  obtain ⟨_, hgroup', hlt, hsame, -⟩ :=
    hnested.exists_of_previousSibling? hordered hbody hprevious
  obtain rfl := Option.some.inj (hgroup.symm.trans hgroup')
  rw [GroupTree.parent?_eq hgroup, GroupTree.parent?_eq hbody] at hsame
  obtain ⟨hbrace, parent, hparent⟩ := brace_of_routineBody source kind options hbody hkind
  have hrole := kind_parens_cases source kind options hgroup (hsame.trans hparent) hshape hword
  constructor
  · intro hdeclares hmisleads
    rw [hdeclares.kind_eq] at hrole
    -- A declaration stands behind no keyword and in a known group.
    have hknown : Verdict.keywordKind? params.word.text = none ∧ analysis.kind parent ≠ .unknown := by
      rcases hrole with hkeyword | ⟨hkeyword, ⟨-, hunknown⟩ | ⟨hparent, -⟩⟩
      · exact absurd hkeyword (Verdict.keywordKind?_ne_routineDeclaration _)
      · cases hunknown
      · exact ⟨hkeyword, hparent⟩
    cases hmisleads with
    | keyword h =>
      rw [hknown.1] at h
      cases h
    | strange hparent' h =>
      obtain rfl := Option.some.inj ((hsame.trans hparent).symm.trans hparent')
      exact hknown.2 h
    | member h =>
      rw [hdeclares.kind_eq] at h
      cases h
    | call h =>
      rw [hdeclares.kind_eq] at h
      cases h
    | earlier h => exact absurd hdeclares.start_le (not_le.mpr h)
  · intro hright
    -- Only one role is left if all reasons are ruled out.
    refine ⟨hlt, hsame, hshape, ?_, not_lt.mp fun hearlier => hright (.earlier hearlier)⟩
    rcases hrole with hkeyword | ⟨-, ⟨hunknown, -⟩ | ⟨-, hmember | hdeclaration | ⟨hcall, hopens⟩⟩⟩
    · exact absurd (.keyword (by rw [hkeyword]; rfl)) hright
    · exact absurd (.strange (hsame.trans hparent) hunknown) hright
    · exact absurd (.member hmember) hright
    · exact hdeclaration
    -- The body is the next group, so what stands in front of it keeps the call from declaring it.
    · have hnext := hnested.nextSibling?_of_previousSibling? hordered hprevious
      have hbetween := Verdict.exists_between_of_opensDefinition hnext hbody hbrace hopens
      exact absurd (.call hcall hbetween) hright

/-- The name that the rule looks up is the word of the parentheses right before the body. -/
theorem routineName?_eq (id : Nat) :
    let analysis := ofSource source kind options
    Rule.routineName? analysis id = (analysis.wordedParens? id).map (·.2.word.text) := by
  intro analysis
  have hnested : analysis.tree.WellNested analysis.lines := wellNested_ofSource source kind options
  have hordered : ∀ id, (analysis.tree.children id).Pairwise (· < ·) :=
    ordered_children_ofSource source kind options
  have hword (before : Nat) : ((analysis.tree.group? before).bind fun group =>
      if group.shape == .paren && group.word.text != "" then some group.word.text else none) =
        (((analysis.tree.group? before).filter fun group =>
          group.shape == .paren && group.word.text != "").map (before, ·)).map (·.2.word.text) := by
    cases analysis.tree.group? before with
    | none => rfl
    | some group =>
      rw [Option.bind_some, Option.filter_some]
      split <;> rfl
  cases hbody : analysis.tree.group? id with
  | none =>
    have hparent : analysis.tree.parent? id = none := by
      rw [GroupTree.parent?, hbody]
      rfl
    rw [Rule.routineName?, hbody, wordedParens?, GroupTree.previousSibling?, hparent]
    rfl
  | some body =>
    have hparent := GroupTree.parent?_eq hbody
    rw [Rule.routineName?, hbody, wordedParens?, Option.map_bind]
    cases hbodyParent : body.parent with
    | none =>
      rw [GroupTree.previousSibling?, hparent, hbodyParent]
      exact congrArg (Option.bind · _) hbodyParent
    | some parent =>
      rw [hbodyParent] at hparent
      -- The search among the siblings comes to the one right before the body.
      simp only [Option.bind_eq_bind, Option.bind_some, hbodyParent,
        hnested.find?_closed_lt hordered hbody hparent]
      exact congrArg (Option.bind _) (funext hword)

end OfSource

end Analysis

namespace Rule

/-- The message about a body with too many lines, of a routine with a name or without one. -/
def longMessage (maxLines span : Nat) (name? : Option String) : String :=
  let subject := match name? with
    | some name => "Routine `" ++ name ++ "`"
    | none => "Routine body"
  subject ++ " has " ++ toString span ++ " lines (max: " ++ toString maxLines ++ ")"

variable {rule : Rule} {file : FileContext} {analysis : Analysis} {id : Nat} (maxLines : Nat)
  {allow : Bool} (severity : Severity) {v : Violation}

theorem message_of_longRoutine? (h : longRoutine? maxLines severity rule file analysis id = some v) :
    ∃ body, analysis.tree.group? id = some body ∧ analysis.kind id = .routineBody ∧
      v.location = file.location body.opened ∧
        v.message = longMessage maxLines body.lineSpan (routineName? analysis id) := by
  obtain ⟨body, hbody, h⟩ := Option.bind_eq_some_iff.mp h
  split at h
  · cases h
  next hkind =>
  split at h
  · cases h
  cases h
  rw [Bool.or_eq_true, not_or, bne_iff_ne, not_not] at hkind
  exact ⟨body, hbody, hkind.1, rfl, rfl⟩

/-- An outermost body with too many lines is reported. -/
theorem exists_mem_check_routineLength {body : Group}
    (hfile : (allow && file.kind.isTest) = false) (hnested : analysis.tree.WellNested analysis.lines)
    (hbody : analysis.tree.group? id = some body) (hkind : analysis.kind id = .routineBody)
    (hinside : isInsideRoutine analysis id = false) (hlong : maxLines < body.lineSpan) :
    ∃ v ∈ (routineLength maxLines allow severity).check file analysis,
      v.location = file.location body.opened ∧
        v.message = longMessage maxLines body.lineSpan (routineName? analysis id) := by
  have hlines := bodyLines?_eq_some_iff.mpr ⟨hkind, hinside, body, hbody, rfl⟩
  have hne : longRoutine? maxLines severity (routineLength maxLines allow severity) file analysis
      id ≠ none := by
    rw [ne_eq, longRoutine?_eq_none_iff]
    exact fun hle => Nat.not_le_of_lt hlong (hle body.lineSpan hlines)
  obtain ⟨v, hv⟩ := Option.ne_none_iff_exists'.mp hne
  obtain ⟨body', hbody', -, hlocation, hmessage⟩ := message_of_longRoutine? maxLines severity hv
  obtain rfl := Option.some.inj (hbody.symm.trans hbody')
  refine ⟨v, ?_, hlocation, hmessage⟩
  rw [(reportsGroups_routineLength hfile).check_eq, hnested.walk_eq, List.mem_filterMap]
  exact ⟨id, List.mem_range.mpr (GroupTree.lt_size_of_group? hbody), hv⟩

section Constructors

/-- Two constructors, and the second one sets a member. -/
def constructorsText : Bytes := Bytes.ofString "A()\x7b\n\x7dA():x()\x7b\n\x7d"

/-- What a report about a group tells, and what the choice of its name rests on. -/
def traits (analysis : Analysis) (id : Nat) :
    GroupKind × Bool × Option String × Option (String × Nat) :=
  (analysis.kind id, isInsideRoutine analysis id, routineName? analysis id,
    (analysis.tree.group? id).map fun group => (group.word.text, group.lineSpan))

def constructorsTraits : List (GroupKind × Bool × Option String × Option (String × Nat)) :=
  [(.file, false, none, some ("", 5)), (.routineDeclaration, false, none, some ("A", 1)),
    (.routineBody, false, some "A", some ("", 2)), (.routineDeclaration, false, none, some ("A", 1)),
    (.constructorClause, false, some "A", some ("x", 1)),
    (.routineBody, false, some "x", some ("", 2))]

theorem traits_constructorsText :
    (List.range 6).map (traits (Analysis.ofSource constructorsText .implementation {})) =
      constructorsTraits := by
  decide +kernel

/-- A body with some traits is reported with the name among them. -/
theorem exists_report_of_traits {name? : Option String} {span : Nat}
    (hfile : (allow && file.kind.isTest) = false) (hnested : analysis.tree.WellNested analysis.lines)
    (htraits : traits analysis id = (.routineBody, false, name?, some ("", span)))
    (hlong : maxLines < span) :
    ∃ v ∈ (routineLength maxLines allow severity).check file analysis, ∃ body,
      analysis.tree.group? id = some body ∧ analysis.kind id = .routineBody ∧
        v.location = file.location body.opened ∧ v.message = longMessage maxLines span name? := by
  rw [traits, Prod.mk.injEq, Prod.mk.injEq, Prod.mk.injEq] at htraits
  obtain ⟨hkind, hinside, hname, hgroup⟩ := htraits
  obtain ⟨body, hbody, heq⟩ := Option.map_eq_some_iff.mp hgroup
  obtain ⟨-, rfl⟩ := Prod.mk.inj heq
  obtain ⟨v, hv, hlocation, hmessage⟩ :=
    exists_mem_check_routineLength maxLines severity hfile hnested hbody hkind hinside hlong
  exact ⟨v, hv, body, hbody, hkind, hlocation, hname ▸ hmessage⟩

/-- The report about a long routine names the word of the parentheses right before the body, if there
are such parentheses, and no routine otherwise. These parentheses declare the routine with this body
exactly if nothing misleads. -/
theorem message_routineLength (source : Bytes) (options : ScrubOptions) (file : FileContext)
    (maxLines : Nat) (allow : Bool) (severity : Severity) :
    let analysis := Analysis.ofSource source file.kind options
    ∀ v ∈ (routineLength maxLines allow severity).check file analysis,
      ∃ id body, analysis.tree.group? id = some body ∧ analysis.kind id = .routineBody ∧
        v.location = file.location body.opened ∧
        v.message = longMessage maxLines body.lineSpan
          ((analysis.wordedParens? id).map (·.2.word.text)) ∧
        ∀ before params, analysis.wordedParens? id = some (before, params) →
          (analysis.Declares before id params body ↔ ¬analysis.Misleads before params body) := by
  intro analysis v hv
  obtain ⟨id, -, hid⟩ := List.mem_filterMap.mp (mem_violations_of_mem_check hv)
  obtain ⟨body, hbody, hkind, hlocation, hmessage⟩ := message_of_longRoutine? maxLines severity hid
  rw [Analysis.routineName?_eq source file.kind options id] at hmessage
  refine ⟨id, body, hbody, hkind, hlocation, hmessage, ?_⟩
  intro before params hparens
  exact Analysis.declares_iff_not_misleads source file.kind options hbody hkind hparens

/-- The report about the first constructor names it, by the parentheses right before its body. -/
theorem message_routineLength_constructor :
    let file : FileContext := ⟨⟨"/p/a.cpp"⟩, ⟨"a.cpp"⟩, .implementation, constructorsText⟩
    let analysis := Analysis.ofSource constructorsText file.kind {}
    ∃ v ∈ (routineLength 1 false .warning).check file analysis,
      v.message = longMessage 1 2 (some "A") ∧
        ∃ body before params, analysis.tree.group? 2 = some body ∧
          v.location = file.location body.opened ∧
          analysis.wordedParens? 2 = some (before, params) ∧ params.word.text = "A" ∧
          (analysis.Declares before 2 params body ↔ ¬analysis.Misleads before params body) := by
  intro file analysis
  have hnested : analysis.tree.WellNested analysis.lines :=
    Analysis.wellNested_ofSource constructorsText .implementation {}
  have hfile : (false && file.kind.isTest) = false := rfl
  have htraits : traits analysis 2 = (.routineBody, false, some "A", some ("", 2)) :=
    Option.some.inj (congrArg (·[2]?) traits_constructorsText)
  obtain ⟨v, hv, body, hbody, -, hlocation, hmessage⟩ :=
    exists_report_of_traits 1 .warning hfile hnested htraits Nat.one_lt_two
  obtain ⟨id, body', hbody', -, hlocation', -, hdeclares⟩ :=
    message_routineLength constructorsText {} file 1 false .warning v hv
  -- The location tells that this is the report about the same body.
  have hopened : body.opened = body'.opened :=
    FileContext.eq_of_location_eq (hnested.opened_ne_front hbody) (hnested.opened_ne_front hbody')
      (hlocation.symm.trans hlocation')
  obtain rfl : 2 = id := hnested.opened_injective hbody hbody' hopened
  obtain rfl := Option.some.inj (hbody.symm.trans hbody')
  have hname : (analysis.wordedParens? 2).map (·.2.word.text) = some "A" := by
    rw [← Analysis.routineName?_eq constructorsText .implementation {} 2]
    exact congrArg (·.2.2.1) htraits
  obtain ⟨⟨before, params⟩, hparens, hword⟩ := Option.map_eq_some_iff.mp hname
  exact ⟨v, hv, hmessage, body, before, params, hbody, hlocation, hparens, hword,
    hdeclares before params hparens⟩

/-- The report about the second constructor names the member that the constructor sets, and no
parentheses behind that word declare the routine. -/
theorem message_routineLength_member :
    let file : FileContext := ⟨⟨"/p/a.cpp"⟩, ⟨"a.cpp"⟩, .implementation, constructorsText⟩
    let analysis := Analysis.ofSource constructorsText file.kind {}
    ∃ v ∈ (routineLength 1 false .warning).check file analysis, ∃ body,
      analysis.tree.group? 5 = some body ∧ analysis.kind 5 = .routineBody ∧
      v.location = file.location body.opened ∧ v.message = longMessage 1 2 (some "x") ∧
        ∀ before params, analysis.tree.group? before = some params → params.word.text = "x" →
          ¬analysis.Declares before 5 params body := by
  intro file analysis
  have hfile : (false && file.kind.isTest) = false := rfl
  have hnested : analysis.tree.WellNested analysis.lines :=
    Analysis.wellNested_ofSource constructorsText .implementation {}
  have htraits : traits analysis 5 = (.routineBody, false, some "x", some ("", 2)) :=
    Option.some.inj (congrArg (·[5]?) traits_constructorsText)
  obtain ⟨v, hv, body, hbody, hkind, hlocation, hmessage⟩ :=
    exists_report_of_traits 1 .warning hfile hnested htraits Nat.one_lt_two
  refine ⟨v, hv, body, hbody, hkind, hlocation, hmessage, ?_⟩
  intro before params hgroup hword hdeclares
  have hmem : traits analysis before ∈ constructorsTraits := by
    rw [← traits_constructorsText]
    exact List.mem_map_of_mem (List.mem_range.mpr (hdeclares.number_lt.trans (by decide)))
  have hnone : ∀ entry ∈ constructorsTraits, entry.1 = .routineDeclaration →
      entry.2.2.2.map (·.1) ≠ some "x" := by decide
  apply hnone _ hmem hdeclares.kind_eq
  rw [traits, hgroup, ← hword]
  rfl

end Constructors

end Rule

end BracketLint
