import BracketLint.Proofs.Group.Anchors
import BracketLint.Proofs.Group.Roles
import BracketLint.Proofs.Group.Siblings

/-!
Bodies of routines and the parentheses right before them. The body looks back over blanks at the
parenthesis that closes there, and the parentheses look ahead over qualifiers at the brace that opens
next. Blanks are qualifiers, so both look at each other: parentheses that a body follows are never
taken for a call.
-/

namespace BracketLint
open scoped Place

namespace Verdict

variable {lines : Lines} {group : Group}

/-- A brace behind a closing parenthesis is the body of a routine for no reason of its own. -/
theorem ofBareBrace_ne_routineBody (hword : group.word.text = "")
    (hbefore : (byteBeforeWord lines group).1 = Ascii.closeParen) (around : GroupKind) :
    (ofBareBrace lines group around).kind ≠ .routineBody := by
  intro hkind
  rcases (ofBareBrace_roles lines group around).2 with
    hcode | hvalue | hunknown | ⟨-, ⟨-, hbracket⟩ | harrow⟩
  · rw [hkind] at hcode
    cases hcode
  · rw [hkind] at hvalue
    cases hvalue
  · rw [hkind] at hunknown
    cases hunknown
  · rw [hbefore] at hbracket
    cases hbracket
  -- Neither a word nor the end of a list in angle brackets could be a return type.
  · have hnone : followsArrow lines group = false := by
      rw [followsArrow]
      dsimp only
      rw [hword, hbefore]
      rfl
    rw [hnone] at harrow
    cases harrow

/-- A body behind a closing parenthesis is one because of the group that closes there. -/
theorem exists_sibling_of_routineBody {tree : GroupTree} {id parent : Nat} (kindOf : Nat → GroupKind)
    (hword : group.word.text = "") (hbefore : (byteBeforeWord lines group).1 = Ascii.closeParen)
    (hkind : ((ofBraces lines tree id parent group).value kindOf).kind = .routineBody) :
    ∃ sibling, tree.previousSiblingClosingAt? id (byteBeforeWord lines group).2 = some sibling ∧
      (kindOf sibling = .routineCall ∨ kindOf sibling = .routineDeclaration ∨
        kindOf sibling = .constructorClause ∨ kindOf sibling = .throwParens) := by
  rcases ofBraces_cases lines tree id parent group kindOf with
    hhead | ⟨sibling, body, -, -, hsibling, hbody, hverdict⟩ | hbare
  · generalize hverdict : (ofBraces lines tree id parent group).value kindOf = verdict at hhead hkind
    cases hhead with
    | qualifier h =>
      rw [hword] at h
      cases h
    | _ => cases hkind
  · rw [hverdict] at hkind
    rcases bodyBehind?_roles hbody with hcode | ⟨-, hroles⟩
    · rw [hcode] at hkind
      cases hkind
    · exact ⟨sibling, hsibling, hroles⟩
  · rw [hbare] at hkind
    exact absurd hkind (ofBareBrace_ne_routineBody hword hbefore _)

end Verdict

namespace GroupTree

/-- A group that closes with a parenthesis is in parentheses. -/
theorem shape_of_byteAt_closed (lines : Lines) {id parent : Nat} {group : Group}
    (hgroup : (build lines).1.group? id = some group) (hparent : group.parent = some parent)
    (hbyte : lines.byteAt group.closed = Ascii.closeParen) : group.shape = .paren := by
  have hclosed := (byteAt_of_group? lines hgroup hparent).2
  rw [hbyte] at hclosed
  cases hshape : group.shape with
  | paren => rfl
  | brace =>
    rw [hshape] at hclosed
    cases hclosed

section Body

variable (lines : Lines) {id parent : Nat} {body : Group}
  (hbody : (build lines).1.group? id = some body) (hparent : body.parent = some parent)
  (hbrace : body.shape = .brace)
include hbody hparent hbrace

omit hbrace in
/-- A brace without a word that only blanks part from a closing parenthesis looks back at that
parenthesis. -/
theorem byteBeforeWord_of_blanks {closed : Place} (hword : body.word.text = "")
    (hbyte : lines.byteAt closed = Ascii.closeParen) (hlt : closed < body.opened)
    (hblank : ∀ entry ∈ lines.stretch (lines.next closed) body.opened,
      entry.2 ∈ [Ascii.space, Ascii.tab, Ascii.lineFeed]) :
    Verdict.byteBeforeWord lines body = (Ascii.closeParen, closed) := by
  have hskip : lines.skipSpaceBack (lines.prev body.opened) = closed := by
    apply Lines.skipSpaceBack_prev_eq (by rw [hbyte]; rfl) hlt
    intro entry hentry
    have hspace := hblank entry hentry
    simp only [List.mem_cons, List.not_mem_nil, or_false] at hspace
    rcases hspace with h | h | h <;> rw [h] <;> rfl
  have hplace : body.word = ⟨"", closed⟩ := by
    obtain ⟨hfront, -⟩ := anchors_of_group? lines hbody hparent
    rw [hfront] at hword ⊢
    rw [Lines.wordInFrontOf_of_text_eq hword, hskip]
  rw [Verdict.byteBeforeWord, hplace]
  dsimp only
  rw [hbyte]
  rfl

/-- Parentheses right before a brace, with only blanks in between, are no call: they look ahead at
the brace, as blanks are qualifiers. -/
theorem ne_routineCall_of_blanks {before : Nat} {params : Group}
    (hprevious : (build lines).1.previousSibling? id = some before)
    (hparams : (build lines).1.group? before = some params)
    (hbyte : lines.byteAt params.closed = Ascii.closeParen)
    (hblank : ∀ entry ∈ lines.stretch (lines.next params.closed) body.opened,
      entry.2 ∈ [Ascii.space, Ascii.tab, Ascii.lineFeed]) (kindOf : Nat → GroupKind) :
    ((Verdict.inquiry lines (build lines).1 before).value kindOf).kind ≠ .routineCall := by
  intro hcall
  have hnested : (build lines).1.WellNested lines :=
    wellNested_ofForest (Forest.word_ofBrackets_sublist _) (Forest.height_ofBrackets_le _)
  have hordered : ∀ id, ((build lines).1.children id).Pairwise (· < ·) :=
    ascending_children_ofForest _ _ _
  obtain ⟨params', hparams', -, hsame, -⟩ :=
    hnested.exists_of_previousSibling? hordered hbody hprevious
  obtain rfl := Option.some.inj (hparams.symm.trans hparams')
  rw [parent?_eq hparams, parent?_eq hbody, hparent] at hsame
  rw [Verdict.inquiry_of_paren hparams hsame (shape_of_byteAt_closed lines hparams hsame hbyte)]
    at hcall
  obtain ⟨entry, hentry, hqualifier⟩ := Verdict.exists_between_of_opensDefinition
    (hnested.nextSibling?_of_previousSibling? hordered hprevious) hbody hbrace
    (Verdict.opensDefinition_of_routineCall hcall)
  have hspace := hblank entry hentry
  simp only [List.mem_cons, List.not_mem_nil, or_false] at hspace
  rcases hspace with h | h | h <;> rw [h] at hqualifier <;> cases hqualifier

end Body

/-- A body of a routine that only blanks part from a closing parenthesis follows the parentheses that
close there, and these declare the routine, set a member, or specify exceptions. -/
theorem parens_of_routineBody (lines : Lines) {id : Nat} {body : Group} {closed : Place}
    (hbody : (build lines).1.group? id = some body)
    (hkind : Verdict.kindOfGroup lines (build lines).1 id = .routineBody)
    (hword : body.word.text = "") (hbyte : lines.byteAt closed = Ascii.closeParen)
    (hlt : closed < body.opened)
    (hblank : ∀ entry ∈ lines.stretch (lines.next closed) body.opened,
      entry.2 ∈ [Ascii.space, Ascii.tab, Ascii.lineFeed]) :
    ∃ before params, (build lines).1.previousSibling? id = some before ∧
      (build lines).1.group? before = some params ∧ params.closed = closed ∧
      Verdict.kindOfGroup lines (build lines).1 before ∈
        [.routineDeclaration, .constructorClause, .throwParens] := by
  have hvalue (id : Nat) : Verdict.kindOfGroup lines (build lines).1 id =
      ((Verdict.inquiry lines (build lines).1 id).value
        (Verdict.kindOfGroup lines (build lines).1)).kind :=
    congrArg Verdict.kind (Record.ofGroup_build lines id)
  rw [hvalue] at hkind
  obtain ⟨body', parent, hbody', hparent, hbrace⟩ :=
    Verdict.exists_brace_of_isExecutable _ (by rw [hkind]; rfl)
  obtain rfl := Option.some.inj (hbody.symm.trans hbody')
  have hbefore := byteBeforeWord_of_blanks lines hbody hparent hword hbyte hlt hblank
  rw [Verdict.inquiry_of_brace hbody hparent hbrace] at hkind
  obtain ⟨before, hsibling, hroles⟩ :=
    Verdict.exists_sibling_of_routineBody _ hword (by rw [hbefore]) hkind
  rw [hbefore] at hsibling
  obtain ⟨hprevious, hcloses⟩ := Option.filter_eq_some_iff.mp hsibling
  rw [Option.any_eq_true] at hcloses
  obtain ⟨params, hparams, hclosed⟩ := hcloses
  rw [beq_iff_eq] at hclosed
  subst hclosed
  refine ⟨before, params, hprevious, hparams, rfl, ?_⟩
  -- The brace would follow a call as well, but the parentheses are none.
  rcases hroles with hcall | hrole | hrole | hrole
  · rw [hvalue] at hcall
    exact absurd hcall
      (ne_routineCall_of_blanks lines hbody hparent hbrace hprevious hparams hbyte hblank _)
  · simp [hrole]
  · simp [hrole]
  · simp [hrole]

end GroupTree

namespace Analysis

variable (source : Bytes) (kind : FileKind) (options : ScrubOptions)

/-- The role of a group when some groups have been asked for before it, in some order. -/
def kindBehind (ids : List Nat) (id : Nat) : GroupKind :=
  let analysis := ofSource source kind options
  let record := Record.classifyEach analysis.lines analysis.tree ids (Record.start analysis.tree)
  (Record.classify analysis.lines analysis.tree id record).1

theorem kindBehind_eq (ids : List Nat) (id : Nat) : kindBehind source kind options ids id =
    Verdict.kindOfGroup (ofSource source kind options).lines (ofSource source kind options).tree
      id := by
  have hasks := Record.asksBelow_build (ofSource source kind options).lines
  have hcoherent := (Record.coherent_classifyEach hasks ids).1
  exact hcoherent.classify_eq hasks id

/-- A body and its parentheses agree about each other, whatever groups are asked for before the one
and before the other. -/
theorem routineBody_follows_parens {id : Nat} {body : Group} {closed : Place} {ids : List Nat} :
    let analysis := ofSource source kind options
    analysis.tree.group? id = some body → kindBehind source kind options ids id = .routineBody →
    body.word.text = "" →
    analysis.lines.byteAt closed = Ascii.closeParen → closed < body.opened →
    (∀ entry ∈ analysis.lines.stretch (analysis.lines.next closed) body.opened,
      entry.2 ∈ [Ascii.space, Ascii.tab, Ascii.lineFeed]) →
    ∃ before params, analysis.tree.previousSibling? id = some before ∧
      analysis.tree.group? before = some params ∧ params.closed = closed ∧
      ∀ ids', kindBehind source kind options ids' before ∈
          [.routineDeclaration, .constructorClause, .throwParens] ∧
        kindBehind source kind options ids' before ≠ .routineCall := by
  intro analysis hbody hkind hword hbyte hlt hblank
  rw [kindBehind_eq] at hkind
  obtain ⟨before, params, hprevious, hparams, hclosed, hrole⟩ :=
    GroupTree.parens_of_routineBody analysis.lines hbody hkind hword hbyte hlt hblank
  refine ⟨before, params, hprevious, hparams, hclosed, fun ids' => ?_⟩
  have hasked : kindBehind source kind options ids' before ∈
      [.routineDeclaration, .constructorClause, .throwParens] := by
    rw [kindBehind_eq]
    exact hrole
  refine ⟨hasked, fun hcall => ?_⟩
  rw [hcall] at hasked
  exact absurd hasked (by decide)

def bodyText : Bytes := Bytes.ofString "F()\n\x7b\x7d"

/-- The body on the second line and the parentheses on the first one agree. -/
theorem routineBody_follows_parens_on_next_line :
    let analysis := ofSource bodyText .implementation {}
    ∃ body, analysis.tree.group? 2 = some body ∧
      kindBehind bodyText .implementation {} [] 2 = .routineBody ∧ body.word.text = "" ∧
      ∃ before params, analysis.tree.previousSibling? 2 = some before ∧
        analysis.tree.group? before = some params ∧ params.closed = .on 1 2 ∧
        ∀ ids, kindBehind bodyText .implementation {} ids before ∈
            [.routineDeclaration, .constructorClause, .throwParens] ∧
          kindBehind bodyText .implementation {} ids before ≠ .routineCall := by
  have hbody : (ofSource bodyText .implementation {}).tree.group? 2 =
      some ⟨.brace, .on 2 0, .on 2 1, ⟨"", .on 1 2⟩, .on 1 0, some 0, []⟩ := by decide +kernel
  have hkind : kindBehind bodyText .implementation {} [] 2 = .routineBody := by decide +kernel
  have hbyte : (ofSource bodyText .implementation {}).lines.byteAt (.on 1 2) = Ascii.closeParen := by
    decide +kernel
  have hblank : ∀ entry ∈ (ofSource bodyText .implementation {}).lines.stretch
        ((ofSource bodyText .implementation {}).lines.next (.on 1 2)) (.on 2 0),
      entry.2 ∈ [Ascii.space, Ascii.tab, Ascii.lineFeed] := by decide +kernel
  exact ⟨_, hbody, hkind, rfl, routineBody_follows_parens bodyText .implementation {} hbody hkind
    rfl hbyte (Place.on_lt_on.mpr (.inl (by decide))) hblank⟩

end Analysis
end BracketLint
