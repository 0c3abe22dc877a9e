import BracketLint.Proofs.Group.Reports

/-!
What decides the role of a group, case by case: for parentheses the word in front of them or what
stands around them, for braces their head, the group right before them, or neither of both.
-/

namespace BracketLint

namespace Verdict

variable {lines : Lines} {tree : GroupTree} {id parent : Nat} {group : Group}

section Inquiry

variable (hgroup : tree.group? id = some group) (hparent : group.parent = some parent)
include hgroup hparent

theorem inquiry_of_paren (hshape : group.shape = .paren) :
    inquiry lines tree id = ofParens lines tree id parent group := by
  rw [inquiry, hgroup]
  dsimp only
  rw [hparent]
  dsimp only
  rw [hshape]

theorem inquiry_of_brace (hshape : group.shape = .brace) :
    inquiry lines tree id = ofBraces lines tree id parent group := by
  rw [inquiry, hgroup]
  dsimp only
  rw [hparent]
  dsimp only
  rw [hshape]

end Inquiry

section Parens

/-- The roles that words in front of parentheses give. -/
def keywordKinds : List GroupKind :=
  [.condition, .switchParens, .catchParens, .asmBody, .throwParens, .expressionParens]

theorem mem_keywordKinds {word : String} {kind : GroupKind} (h : keywordKind? word = some kind) :
    kind ∈ keywordKinds := by
  unfold keywordKind? at h
  split at h
  case h_12 =>
    split at h <;> cases h
    decide
  all_goals
    cases h
    decide

theorem keywordKind?_ne_routineDeclaration (word : String) :
    keywordKind? word ≠ some .routineDeclaration := by
  intro h
  have hmem := mem_keywordKinds h
  revert hmem
  decide

/-- Parentheses among declarations set a member, declare a routine, or belong to a call with no
definition behind it. -/
theorem declarationKind_cases :
    declarationKind lines tree id group = .constructorClause ∨
      declarationKind lines tree id group = .routineDeclaration ∨
        declarationKind lines tree id group = .routineCall ∧
          opensDefinition lines tree id group = false := by
  rw [declarationKind]
  split_ifs with hmember htemplate hopens
  · exact .inl rfl
  · exact .inr (.inl rfl)
  · exact .inr (.inl rfl)
  · rw [Bool.or_eq_true, not_or] at hopens
    exact .inr (.inr ⟨rfl, Bool.eq_false_iff.mpr hopens.2⟩)

theorem kind_ofParens_of_keyword {own : GroupKind} (hkeyword : keywordKind? group.word.text = some own)
    (kindOf : Nat → GroupKind) :
    ((ofParens lines tree id parent group).value kindOf).kind = own := by
  rw [ofParens, hkeyword]
  dsimp only
  split
  · rfl
  · rfl

/-- The role of parentheses that neither a keyword nor the byte in front of them decides: by the group
around them. -/
theorem ofParens_cases_of_around (hkeyword : keywordKind? group.word.text = none)
    (hexpression : (group.word.text == "" &&
      expressionBytes.contains (byteBeforeWord lines group).1) = false)
    (kindOf : Nat → GroupKind) :
    let kind := ((ofParens lines tree id parent group).value kindOf).kind
    kindOf parent = .unknown ∧ kind = .unknown ∨
      kindOf parent ≠ .unknown ∧
        (kind = .constructorClause ∨ kind = .routineDeclaration ∨
          kind = .routineCall ∧ opensDefinition lines tree id group = false) := by
  intro kind
  have hkind : kind = if kindOf parent == .unknown then .unknown
      else if (kindOf parent).isDeclarationScope then declarationKind lines tree id group
      else if opensDefinition lines tree id group then .routineDeclaration
      else .routineCall := by
    change ((ofParens lines tree id parent group).value kindOf).kind = _
    rw [ofParens, hkeyword]
    dsimp only
    rw [hexpression, if_neg Bool.false_ne_true]
    rfl
  rw [hkind]
  split_ifs with hunknown hscope hopens
  · exact .inl ⟨beq_iff_eq.mp hunknown, rfl⟩
  · exact .inr ⟨fun heq => hunknown (beq_iff_eq.mpr heq), declarationKind_cases⟩
  · exact .inr ⟨fun heq => hunknown (beq_iff_eq.mpr heq), .inr (.inl rfl)⟩
  · exact .inr ⟨fun heq => hunknown (beq_iff_eq.mpr heq),
      .inr (.inr ⟨rfl, Bool.eq_false_iff.mpr hopens⟩)⟩

/-- The role of parentheses behind a word, case by case. -/
theorem ofParens_cases (hword : group.word.text ≠ "") (kindOf : Nat → GroupKind) :
    let kind := ((ofParens lines tree id parent group).value kindOf).kind
    keywordKind? group.word.text = some kind ∨
      keywordKind? group.word.text = none ∧
        (kindOf parent = .unknown ∧ kind = .unknown ∨
          kindOf parent ≠ .unknown ∧
            (kind = .constructorClause ∨ kind = .routineDeclaration ∨
              kind = .routineCall ∧ opensDefinition lines tree id group = false)) := by
  intro kind
  cases hkeyword : keywordKind? group.word.text with
  | some own => exact .inl (congrArg some (kind_ofParens_of_keyword hkeyword kindOf).symm)
  | none =>
    have hbare : (group.word.text == "") = false := beq_eq_false_iff_ne.mpr hword
    exact .inr ⟨rfl, ofParens_cases_of_around hkeyword (by rw [hbare, Bool.false_and]) kindOf⟩

variable (lines tree id parent group) in
/-- The roles of parentheses, behind a word or not. -/
theorem ofParens_roles (kindOf : Nat → GroupKind) :
    let kind := ((ofParens lines tree id parent group).value kindOf).kind
    kind ∈ keywordKinds ∨ kind = .unknown ∨ kind = .constructorClause ∨
      kind = .routineDeclaration ∨
        kind = .routineCall ∧ opensDefinition lines tree id group = false := by
  intro kind
  cases hkeyword : keywordKind? group.word.text with
  | some own =>
    left
    rw [show kind = own from kind_ofParens_of_keyword hkeyword kindOf]
    exact mem_keywordKinds hkeyword
  | none =>
    cases hexpression : group.word.text == "" &&
        expressionBytes.contains (byteBeforeWord lines group).1 with
    | true =>
      left
      have hkind : kind = .expressionParens := by
        change ((ofParens lines tree id parent group).value kindOf).kind = _
        rw [ofParens, hkeyword]
        dsimp only
        rw [hexpression, if_pos rfl]
        rfl
      rw [hkind]
      decide
    | false =>
      right
      exact (ofParens_cases_of_around hkeyword hexpression kindOf).imp (fun h => h.2) fun h => h.2

theorem opensDefinition_of_routineCall {kindOf : Nat → GroupKind}
    (h : ((ofParens lines tree id parent group).value kindOf).kind = .routineCall) :
    opensDefinition lines tree id group = false := by
  have hroles := ofParens_roles lines tree id parent group kindOf
  rw [h] at hroles
  rcases hroles with hkeyword | hother | hother | hother | ⟨-, hopens⟩
  · exact absurd hkeyword (by decide)
  · cases hother
  · cases hother
  · cases hother
  · exact hopens

/-- No parentheses have a name. -/
theorem name_ofParens (kindOf : Nat → GroupKind) :
    ((ofParens lines tree id parent group).value kindOf).name = none := by
  rw [ofParens]
  split
  · split <;> rfl
  · split <;> rfl

-- The negative side of `opensDefinition`, for parentheses that braces follow.
theorem exists_between_of_opensDefinition {next : Nat} {body : Group}
    (hnext : tree.nextSibling? id = some next) (hbody : tree.group? next = some body)
    (hshape : body.shape = .brace) (hopens : opensDefinition lines tree id group = false) :
    ∃ entry ∈ lines.stretch (lines.next group.closed) body.opened,
      Stretch.isQualifierByte entry.2 = false := by
  rw [opensDefinition, hnext, Option.bind_some, hbody] at hopens
  dsimp only at hopens
  rw [hshape, beq_self_eq_true, Bool.true_and, List.all_eq_false] at hopens
  obtain ⟨entry, hentry, hbyte⟩ := hopens
  exact ⟨entry, hentry, Bool.eq_false_iff.mpr hbyte⟩

end Parens

section Braces

/-- The verdicts on a brace by its head, each with what it rests on. -/
inductive IsOfHead (lines : Lines) (group : Group) : Verdict → Prop
  | initializer : IsOfHead lines group { kind := .initializer }
  | classHead {name : Option String}
      (h : ClassHead.name? lines group.statementStart group.opened = some name) :
      IsOfHead lines group { kind := .classBody, name }
  | block : IsOfHead lines group { kind := .codeBody }
  | literal (hword : group.word.text = "")
      (hquote : (byteBeforeWord lines group).1 = Ascii.doubleQuote) :
      IsOfHead lines group
        { kind := .namespaceBody, name := literalBefore? lines (byteBeforeWord lines group).2 }
  | spaceName {key : Word}
      (h : key ∈ lines.namesIn (lines.stretch group.statementStart group.opened)) :
      IsOfHead lines group
        { kind := .namespaceBody
          name := if (lines.nameAfter key.behind).text == "" then none
            else some (lines.nameAfter key.behind).text }
  | enumeration :
      IsOfHead lines group
        { kind := .enumBody
          name := enumName?
            ((lines.namesIn (lines.stretch group.statementStart group.opened)).map (·.text)) }
  | classKey : IsOfHead lines group { kind := .classBody }
  | qualifier (h : routineWords.contains group.word.text = true) :
      IsOfHead lines group { kind := .routineBody }

theorem isOfHead_of_ofBraceHead? {around : GroupKind} {verdict : Verdict}
    (h : ofBraceHead? lines tree parent group around = some verdict) :
    IsOfHead lines group verdict := by
  unfold ofBraceHead? at h
  dsimp only at h
  split at h
  · cases h
    exact .initializer
  split at h
  · next name hname =>
    cases h
    split_ifs at hname
    exact .classHead hname
  split at h
  · cases h
    exact .block
  split at h
  · next hliteral =>
    cases h
    rw [Bool.and_eq_true, Bool.and_eq_true, beq_iff_eq, beq_iff_eq, beq_iff_eq] at hliteral
    exact .literal hliteral.1.2 hliteral.2
  split at h
  · next key hkey =>
    cases h
    exact .spaceName (List.mem_of_find?_eq_some hkey)
  split at h
  · cases h
    exact .enumeration
  split at h
  · cases h
    exact .classKey
  split at h
  · next hqualifier =>
    cases h
    exact .qualifier hqualifier
  · cases h

variable (lines tree id parent group) in
/-- A brace that its head does not explain is explained by the group that closes right before it, or
by neither. -/
theorem ofBraces_cases (kindOf : Nat → GroupKind) :
    let verdict := (ofBraces lines tree id parent group).value kindOf
    IsOfHead lines group verdict ∨
      (∃ sibling body, group.word.text = "" ∧
        (byteBeforeWord lines group).1 = Ascii.closeParen ∧
        tree.previousSiblingClosingAt? id (byteBeforeWord lines group).2 = some sibling ∧
        bodyBehind? (kindOf sibling) = some body ∧ verdict = { kind := body }) ∨
      verdict = ofBareBrace lines group (kindOf parent) := by
  intro verdict
  have hverdict : verdict = (ofBraces lines tree id parent group).value kindOf := rfl
  rw [ofBraces, Inquiry.value] at hverdict
  cases hhead : ofBraceHead? lines tree parent group (kindOf parent) with
  | some found =>
    rw [hhead] at hverdict
    rw [hverdict]
    exact .inl (isOfHead_of_ofBraceHead? hhead)
  | none =>
    right
    rw [hhead] at hverdict
    dsimp only at hverdict
    split at hverdict
    · exact .inr hverdict
    · next sibling hsibling =>
      split_ifs at hsibling with hbare
      rw [Bool.and_eq_true, beq_iff_eq, beq_iff_eq] at hbare
      rw [Inquiry.value] at hverdict
      cases hbody : bodyBehind? (kindOf sibling) with
      | some body =>
        rw [hbody] at hverdict
        exact .inl ⟨sibling, body, hbare.1, hbare.2, hsibling, hbody, hverdict⟩
      | none =>
        rw [hbody] at hverdict
        exact .inr hverdict

variable (lines group) in
/-- The roles of a brace that nothing in front of it explains. -/
theorem ofBareBrace_roles (around : GroupKind) :
    let verdict := ofBareBrace lines group around
    verdict.name = none ∧ (verdict.kind = .codeBody ∨ verdict.kind = .initializer ∨
      verdict.kind = .unknown ∨ verdict.kind = .routineBody ∧
        (group.word.text = "" ∧ (byteBeforeWord lines group).1 = Ascii.closeBracket ∨
          followsArrow lines group = true)) := by
  intro verdict
  have hverdict : verdict = ofBareBrace lines group around := rfl
  rw [ofBareBrace] at hverdict
  dsimp only at hverdict
  rw [hverdict]
  split_ifs with hblock hlambda harrow hnamed
  · exact ⟨rfl, .inl rfl⟩
  · rw [Bool.and_eq_true, beq_iff_eq, beq_iff_eq] at hlambda
    exact ⟨rfl, .inr (.inr (.inr ⟨rfl, .inl hlambda⟩))⟩
  · exact ⟨rfl, .inr (.inr (.inr ⟨rfl, .inr harrow⟩))⟩
  · exact ⟨rfl, .inr (.inl rfl)⟩
  · exact ⟨rfl, .inr (.inr (.inl rfl))⟩

theorem bodyBehind?_roles {kind body : GroupKind} (h : bodyBehind? kind = some body) :
    body = .codeBody ∨ body = .routineBody ∧ (kind = .routineCall ∨ kind = .routineDeclaration ∨
      kind = .constructorClause ∨ kind = .throwParens) := by
  cases kind <;> cases h <;> simp

end Braces

end Verdict
end BracketLint
