import BracketLint.Proofs.Analysis.LineEnds
import BracketLint.Proofs.Group.Outline
import BracketLint.Proofs.Group.PlainText
import BracketLint.Proofs.Rule.ReportedGroups
import BracketLint.Proofs.Text.Words

/-!
The dump of the groups. It has one line for each group, in the order of their numbers, and each line
can be read from left to right: every part of it ends where a byte stands that the part cannot hold.
The depths give back the parents, so the dump determines the tree, apart from the end of the file.
-/

namespace BracketLint

section Delimiters

variable {α : Type} {a : α} {front front' behind behind' : List α}

/-- A part of a text ends in front of a byte that it does not hold. -/
theorem append_inj_of_not_mem (hfront : a ∉ front) (hfront' : a ∉ front')
    (hbehind : ∀ b, behind.head? = some b → b = a) (hbehind' : ∀ b, behind'.head? = some b → b = a)
    (h : front ++ behind = front' ++ behind') : front = front' ∧ behind = behind' := by
  induction front generalizing front' with
  | nil =>
    cases front' with
    | nil => exact ⟨rfl, h⟩
    | cons b front' =>
      have hhead : behind.head? = some b := by
        rw [List.nil_append] at h
        rw [h]
        rfl
      exact absurd (hbehind b hhead ▸ List.mem_cons_self) hfront'
  | cons c front ih =>
    cases front' with
    | nil =>
      have hhead : behind'.head? = some c := by
        rw [List.nil_append] at h
        rw [← h]
        rfl
      exact absurd (hbehind' c hhead ▸ List.mem_cons_self) hfront
    | cons b front' =>
      rw [List.cons_append, List.cons_append, List.cons.injEq] at h
      obtain ⟨rfl, h⟩ := h
      obtain ⟨rfl, hrest⟩ := ih (fun hmem => hfront (List.mem_cons_of_mem _ hmem))
        (fun hmem => hfront' (List.mem_cons_of_mem _ hmem)) h
      exact ⟨rfl, hrest⟩

theorem append_cons_inj_of_not_mem (hfront : a ∉ front) (hfront' : a ∉ front')
    (h : front ++ a :: behind = front' ++ a :: behind') : front = front' ∧ behind = behind' := by
  have hhead (rest : List α) (b : α) (hb : (a :: rest).head? = some b) : b = a :=
    (Option.some.inj hb).symm
  obtain ⟨heq, hrest⟩ := append_inj_of_not_mem hfront hfront' (hhead _) (hhead _) h
  exact ⟨heq, List.tail_eq_of_cons_eq hrest⟩

/-- An indentation ends where something else than a blank stands. -/
theorem replicate_append_inj {m n : Nat} (hfront : front.head? ≠ some a)
    (hfront' : front'.head? ≠ some a)
    (h : List.replicate m a ++ front = List.replicate n a ++ front') : m = n ∧ front = front' := by
  induction m generalizing n with
  | zero =>
    cases n with
    | zero => exact ⟨rfl, h⟩
    | succ n =>
      rw [List.replicate_zero, List.nil_append] at h
      rw [h] at hfront
      exact absurd rfl hfront
  | succ m ih =>
    cases n with
    | zero =>
      rw [List.replicate_zero, List.nil_append] at h
      rw [← h] at hfront'
      exact absurd rfl hfront'
    | succ n =>
      rw [List.replicate_succ, List.replicate_succ, List.cons_append, List.cons_append] at h
      obtain ⟨rfl, heq⟩ := ih (List.tail_eq_of_cons_eq h)
      exact ⟨rfl, heq⟩

end Delimiters

namespace Text

/-- A text of lines, each with a separator behind it, splits into these lines and an empty rest. -/
theorem split_flatMap {ι : Type} {separator : Char} {line : ι → List Char} {ids : List ι}
    (h : ∀ id ∈ ids, separator ∉ line id) :
    split separator (ids.flatMap fun id => line id ++ [separator]) = ids.map line ++ [[]] := by
  induction ids with
  | nil => rfl
  | cons id ids ih =>
    rw [List.flatMap_cons, List.append_assoc, List.singleton_append, split_append_cons,
      split_of_not_mem (h id List.mem_cons_self),
      ih fun other hother => h other (List.mem_cons_of_mem _ hother)]
    rfl

end Text

namespace Place

theorem isDigit_of_mem_toString {n : Nat} {c : Char} (h : c ∈ (toString n).toList) :
    c.isDigit = true := by
  rw [Nat.toString_eq_ofList_toDigits, String.toList_ofList] at h
  exact Nat.isDigit_of_mem_toDigits (by decide) (by decide) h

theorem mem_render {p : Place} {c : Char} (h : c ∈ p.render.toList) :
    c ∈ ['r', 'e', 'n', 'd', ':'] ∨ c.isDigit = true := by
  cases p with
  | front =>
    have hfront : front.render.toList = ['r', 'e', 'n', 'd'] := by decide
    rw [hfront] at h
    exact .inl (List.mem_append_left [':'] h)
  | on line column =>
    rw [render, String.toList_append, String.toList_append, List.mem_append, List.mem_append] at h
    rcases h with (h | h) | h
    · exact .inr (isDigit_of_mem_toString h)
    · obtain rfl : c = ':' := List.mem_singleton.mp h
      exact .inl (by decide)
    · exact .inr (isDigit_of_mem_toString h)

/-- A written number shows which one it is: it is read again from its digits. -/
theorem toList_toString_inj {m n : Nat} (h : (toString m).toList = (toString n).toList) :
    m = n := by
  rw [Nat.toString_eq_ofList_toDigits, Nat.toString_eq_ofList_toDigits, String.toList_ofList,
    String.toList_ofList] at h
  rw [← Nat.ofDigitChars_toDigits (b := 10) (n := m) (by decide) (by decide), h,
    Nat.ofDigitChars_toDigits (by decide) (by decide)]

/-- A written position shows which one it is. -/
theorem render_injective {p q : Place} (h : p.render = q.render) : p = q := by
  have hcolon {n : Nat} : ':' ∉ (toString n).toList := by
    intro hmem
    have hdigit := isDigit_of_mem_toString hmem
    revert hdigit
    decide
  have hon (line column : Nat) : (on line column).render.toList =
      (toString line).toList ++ ':' :: (toString (column + 1)).toList := by
    rw [render, String.toList_append, String.toList_append, List.append_assoc]
    rfl
  have hne (line column : Nat) : front.render ≠ (on line column).render := by
    intro heq
    have hmem : ':' ∈ front.render.toList := by
      rw [heq, hon]
      exact List.mem_append_right _ List.mem_cons_self
    revert hmem
    decide
  cases p with
  | front =>
    cases q with
    | front => rfl
    | on line column => exact absurd h (hne line column)
  | on line column =>
    cases q with
    | front => exact absurd h.symm (hne line column)
    | on line' column' =>
      have hlist := congrArg String.toList h
      rw [hon, hon] at hlist
      obtain ⟨hline, hcolumn⟩ := append_cons_inj_of_not_mem hcolon hcolon hlist
      obtain rfl := toList_toString_inj hline
      rw [Nat.succ.inj (toList_toString_inj hcolumn)]

end Place

namespace GroupKind

/-- All roles. -/
def all : List GroupKind :=
  [file, condition, switchParens, catchParens, asmBody, throwParens, expressionParens,
    constructorClause, routineDeclaration, routineCall, initializer, classBody, codeBody,
    namespaceBody, enumBody, routineBody, unknown]

theorem mem_all (kind : GroupKind) : kind ∈ all := by
  cases kind <;> decide

theorem name_injective {kind kind' : GroupKind} (h : kind.name = kind'.name) : kind = kind' := by
  have hall : ∀ k ∈ all, ∀ k' ∈ all, k.name = k'.name → k = k' := by decide +kernel
  exact hall kind (mem_all kind) kind' (mem_all kind') h

/-- The name of a role is one word. -/
theorem name_plain (kind : GroupKind) :
    kind.name ≠ "" ∧ ' ' ∉ kind.name.toList ∧ '\n' ∉ kind.name.toList := by
  have hall : ∀ k ∈ all, k.name ≠ "" ∧ ' ' ∉ k.name.toList ∧ '\n' ∉ k.name.toList := by
    decide +kernel
  exact hall kind (mem_all kind)

end GroupKind

/-- Two groups agree in what a dump shows of them. It does not show where the file ends. -/
structure Group.ShownAlike (group group' : Group) : Prop where
  parent : group.parent = group'.parent
  shape : group.shape = group'.shape
  opened : group.opened = group'.opened
  word : group.word.text = group'.word.text
  closed : group.parent ≠ none → group.closed = group'.closed

namespace Analysis

/-- How the brackets of a group are written. -/
def bracketsText (group : Group) : String :=
  " " ++ group.shape.opener ++ group.shape.closer ++ " " ++ group.opened.render ++ ".." ++
    group.closed.render

/-- How the word in front of a group is written. -/
def wordText (word : String) : String := if word == "" then "" else " after \"" ++ word ++ "\""

/-- How the name of a group is written. -/
def nameText : Option String → String
  | some name => " name=" ++ name
  | none => ""

/-- What the dump says about a group behind the indentation. -/
def label (analysis : Analysis) (id : Nat) : String :=
  match analysis.tree.group? id with
  | none => ""
  | some group =>
    (analysis.kind id).name ++ (if group.parent.isSome then bracketsText group else "") ++
      wordText group.word.text ++ nameText (analysis.name? id)

/-- The line of a group in the dump: what it says about the group, indented by twice the depth of the
group. -/
def line (analysis : Analysis) (id : Nat) : List Char :=
  List.replicate (2 * analysis.tree.depth id) ' ' ++ (analysis.label id).toList

theorem toList_renderGroup {analysis : Analysis} {id : Nat} {group : Group}
    (hgroup : analysis.tree.group? id = some group) :
    (analysis.renderGroup id).toList = analysis.line id ++ ['\n'] := by
  have hline : analysis.renderGroup id =
      String.ofList (List.replicate (2 * analysis.tree.depth id) ' ') ++ analysis.label id ++
        "\n" := by
    rw [renderGroup, label, hgroup]
    cases analysis.name? id <;> simp only [bracketsText, wordText, nameText, String.append_assoc]
  rw [hline, String.toList_append, String.toList_append, String.toList_ofList]
  rfl

section Parts

variable {group group' : Group} {word word' : String} {name? name?' : Option String}

theorem toList_bracketsText (group : Group) : (bracketsText group).toList =
    ' ' :: (group.shape.opener.toList ++ (group.shape.closer.toList ++
      ' ' :: (group.opened.render.toList ++ '.' :: '.' :: group.closed.render.toList))) := by
  simp only [bracketsText, String.toList_append, List.append_assoc]
  rfl

/-- The brackets of a group and their positions can be read off a line. -/
theorem bracketsText_inj {rest rest' : List Char} (hrest : ∀ c, rest.head? = some c → c = ' ')
    (hrest' : ∀ c, rest'.head? = some c → c = ' ')
    (h : (bracketsText group).toList ++ rest = (bracketsText group').toList ++ rest') :
    group.shape = group'.shape ∧ group.opened = group'.opened ∧ group.closed = group'.closed ∧
      rest = rest' := by
  have hdot (p : Place) : '.' ∉ p.render.toList := by
    intro hmem
    rcases Place.mem_render hmem with hmem | hdigit
    · revert hmem
      decide
    · cases hdigit
  have hblank (p : Place) : ' ' ∉ p.render.toList := by
    intro hmem
    rcases Place.mem_render hmem with hmem | hdigit
    · revert hmem
      decide
    · cases hdigit
  simp only [toList_bracketsText, List.cons_append, List.append_assoc, List.cons.injEq,
    true_and] at h
  have hshape : group.shape = group'.shape := by
    have hfirst := congrArg List.head? h
    cases hgroup : group.shape <;> cases hgroup' : group'.shape <;>
      rw [hgroup, hgroup'] at hfirst
    · cases hfirst
    · cases hfirst
  rw [hshape] at h
  have hplaces := List.tail_eq_of_cons_eq (List.append_cancel_left (List.append_cancel_left h))
  obtain ⟨hopened, hclosed⟩ := append_cons_inj_of_not_mem (hdot _) (hdot _) hplaces
  obtain ⟨hclosed, hbehind⟩ := append_inj_of_not_mem (hblank _) (hblank _) hrest hrest'
    (List.tail_eq_of_cons_eq hclosed)
  exact ⟨hshape, Place.render_injective (String.toList_inj.mp hopened),
    Place.render_injective (String.toList_inj.mp hclosed), hbehind⟩

theorem toList_wordText_of_ne (h : word ≠ "") (rest : List Char) :
    (wordText word).toList ++ rest = " after \"".toList ++ (word.toList ++ '"' :: rest) := by
  have hword : (word == "") = false := beq_eq_false_iff_ne.mpr h
  rw [wordText, hword]
  simp only [Bool.false_eq_true, if_false, String.toList_append, List.append_assoc]
  rfl

theorem wordText_nameText_head? {c : Char}
    (h : ((wordText word).toList ++ (nameText name?).toList).head? = some c) : c = ' ' := by
  by_cases hword : word = ""
  · subst hword
    cases name? with
    | none => cases h
    | some name =>
      rw [nameText, String.toList_append] at h
      exact (Option.some.inj h).symm
  · rw [toList_wordText_of_ne hword] at h
    exact (Option.some.inj h).symm

/-- No name is written as a word. -/
theorem nameText_ne_wordText (hword : word ≠ "") :
    (wordText "").toList ++ (nameText name?).toList ≠
      (wordText word).toList ++ (nameText name?').toList := by
  rw [toList_wordText_of_ne hword]
  cases name? with
  | none => exact fun h => List.cons_ne_nil _ _ h.symm
  | some name =>
    rw [nameText, String.toList_append]
    intro h
    have hsecond := congrArg (fun text => text[1]?) h
    cases hsecond

theorem wordText_nameText_inj (hword : IsPlainText word) (hword' : IsPlainText word')
    (h : (wordText word).toList ++ (nameText name?).toList =
      (wordText word').toList ++ (nameText name?').toList) : word = word' := by
  by_cases hempty : word = ""
  · by_cases hempty' : word' = ""
    · rw [hempty, hempty']
    · rw [hempty] at h
      exact absurd h (nameText_ne_wordText hempty')
  · by_cases hempty' : word' = ""
    · rw [hempty'] at h
      exact absurd h.symm (nameText_ne_wordText hempty)
    · -- The first quote behind the opening one ends the word.
      rw [toList_wordText_of_ne hempty, toList_wordText_of_ne hempty'] at h
      obtain ⟨heq, -⟩ := append_cons_inj_of_not_mem hword.1 hword'.1 (List.append_cancel_left h)
      exact String.toList_inj.mp heq

end Parts

variable {analysis analysis' : Analysis} {id : Nat} {group group' : Group}

theorem toList_label (hgroup : analysis.tree.group? id = some group) :
    (analysis.label id).toList = (analysis.kind id).name.toList ++
      ((if group.parent.isSome then (bracketsText group).toList else []) ++
        ((wordText group.word.text).toList ++ (nameText (analysis.name? id)).toList)) := by
  rw [label, hgroup]
  simp only [String.toList_append, List.append_assoc]
  cases group.parent.isSome <;> rfl

/-- A line starts with the name of a role. -/
theorem head?_label (hgroup : analysis.tree.group? id = some group) :
    (analysis.label id).toList.head? ≠ some ' ' := by
  obtain ⟨hne, hblank, -⟩ := (analysis.kind id).name_plain
  rw [toList_label hgroup]
  cases hname : (analysis.kind id).name.toList with
  | nil => exact absurd (String.toList_eq_nil_iff.mp hname) hne
  | cons c rest =>
    rintro ⟨⟩
    exact hblank (hname ▸ List.mem_cons_self)

theorem lineFeed_not_mem_label (hgroup : analysis.tree.group? id = some group)
    (hword : IsPlainText group.word.text)
    (hname : ∀ name, analysis.name? id = some name → '\n' ∉ name.toList) :
    '\n' ∉ (analysis.label id).toList := by
  have hplace (p : Place) : '\n' ∉ p.render.toList := by
    intro hmem
    rcases Place.mem_render hmem with hmem | hdigit
    · revert hmem
      decide
    · cases hdigit
  have hbrackets : '\n' ∉ (bracketsText group).toList := by
    rw [toList_bracketsText]
    cases group.shape <;>
      simp [hplace, Shape.opener, Shape.closer]
  have hwordText : '\n' ∉ (wordText group.word.text).toList := by
    by_cases hempty : group.word.text = ""
    · rw [hempty]
      decide
    · rw [← List.append_nil (wordText _).toList, toList_wordText_of_ne hempty]
      simp [hword.2]
  have hnameText : '\n' ∉ (nameText (analysis.name? id)).toList := by
    cases hfound : analysis.name? id with
    | none => decide
    | some name =>
      rw [nameText, String.toList_append]
      simp [hname name hfound]
  rw [toList_label hgroup]
  simp only [List.mem_append, not_or]
  refine ⟨(analysis.kind id).name_plain.2.2, ?_, hwordText, hnameText⟩
  cases group.parent.isSome
  · exact List.not_mem_nil
  · exact hbrackets

theorem line_inj (hgroup : analysis.tree.group? id = some group)
    (hgroup' : analysis'.tree.group? id = some group') (h : analysis.line id = analysis'.line id) :
    analysis.tree.depth id = analysis'.tree.depth id ∧ analysis.label id = analysis'.label id := by
  obtain ⟨htwice, hlabel⟩ := replicate_append_inj (head?_label hgroup) (head?_label hgroup') h
  exact ⟨Nat.eq_of_mul_eq_mul_left Nat.two_pos htwice, String.toList_inj.mp hlabel⟩

/-- The role of a group, its word and, inside the file, its brackets can be read off its line. -/
theorem label_inj (hgroup : analysis.tree.group? id = some group)
    (hgroup' : analysis'.tree.group? id = some group') (hparent : group.parent = group'.parent)
    (hword : IsPlainText group.word.text) (hword' : IsPlainText group'.word.text)
    (h : analysis.label id = analysis'.label id) :
    analysis.kind id = analysis'.kind id ∧ group.word.text = group'.word.text ∧
      (group.parent ≠ none → group.shape = group'.shape ∧ group.opened = group'.opened ∧
        group.closed = group'.closed) := by
  have hlist := congrArg String.toList h
  rw [toList_label hgroup, toList_label hgroup', ← hparent] at hlist
  obtain ⟨-, hblank, -⟩ := (analysis.kind id).name_plain
  obtain ⟨-, hblank', -⟩ := (analysis'.kind id).name_plain
  cases hsome : group.parent with
  | none =>
    simp only [hsome, Option.isSome_none, Bool.false_eq_true, if_false, List.nil_append] at hlist
    obtain ⟨hkind, htail⟩ := append_inj_of_not_mem hblank hblank'
      (fun _ => wordText_nameText_head?) (fun _ => wordText_nameText_head?) hlist
    exact ⟨GroupKind.name_injective (String.toList_inj.mp hkind),
      wordText_nameText_inj hword hword' htail, fun hne => absurd rfl hne⟩
  | some parent =>
    simp only [hsome, Option.isSome_some, if_true] at hlist
    have hhead (group : Group) (rest : List Char) (c : Char)
        (hc : ((bracketsText group).toList ++ rest).head? = some c) : c = ' ' := by
      rw [toList_bracketsText] at hc
      exact (Option.some.inj hc).symm
    obtain ⟨hkind, hbehind⟩ := append_inj_of_not_mem hblank hblank' (hhead _ _) (hhead _ _) hlist
    obtain ⟨hshape, hopened, hclosed, htail⟩ := bracketsText_inj
      (fun _ => wordText_nameText_head?) (fun _ => wordText_nameText_head?) hbehind
    exact ⟨GroupKind.name_injective (String.toList_inj.mp hkind),
      wordText_nameText_inj hword hword' htail, fun _ => ⟨hshape, hopened, hclosed⟩⟩

section Source

variable (source : Bytes) (kind : FileKind) (options : ScrubOptions)

theorem isPlainText_word {id : Nat} {group : Group}
    (hgroup : (ofSource source kind options).tree.group? id = some group) :
    IsPlainText group.word.text := by
  rcases Nat.eq_zero_or_pos id with rfl | hpos
  · rw [GroupTree.eq_fileGroup_of_group?_zero hgroup]
    exact isPlainText_empty
  · obtain ⟨parent, -, hparent⟩ := GroupTree.parent_lt_of_group? _ _ _ hpos hgroup
    obtain ⟨hword, -⟩ := GroupTree.anchors_of_group? _ hgroup hparent
    rw [hword]
    exact Lines.isPlainText_wordInFrontOf _ _

theorem lineFeed_not_mem_line {id : Nat} (hid : id < (ofSource source kind options).tree.size) :
    '\n' ∉ (ofSource source kind options).line id := by
  have hgroup : (ofSource source kind options).tree.group? id = some _ :=
    Array.getElem?_eq_getElem hid
  rw [line, List.mem_append, not_or]
  refine ⟨fun hmem => ?_, lineFeed_not_mem_label hgroup
    (isPlainText_word source kind options hgroup) fun name hname => ?_⟩
  · cases (List.mem_replicate.mp hmem).2
  · exact lineFeed_not_mem_name? source kind options hgroup hname

/-- The lines of the dump are those of the groups, in the order of their numbers. -/
theorem split_render : Text.split '\n' (ofSource source kind options).render.toList =
    (List.range (ofSource source kind options).tree.size).map (ofSource source kind options).line ++
      [[]] := by
  have hlines : (ofSource source kind options).render.toList =
      (List.range (ofSource source kind options).tree.size).flatMap fun id =>
        (ofSource source kind options).line id ++ ['\n'] := by
    rw [render, (wellNested_ofSource source kind options).walk_eq, String.toList_join,
      List.flatMap_map]
    apply List.flatMap_congr
    intro id hid
    exact toList_renderGroup (Array.getElem?_eq_getElem (List.mem_range.mp hid))
  rw [hlines]
  apply Text.split_flatMap
  intro id hid
  exact lineFeed_not_mem_line source kind options (List.mem_range.mp hid)

/-- The group of the file is shown alike in all dumps. -/
theorem shownAlike_zero (source' : Bytes) (kind' : FileKind) (options' : ScrubOptions)
    {group group' : Group} (hgroup : (ofSource source kind options).tree.group? 0 = some group)
    (hgroup' : (ofSource source' kind' options').tree.group? 0 = some group') :
    group.ShownAlike group' := by
  rw [GroupTree.eq_fileGroup_of_group?_zero hgroup, GroupTree.eq_fileGroup_of_group?_zero hgroup']
  exact ⟨rfl, rfl, rfl, rfl, fun hne => absurd rfl hne⟩

end Source

/-- The dump of a file has one line for each group, in the order of their numbers, indented by twice
the depth of the group. Files with the same dump have the same groups, index by index, apart from the
end of the group of the whole file, which dumps leave out. -/
theorem render_inj (source source' : Bytes) (kind kind' : FileKind)
    (options options' : ScrubOptions) :
    let analysis := ofSource source kind options
    let analysis' := ofSource source' kind' options'
    Text.split '\n' analysis.render.toList =
        (List.range analysis.tree.size).map analysis.line ++ [[]] ∧
      (∀ id < analysis.tree.size, (analysis.label id).toList.head? ≠ some ' ') ∧
      (analysis.render = analysis'.render → analysis.tree.size = analysis'.tree.size ∧
        ∀ id < analysis.tree.size, ∃ group group', analysis.tree.group? id = some group ∧
          analysis'.tree.group? id = some group' ∧ analysis.kind id = analysis'.kind id ∧
            group.ShownAlike group') := by
  intro analysis analysis'
  have hsplit : Text.split '\n' analysis.render.toList = _ := split_render source kind options
  have hsplit' : Text.split '\n' analysis'.render.toList = _ :=
    split_render source' kind' options'
  refine ⟨hsplit, fun id hid => head?_label (Array.getElem?_eq_getElem hid), fun hsame => ?_⟩
  rw [hsame, hsplit'] at hsplit
  have hlines : (List.range analysis'.tree.size).map analysis'.line =
      (List.range analysis.tree.size).map analysis.line := List.append_cancel_right hsplit
  have hsize : analysis.tree.size = analysis'.tree.size := by
    have hlength := congrArg List.length hlines
    rw [List.length_map, List.length_map, List.length_range, List.length_range] at hlength
    exact hlength.symm
  have hgroups (id : Nat) (hid : id < analysis.tree.size) : ∃ group group',
      analysis.tree.group? id = some group ∧ analysis'.tree.group? id = some group' := by
    have hid' : id < analysis'.tree.groups.size := hid.trans_eq hsize
    exact ⟨_, _, Array.getElem?_eq_getElem hid, Array.getElem?_eq_getElem hid'⟩
  have hline (id : Nat) (hid : id < analysis.tree.size) :
      analysis.tree.depth id = analysis'.tree.depth id ∧ analysis.label id = analysis'.label id := by
    obtain ⟨group, group', hgroup, hgroup'⟩ := hgroups id hid
    rw [← hsize] at hlines
    exact line_inj hgroup hgroup' (List.map_inj_left.mp hlines id (List.mem_range.mpr hid)).symm
  refine ⟨hsize, fun id hid => ?_⟩
  obtain ⟨group, group', hgroup, hgroup'⟩ := hgroups id hid
  -- The depths give the parents.
  have hparent := (wellNested_ofSource source kind options).parent?_eq_of_depth_eq
    (wellNested_ofSource source' kind' options') (ordered_children_ofSource source kind options)
    (fun id hid => (hline id hid).1) (ordered_children_ofSource source' kind' options') hsize hid
  rw [GroupTree.parent?_eq hgroup, GroupTree.parent?_eq hgroup'] at hparent
  obtain ⟨hkind, hword, hbrackets⟩ := label_inj hgroup hgroup' hparent
    (isPlainText_word source kind options hgroup) (isPlainText_word source' kind' options' hgroup')
    (hline id hid).2
  refine ⟨group, group', hgroup, hgroup', hkind, ?_⟩
  rcases Nat.eq_zero_or_pos id with rfl | hpos
  · exact shownAlike_zero source kind options source' kind' options' hgroup hgroup'
  · obtain ⟨parent, -, hsome⟩ := GroupTree.parent_lt_of_group? _ _ _ hpos hgroup
    obtain ⟨hshape, hopened, hclosed⟩ := hbrackets (hsome ▸ Option.some_ne_none parent)
    exact ⟨hparent, hshape, hopened, hword, fun _ => hclosed⟩

/-- A file with and without a line feed behind its last line. -/
theorem render_inj_template :
    let analysis := ofSource (Bytes.ofString "T<U>(x);") .implementation {}
    let analysis' := ofSource (Bytes.ofString "T<U>(x);\n") .implementation {}
    analysis.render = analysis'.render ∧ ∃ group group', analysis.tree.group? 1 = some group ∧
      group.opened = .on 1 4 ∧ group.word.text = "T" ∧ analysis'.tree.group? 1 = some group' ∧
        group.ShownAlike group' := by
  intro analysis analysis'
  have hsame : analysis.render = analysis'.render := by
    apply congrArg render
    apply ofSource_eq_of_lines_eq
    decide +kernel
  have hfirst : analysis.tree.group? 1 =
      some ⟨.paren, .on 1 4, .on 1 6, ⟨"T", .on 1 0⟩, .on 1 0, some 0, []⟩ := by decide +kernel
  obtain ⟨-, hgroups⟩ := (render_inj (Bytes.ofString "T<U>(x);") (Bytes.ofString "T<U>(x);\n")
    .implementation .implementation {} {}).2.2 hsame
  obtain ⟨group, group', hgroup, hgroup', -, hshown⟩ :=
    hgroups 1 (GroupTree.lt_size_of_group? hfirst)
  obtain rfl := Option.some.inj (hfirst.symm.trans hgroup)
  exact ⟨hsame, _, group', hfirst, rfl, rfl, hgroup', hshown⟩

/-- Files that end on different lines can have the same dump. -/
theorem render_eq_of_lineFeed :
    let analysis := ofSource [] .implementation {}
    let analysis' := ofSource [Ascii.lineFeed] .implementation {}
    analysis.render = analysis'.render ∧
      (analysis.tree.group? 0).map (·.closed) ≠ (analysis'.tree.group? 0).map (·.closed) := by
  decide +kernel

end Analysis
end BracketLint
