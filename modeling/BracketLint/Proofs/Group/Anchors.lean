import BracketLint.Analysis
import BracketLint.Proofs.Group.Places
import BracketLint.Proofs.Lines.Words

/-!
The anchors of a group: where the word in front of its bracket stands and where its statement starts.
Whatever rule finds the word, it stands in front of the bracket, and the statement starts no later
than the word. A word that no operator rule puts together is read off its line.
-/

namespace BracketLint
open scoped Place

namespace Lines

/-- Whether the word in front of a bracket is put together from the parts of an operator's name: the
keyword and the symbol behind it, or the keyword and `new` or `delete`. -/
def namesOperator (lines : Lines) (opened : Place) : Bool :=
  let word := lines.wordBefore (lines.prev opened)
  if word.text == "" then (lines.operatorName? opened).isSome
  else (word.text == "new" || word.text == "delete") &&
    (lines.wordBefore (lines.prev word.place)).text == "operator"

variable {lines : Lines} {shape : Shape} {opened : Place} {word : Word}

theorem prev_le (p : Place) : lines.prev p ≤ p := by
  by_cases hfront : p = .front
  · rw [hfront]
    exact le_refl _
  · exact (prev_lt hfront).le

/-- A word that is spelled does not stand at the front, as there is no text. -/
theorem Spells.ne_front (h : lines.Spells word) (htext : word.text ≠ "") : word.place ≠ .front := by
  intro hfront
  rw [Spells, hfront] at h
  have hempty : Bytes.ofString word.text = [] := List.prefix_nil.mp h
  have hchars := Bytes.decode_ofString word.text
  rw [hempty, Bytes.decode] at hchars
  exact htext (String.toList_eq_nil_iff.mp hchars.symm)

/-- The name of an operator starts with its keyword. -/
theorem exists_text_operatorName? (h : lines.operatorName? opened = some word) :
    ∃ symbol, word.text = "operator" ++ symbol := by
  rw [operatorName?] at h
  split_ifs at h
  cases h
  exact ⟨_, rfl⟩

theorem text_operatorName? (h : lines.operatorName? opened = some word) : word.text ≠ "" := by
  obtain ⟨symbol, htext⟩ := exists_text_operatorName? h
  intro hempty
  have hlength := congrArg String.length (htext.symm.trans hempty)
  rw [String.length_append] at hlength
  have hkeyword : "operator".length = 8 := by decide
  have hnone : "".length = 0 := rfl
  omega

/-- The four ways in which the word in front of a bracket is found. -/
theorem wordInFrontOf_cases (lines : Lines) (shape : Shape) (opened : Place) :
    let word := lines.wordBefore (lines.prev opened)
    lines.wordInFrontOf shape opened = word ∨
      (lines.wordInFrontOf shape opened).text ≠ "" ∧
        (lines.wordInFrontOf shape opened = lines.templateNameBefore word.place ∨
          lines.namesOperator opened = true ∧
            (lines.operatorName? opened = some (lines.wordInFrontOf shape opened) ∨
              (lines.wordBefore (lines.prev word.place)).text = "operator" ∧
                (lines.wordInFrontOf shape opened).place =
                  (lines.wordBefore (lines.prev word.place)).place)) := by
  intro word
  rw [wordInFrontOf, namesOperator]
  dsimp only
  -- The operators and the lists are looked for without a word, `new` and `delete` only with one.
  by_cases hempty : (word.text == "") = true
  · rw [if_pos hempty, if_pos hempty]
    cases hoperator : lines.operatorName? opened with
    | some operator => exact .inr ⟨text_operatorName? hoperator, .inr ⟨rfl, .inl rfl⟩⟩
    | none =>
      dsimp only
      split_ifs with hangle hname
      · exact .inl rfl
      · exact .inr ⟨fun htext => hname (beq_iff_eq.mpr htext), .inl rfl⟩
      · exact .inl rfl
  · rw [if_neg hempty, if_neg hempty]
    split_ifs with hkey hbefore
    · rw [hkey, hbefore]
      have htext : "operator " ++ word.text ≠ "" := by
        intro heq
        have hlength := congrArg String.length heq
        rw [String.length_append] at hlength
        have hkeyword : "operator ".length = 9 := by decide
        have hnone : "".length = 0 := rfl
        omega
      exact .inr ⟨htext, .inr ⟨rfl, .inr ⟨beq_iff_eq.mp hbefore, rfl⟩⟩⟩
    · exact .inl rfl
    · exact .inl rfl

/-- A bracket without a word in front of it has the byte there in its place. -/
theorem wordInFrontOf_of_text_eq (h : (lines.wordInFrontOf shape opened).text = "") :
    lines.wordInFrontOf shape opened = ⟨"", lines.skipSpaceBack (lines.prev opened)⟩ := by
  rcases lines.wordInFrontOf_cases shape opened with heq | ⟨htext, -⟩
  · rw [heq] at h ⊢
    exact lines.wordBefore_of_text_eq h
  · exact absurd h htext

/-- The name of an operator starts on the line of the bracket, in front of its symbol. -/
theorem place_operatorName? (h : lines.operatorName? opened = some word) :
    word.place < opened ∧ word.place ≠ .front := by
  rw [operatorName?] at h
  split_ifs at h with hnone hword
  cases h
  rw [Bool.or_eq_true, not_or, Bool.not_eq_true, List.isEmpty_eq_false_iff] at hnone
  have hsymbol := List.length_pos_iff.mpr hnone.1
  generalize htext : Bytes.trimEnd ((lines.text opened.line).take opened.column) = text at *
  generalize hcut : (text.reverse.takeWhile operatorBytes.contains).reverse = symbol at *
  have hlength : symbol.length ≤ text.length := by
    rw [← hcut, List.length_reverse]
    exact (List.takeWhile_sublist _).length_le.trans_eq List.length_reverse
  have hcolumn : text.length ≤ opened.column := by
    rw [← htext]
    exact (Bytes.trimEnd_prefix _).length_le.trans (List.length_take_le _ _)
  have hhead : (Bytes.trimEnd (text.take (text.length - symbol.length))).length ≤
      text.length - symbol.length :=
    (Bytes.trimEnd_prefix _).length_le.trans (List.length_take_le _ _)
  cases opened with
  -- There is no symbol in front of the file.
  | front => simp only [Place.column] at hcolumn; omega
  | on line column =>
    refine ⟨?_, fun hfront => by cases hfront⟩
    rw [Place.line, Place.on_lt_on]
    simp only [Place.column] at hcolumn
    omega

section Word

theorem place_wordInFrontOf_lt (hopened : opened ≠ .front) (shape : Shape) :
    (lines.wordInFrontOf shape opened).place < opened := by
  have hword : (lines.wordBefore (lines.prev opened)).place < opened :=
    (lines.place_wordBefore_le _).trans_lt (prev_lt hopened)
  rcases lines.wordInFrontOf_cases shape opened with
    heq | ⟨htext, heq | ⟨-, hoperator | ⟨-, heq⟩⟩⟩
  · rw [heq]
    exact hword
  · rw [heq] at htext ⊢
    exact (lines.place_nameInFrontOfAngles_lt htext).trans hword
  · exact (place_operatorName? hoperator).1
  · rw [heq]
    exact ((lines.place_wordBefore_le _).trans (prev_le _)).trans_lt hword

/-- Only where nothing but blanks stands in front of a bracket has it no word and no byte that the
word could stand at. -/
theorem skipSpaceBack_of_place_wordInFrontOf
    (h : (lines.wordInFrontOf shape opened).place = .front) :
    lines.skipSpaceBack (lines.prev opened) = .front := by
  rcases lines.wordInFrontOf_cases shape opened with
    heq | ⟨htext, heq | ⟨-, hoperator | ⟨hkeyword, heq⟩⟩⟩
  · rw [heq] at h
    exact lines.skipSpaceBack_of_place_wordBefore h
  · rw [heq] at h htext
    exact absurd h ((lines.spells_nameInFrontOfAngles 0 0 _).ne_front htext)
  · exact absurd h (place_operatorName? hoperator).2
  · rw [heq] at h
    refine absurd h ((lines.spells_wordBefore _).ne_front ?_)
    rw [hkeyword]
    decide

theorem spells_wordInFrontOf (shape : Shape) (hoperator : lines.namesOperator opened = false) :
    lines.Spells (lines.wordInFrontOf shape opened) := by
  rcases lines.wordInFrontOf_cases shape opened with heq | ⟨-, heq | ⟨hnames, -⟩⟩
  · rw [heq]
    exact lines.spells_wordBefore _
  · rw [heq]
    exact lines.spells_nameInFrontOfAngles 0 0 _
  · rw [hoperator] at hnames
    cases hnames

end Word

section Start

theorem groupStart_le (hword : word.place < opened) : lines.groupStart opened word ≤ opened := by
  rw [groupStart]
  dsimp only
  split_ifs
  · exact lines.statementStart_le opened
  · exact (lines.statementStart_le word.place).trans hword.le
  · exact lines.statementStart_le opened

theorem groupStart_le_word (hword : word.place ≠ .front) :
    lines.groupStart opened word ≤ word.place := by
  rw [groupStart, isFront_eq_false hword]
  simp only [Bool.false_eq_true, if_false]
  split_ifs with hmoved
  · exact lines.statementStart_le word.place
  · rw [Bool.or_eq_true, not_or, decide_eq_true_eq] at hmoved
    exact not_lt.mp hmoved.1

/-- Behind blanks only, a statement starts at the position itself. -/
theorem statementStart_of_blank {p : Place} (hstop : p < lines.stop)
    (hblank : ∀ q < p, isCursorSpace (lines.byteAt q) = true) : lines.statementStart p = p := by
  cases p with
  | front => rfl
  | on line column =>
    rw [statementStart_on]
    split_ifs with hfirst
    · rfl
    refine min_eq_right (not_lt.mp fun hlt => ?_)
    have hcode := byteAt_skipSpaceForward (hlt.trans hstop)
    rw [hblank _ hlt] at hcode
    cases hcode

end Start

end Lines

/-- What holds of the places of the word in front of a group and of the start of its statement. -/
structure Group.Anchored (lines : Lines) (group : Group) : Prop where
  word_lt : group.word.place < group.opened
  start_le : group.statementStart ≤ group.opened
  start_le_word : group.word.place ≠ .front → group.statementStart ≤ group.word.place
  /-- The word stands at the front only if blanks are all there is in front of the group. -/
  of_front : group.word.place = .front →
    (∀ q < group.opened, Lines.isCursorSpace (lines.byteAt q) = true) ∧
      group.statementStart = group.opened
  /-- Apart from the names of operators, the word is read off its line. -/
  spells : group.word.text ≠ "" → lines.namesOperator group.opened = false →
    Bytes.ofString group.word.text <+:
      (lines.text group.word.place.line).drop group.word.place.column

theorem GroupTree.anchored_build (lines : Lines) {id : Nat} {group : Group} (hpos : 0 < id)
    (hgroup : (build lines).1.group? id = some group) : group.Anchored lines := by
  obtain ⟨parent, -, hparent⟩ := parent_lt_of_group? lines _ _ hpos hgroup
  obtain ⟨hword, hstart⟩ := anchors_of_group? lines hgroup hparent
  obtain ⟨hbracket, -⟩ := mem_brackets_of_group? (Forest.word_ofBrackets_sublist _) hpos hgroup
  obtain ⟨hbyte, hfirst, hstop⟩ := lines.mem_brackets hbracket
  have hcode : Lines.isCursorSpace (lines.byteAt group.opened) = false := by
    rw [hbyte]
    cases group.shape <;> rfl
  have hopened : group.opened ≠ .front := Lines.ne_front_of_not_space hcode
  have hlt : group.word.place < group.opened := by
    rw [hword]
    exact Lines.place_wordInFrontOf_lt hopened _
  refine ⟨hlt, ?_, ?_, ?_, ?_⟩
  · rw [hstart]
    exact Lines.groupStart_le hlt
  · intro hne
    rw [hstart]
    exact Lines.groupStart_le_word hne
  · intro hfront
    have hskip : lines.skipSpaceBack (lines.prev group.opened) = .front := by
      rw [hword] at hfront
      exact Lines.skipSpaceBack_of_place_wordInFrontOf hfront
    have hblank (q : Place) (hq : q < group.opened) :
        Lines.isCursorSpace (lines.byteAt q) = true := by
      by_contra hspace
      rw [Bool.not_eq_true] at hspace
      -- The search back would have come to a byte that is no blank.
      have hle := Lines.le_skipSpaceBack_prev hspace hq
      rw [hskip] at hle
      exact Lines.ne_front_of_not_space hspace (le_antisymm hle (Place.front_le q))
    refine ⟨hblank, ?_⟩
    rw [hstart, Lines.groupStart, hfront]
    exact Lines.statementStart_of_blank hstop hblank
  · intro _ hoperator
    rw [hword]
    exact Lines.spells_wordInFrontOf _ hoperator

namespace Analysis

/-- In every file the word and the statement of every group, that of the file apart, are anchored. -/
theorem anchored_ofSource (source : Bytes) (kind : FileKind) (options : ScrubOptions) {id : Nat}
    {group : Group} (hpos : 0 < id)
    (hgroup : (ofSource source kind options).tree.group? id = some group) :
    group.Anchored (ofSource source kind options).lines :=
  GroupTree.anchored_build _ hpos hgroup

/-- The word of these parentheses stands in front of the list in angle brackets. -/
theorem anchored_ofSource_template :
    let analysis := ofSource (Bytes.ofString "T<U>(x);") .implementation {}
    ∃ group, 0 < 1 ∧ analysis.tree.group? 1 = some group ∧ group.opened = .on 1 4 ∧
      group.word = ⟨"T", .on 1 0⟩ ∧ group.Anchored analysis.lines := by
  have hgroup : (ofSource (Bytes.ofString "T<U>(x);") .implementation {}).tree.group? 1 =
      some ⟨.paren, .on 1 4, .on 1 6, ⟨"T", .on 1 0⟩, .on 1 0, some 0, []⟩ := by decide +kernel
  exact ⟨_, Nat.one_pos, hgroup, rfl, rfl,
    anchored_ofSource (Bytes.ofString "T<U>(x);") .implementation {} Nat.one_pos hgroup⟩

end Analysis
end BracketLint
