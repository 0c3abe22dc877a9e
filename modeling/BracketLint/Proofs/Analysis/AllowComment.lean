import Mathlib.Data.List.Basic
import BracketLint.Proofs.AllowDirective
import BracketLint.Proofs.Analysis.SameCode
import BracketLint.Proofs.Lines.CommentBehind
import BracketLint.Proofs.Text.AppendToLine
import BracketLint.Proofs.Text.Utf8

/-!
Allowing rules in a file. A comment with a directive is written behind a line of code and read again
as a part of the file. It changes nothing in what the analysis makes of the file, and it allows the
rules that it names on its own line and on the line below, and nothing else.
-/

namespace BracketLint

/-- The comment that allows some rules and gives a reason, with the blank in front of it. -/
def allowComment (names : List String) (reason : String) : Bytes :=
  Bytes.ofString (" //" ++ AllowDirective.textFor names reason)

section Comment

variable (names : List String) (reason : String)

theorem allowComment_eq : allowComment names reason =
    commentBehind (Bytes.ofString (AllowDirective.textFor names reason)) := by
  have hslashes : Bytes.ofString " //" = [Ascii.space, Ascii.slash, Ascii.slash] := by decide +kernel
  rw [allowComment, Bytes.ofString_append, hslashes]
  rfl

/-- The text of a directive ends in a quote. -/
theorem exists_ofString_textFor : ∃ front,
    Bytes.ofString (AllowDirective.textFor names reason) = front ++ [Ascii.doubleQuote] := by
  have hquote : Bytes.ofString "\"" = [Ascii.doubleQuote] := by decide +kernel
  unfold AllowDirective.textFor
  rw [Bytes.ofString_append, hquote]
  exact ⟨_, rfl⟩

theorem endsIn_trimEnd_textFor :
    (Bytes.trimEnd (Bytes.ofString (AllowDirective.textFor names reason))).endsIn
      Ascii.backslash = false := by
  obtain ⟨front, hfront⟩ := exists_ofString_textFor names reason
  rw [hfront, Bytes.trimEnd_append_of_ascii (by decide) (by decide), Bytes.endsIn,
    List.getLast?_concat]
  rfl

variable {names reason} (hnames : ∀ name ∈ names, AllowDirective.isListName name = true)
  (hreason : '\n' ∉ reason.toList)
include hnames hreason

/-- Names and a reason without line feeds give a comment that stays on its line. -/
theorem isLineTail_allowComment : Bytes.IsLineTail (allowComment names reason) where
  ne_nil := by
    rw [allowComment_eq]
    exact List.cons_ne_nil _ _
  not_mem := by
    intro hmem
    have hfeed : '\n' ∈ (" //" ++ AllowDirective.textFor names reason).toList :=
      Bytes.mem_of_mem_ofString (by decide) hmem
    rw [String.toList_append, List.mem_append] at hfeed
    have hslashes : '\n' ∉ " //".toList := by decide
    exact hfeed.elim hslashes (AllowDirective.lineFeed_not_mem_textFor hnames hreason)
  endsIn_eq := by
    obtain ⟨front, hfront⟩ := exists_ofString_textFor names reason
    rw [allowComment_eq, hfront, commentBehind, ← List.cons_append, ← List.cons_append,
      ← List.cons_append, Bytes.endsIn, List.getLast?_concat]
    rfl

end Comment

namespace Lines

variable {lines lines' : Lines} {rule : String}

/-- The directive on a line, if it names a rule. -/
def directiveFor? (lines : Lines) (rule : String) (index : Nat) : Option AllowDirective :=
  (lines.allowDirective? index).filter (·.names rule)

theorem allowance_eq (lines : Lines) (index : Nat) (rule : String) : lines.allowance index rule =
    match (lines.directiveFor? rule (index - 1)).or (lines.directiveFor? rule index) with
    | some directive => .allowed directive.reason
    | none => .denied := by
  have hlist : [index - 1, index].filterMap lines.allowDirective? =
      (lines.allowDirective? (index - 1)).toList ++ (lines.allowDirective? index).toList := by
    rw [List.filterMap_cons, List.filterMap_cons, List.filterMap_nil]
    cases lines.allowDirective? (index - 1) <;> cases lines.allowDirective? index <;> rfl
  have hfind (directive? : Option AllowDirective) :
      directive?.toList.find? (·.names rule) = directive?.filter (·.names rule) := by
    cases directive? with
    | none => rfl
    | some directive =>
      rw [Option.filter_some, Option.toList_some, List.find?_cons]
      cases directive.names rule <;> rfl
  rw [allowance, hlist, List.find?_append, hfind, hfind]
  rfl

/-- An answer for a line depends on the directives on the line and on the line above it. -/
theorem allowance_congr {index : Nat}
    (hbefore : lines.directiveFor? rule (index - 1) = lines'.directiveFor? rule (index - 1))
    (hown : lines.directiveFor? rule index = lines'.directiveFor? rule index) :
    lines.allowance index rule = lines'.allowance index rule := by
  rw [allowance_eq, allowance_eq, hbefore, hown]

/-- A directive allows the rules that it names on its own line and on the line below, whatever other
directives there are; on the line below it is the one that counts. -/
theorem allowance_of_names {index : Nat} {directive : AllowDirective}
    (hdirective : lines.allowDirective? index = some directive)
    (hnames : directive.names rule = true) :
    (lines.allowance index rule).isAllowed = true ∧
      lines.allowance (index + 1) rule = .allowed directive.reason := by
  have hfor : lines.directiveFor? rule index = some directive := by
    rw [directiveFor?, hdirective, Option.filter_some, if_pos hnames]
  constructor
  · rw [allowance_eq, hfor]
    cases lines.directiveFor? rule (index - 1) <;> rfl
  · rw [allowance_eq, Nat.add_sub_cancel, hfor]
    rfl

/-- A directive added to a line without one changes the answers for the rules that it names on its
own line and on the line below. -/
theorem allowance_of_not_names {index : Nat} {directive : AllowDirective}
    (hnone : lines.allowDirective? index = none)
    (hdirective : lines'.allowDirective? index = some directive)
    (hother : ∀ i, i ≠ index → lines.allowDirective? i = lines'.allowDirective? i)
    (hpos : 0 < index) {line : Nat}
    (h : directive.names rule = false ∨ line ≠ index ∧ line ≠ index + 1) :
    lines.allowance line rule = lines'.allowance line rule := by
  have hsame (i : Nat) (hi : i ≠ index) :
      lines.directiveFor? rule i = lines'.directiveFor? rule i := by
    rw [directiveFor?, directiveFor?, hother i hi]
  rcases h with hnames | ⟨hown, hbelow⟩
  · have hall (i : Nat) : lines.directiveFor? rule i = lines'.directiveFor? rule i := by
      by_cases hi : i = index
      · rw [hi, directiveFor?, directiveFor?, hnone, hdirective, Option.filter_some, hnames]
        rfl
      · exact hsame i hi
    exact allowance_congr (hall _) (hall _)
  · exact allowance_congr (hsame _ (by omega)) (hsame _ hown)

section Directive

variable (kind : FileKind) (options : ScrubOptions)

theorem allowDirective?_ofRawLines (raws : List Bytes) (index : Nat) :
    (ofRawLines raws kind options).1.allowDirective? (index + 1) =
      ((blankLines 1 .code raws)[index]?.bind (·.comment)).bind fun comment =>
        AllowDirective.ofBody? (Bytes.decode ((raws[index]?.getD []).drop (comment.column + 2))) := by
  rw [allowDirective?, comment_ofRawLines, raw_ofRawLines]

variable {raws : List Bytes} {index : Nat} (h : EndsInCode raws index)
include h

theorem EndsInCode.allowDirective?_eq_none :
    (ofRawLines raws kind options).1.allowDirective? (index + 1) = none := by
  obtain ⟨raw, line, -, hline, hnone, -⟩ := h.exists_line
  rw [allowDirective?_ofRawLines, hline, Option.bind_some, hnone]
  rfl

/-- The comment is read from its table entry on. -/
theorem EndsInCode.allowDirective?_modify {body : Bytes}
    (hbody : (Bytes.trimEnd body).endsIn Ascii.backslash = false) :
    (ofRawLines (raws.modify index (· ++ commentBehind body)) kind options).1.allowDirective?
      (index + 1) = AllowDirective.ofBody? (Bytes.decode body) := by
  obtain ⟨raw, line, hraw, hline, -, hlength⟩ := h.exists_line
  have hdrop : (raw ++ commentBehind body).drop (raw.length + 1 + 2) = body := by
    rw [Nat.add_assoc, ← List.drop_drop, List.drop_left]
    rfl
  rw [allowDirective?_ofRawLines, h.blankLines_modify hbody, List.getElem?_modify_eq, hline,
    List.getElem?_modify_eq, hraw]
  simp only [Option.map_eq_map, Option.map_some, Option.bind_some, Option.getD_some, withComment,
    LineComment.ofBody, hlength, hdrop]

theorem EndsInCode.allowDirective?_modify_of_ne {body : Bytes}
    (hbody : (Bytes.trimEnd body).endsIn Ascii.backslash = false) {i : Nat} (hi : i ≠ index + 1) :
    (ofRawLines raws kind options).1.allowDirective? i =
      (ofRawLines (raws.modify index (· ++ commentBehind body)) kind options).1.allowDirective?
        i := by
  cases i with
  | zero => rfl
  | succ i =>
    have hne : index ≠ i := fun heq => hi (congrArg (· + 1) heq.symm)
    rw [allowDirective?_ofRawLines, allowDirective?_ofRawLines, h.blankLines_modify hbody,
      List.getElem?_modify_ne _ _ hne,
      List.getElem?_modify_ne _ _ hne]

end Directive

section SameCode

variable (kind : FileKind) (options : ScrubOptions)

theorem raw_modify (raws : List Bytes) (index : Nat) (added : Bytes) (line : Nat)
    (hindex : index < raws.length) :
    (ofRawLines (raws.modify index (· ++ added)) kind options).1.raw line =
      if line = index + 1 then (ofRawLines raws kind options).1.raw line ++ added
      else (ofRawLines raws kind options).1.raw line := by
  cases line with
  | zero => rfl
  | succ line =>
    rw [raw_ofRawLines, raw_ofRawLines, List.getElem?_modify]
    by_cases hline : index = line
    · subst hline
      rw [List.getElem?_eq_getElem hindex, if_pos rfl]
      simp
    · rw [if_neg fun heq => hline (Nat.succ.inj heq).symm]
      simp [hline]

/-- The code of a line lies in front of what is written behind it, and so do its literals. -/
theorem sameLiterals_modify (raws : List Bytes) (index : Nat) (added : Bytes)
    (hindex : index < raws.length) : SameLiterals (ofRawLines raws kind options).1
      (ofRawLines (raws.modify index (· ++ added)) kind options).1 := by
  apply sameLiterals_of_take
  intro line column hlt
  have hle := (keepsColumns_ofRawLines kind options raws line).length_le
  rw [raw_modify kind options raws index added line hindex]
  split
  · rw [List.take_append_of_le_length (by omega)]
  · rfl

theorem EndsInCode.sameCode_modify {raws : List Bytes} {index : Nat} (h : EndsInCode raws index)
    {body : Bytes} (hbody : (Bytes.trimEnd body).endsIn Ascii.backslash = false) :
    SameCode (ofRawLines raws kind options).1
      (ofRawLines (raws.modify index (· ++ commentBehind body)) kind options).1 := by
  apply sameCode_ofRawLines kind options
  · exact (List.length_modify _ _ _).symm
  · rw [finalTexts, finalTexts, h.trimmedTexts_modify hbody]

end SameCode

end Lines

namespace Analysis

/-- Adding a comment that allows rules changes nothing but what is allowed. -/
theorem allowComment_invisible {source : Bytes} {index : Nat} {names : List String}
    {reason : String} (kind : FileKind) (options : ScrubOptions)
    (hline : Lines.EndsInCode (Bytes.lines source.dropByteOrderMark) index) (hne : names ≠ [])
    (hnames : ∀ name ∈ names, AllowDirective.isListName name = true) (hall : "all" ∉ names)
    (hquote : '"' ∉ reason.toList) (hfeed : '\n' ∉ reason.toList) :
    let analysis := ofSource source kind options
    let analysis' :=
      ofSource (Bytes.appendToLine (allowComment names reason) index source) kind options
    analysis.lines.lastIndex = analysis'.lines.lastIndex ∧
      (∀ line, analysis'.lines.raw line =
        if line = index + 1 then analysis.lines.raw line ++ allowComment names reason
        else analysis.lines.raw line) ∧
      (∀ line, analysis.lines.text line = analysis'.lines.text line) ∧
      analysis.tree = analysis'.tree ∧
      (∀ id, analysis.kind id = analysis'.kind id ∧ analysis.name? id = analysis'.name? id) ∧
      (∀ stage ∈ [Stage.build, Stage.classify],
        Rule.stageDiagnostics stage analysis = Rule.stageDiagnostics stage analysis') ∧
      (∀ name ∈ names, (analysis'.lines.allowance (index + 1) name).isAllowed = true ∧
        analysis'.lines.allowance (index + 2) name = .allowed (some reason)) ∧
      ∀ line rule, rule ∉ names ∨ line ≠ index + 1 ∧ line ≠ index + 2 →
        analysis.lines.allowance line rule = analysis'.lines.allowance line rule := by
  intro analysis analysis'
  have hbody := endsIn_trimEnd_textFor names reason
  have htail := isLineTail_allowComment hnames hfeed
  rw [allowComment_eq] at htail
  have hlines : Bytes.lines (Bytes.appendToLine (allowComment names reason) index
      source).dropByteOrderMark = (Bytes.lines source.dropByteOrderMark).modify index
        (· ++ commentBehind (Bytes.ofString (AllowDirective.textFor names reason))) := by
    rw [allowComment_eq, commentBehind, Bytes.dropByteOrderMark_appendToLine (by decide)]
    exact htail.lines_appendToLine hline.index_lt
  have hnew : analysis'.lines = (Lines.ofRawLines ((Bytes.lines source.dropByteOrderMark).modify index
      (· ++ commentBehind (Bytes.ofString (AllowDirective.textFor names reason)))) kind
      options).1 := by
    rw [← hlines]
    rfl
  have hsame : Lines.SameCode analysis.lines analysis'.lines := by
    rw [hnew]
    exact hline.sameCode_modify kind options hbody
  have hliterals : Lines.SameLiterals analysis.lines analysis'.lines := by
    rw [hnew]
    exact Lines.sameLiterals_modify kind options _ index _ hline.index_lt
  have hraw (line : Nat) : analysis'.lines.raw line =
      if line = index + 1 then analysis.lines.raw line ++ allowComment names reason
      else analysis.lines.raw line := by
    rw [hnew, allowComment_eq]
    exact Lines.raw_modify kind options _ index _ line hline.index_lt
  obtain ⟨htexts, htree, hkinds, hstages⟩ := ofSource_sameCode hsame hliterals
  -- The line had no directive, and now it has the one that is written.
  have hnone : analysis.lines.allowDirective? (index + 1) = none :=
    hline.allowDirective?_eq_none kind options
  have hdirective : analysis'.lines.allowDirective? (index + 1) = some ⟨names, some reason⟩ := by
    rw [hnew, hline.allowDirective?_modify kind options hbody, Bytes.decode_ofString]
    exact AllowDirective.ofBody?_textFor hne hnames hquote
  have hother (i : Nat) (hi : i ≠ index + 1) :
      analysis.lines.allowDirective? i = analysis'.lines.allowDirective? i := by
    rw [hnew]
    exact hline.allowDirective?_modify_of_ne kind options hbody hi
  refine ⟨hsame.lastIndex_eq, hraw, htexts, htree, hkinds, hstages, ?_, ?_⟩
  · intro name hname
    exact Lines.allowance_of_names hdirective
      (by rw [AllowDirective.names, List.contains_iff_mem.mpr hname, Bool.true_or])
  · intro line rule h
    refine Lines.allowance_of_not_names hnone hdirective hother (Nat.succ_pos _) ?_
    apply h.imp_left
    intro hrule
    rw [AllowDirective.names, Bool.or_eq_false_iff]
    simp only [List.contains_eq_mem, decide_eq_false_iff_not]
    exact ⟨hrule, hall⟩

/-- A comment behind a line that a carriage return ends, with a string on it. -/
theorem allowComment_invisible_string :
    let source := Bytes.ofString "f(int n) \x7b\r\n  g(\"//\", n);\r\n\x7d\r\n"
    let names := ["nesting-depth", "x2"]
    let reason := "it's \\ µ"
    let analysis' := ofSource (Bytes.appendToLine (allowComment names reason) 1 source)
      .implementation {}
    Lines.EndsInCode (Bytes.lines source.dropByteOrderMark) 1 ∧ names ≠ [] ∧
      (∀ name ∈ names, AllowDirective.isListName name = true) ∧ "all" ∉ names ∧
      '"' ∉ reason.toList ∧ '\n' ∉ reason.toList ∧
      (ofSource source .implementation {}).tree = analysis'.tree ∧
      analysis'.lines.allowance 3 "x2" = .allowed (some reason) := by
  intro source names reason analysis'
  have hline : Lines.EndsInCode (Bytes.lines source.dropByteOrderMark) 1 :=
    ⟨_, rfl, by decide +kernel, by decide +kernel⟩
  have hne : names ≠ [] := List.cons_ne_nil _ _
  have hwords : ∀ name ∈ names,
      name ≠ "" ∧ name.toList.all (fun c => c.isAlphanum || c == '-') = true := by decide +kernel
  have hnames : ∀ name ∈ names, AllowDirective.isListName name = true := fun name hname =>
    AllowDirective.isListName_of_isAlphanum (hwords name hname).1 (hwords name hname).2
  have hall : "all" ∉ names := by decide +kernel
  have hquote : '"' ∉ reason.toList := by decide +kernel
  have hfeed : '\n' ∉ reason.toList := by decide +kernel
  have h := allowComment_invisible .implementation {} hline hne hnames hall hquote hfeed
  obtain ⟨-, -, -, htree, -, -, hallowed, -⟩ := h
  exact ⟨hline, hne, hnames, hall, hquote, hfeed, htree, (hallowed "x2" (by decide)).2⟩

end Analysis
end BracketLint
