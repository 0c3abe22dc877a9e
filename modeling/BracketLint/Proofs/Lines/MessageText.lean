import Mathlib.Data.List.Basic
import BracketLint.Proofs.Lines.Continuation

/-!
The text of a message directive. Two passes go over it. The pass over literals skips the text, quotes
and comment marks included, and the pass over directives clears it. Each of them decides by itself how
far the text goes on: the first from the lines as they were written, the second from what is left of
them without comments and trailing blanks.
-/

namespace BracketLint

/-- A directive that goes on in the next line. -/
inductive OpenDirective
  /-- The argument of the directive is the text of a message. -/
  | message
  | other
  deriving DecidableEq, Repr

namespace OpenDirective

/-- The directive on a line whose first character, blanks aside, is a hash sign. -/
def ofLine? (line : Bytes) : Option OpenDirective :=
  match Bytes.trimStart line with
  | [] => none
  | b :: rest =>
    if b == Ascii.hash then
      let name := Bytes.toWord ((Bytes.trimStart rest).takeWhile Ascii.isWordByte)
      some (if name == "error" || name == "warning" then message else other)
    else none

/-- The directive that goes on behind a line if `front` goes on in front of it. -/
def behindLine (front : Option OpenDirective) (line : Bytes) : Option OpenDirective :=
  if line.endsIn Ascii.backslash then front.or (ofLine? line) else none

/-- The directive that goes on behind some lines. -/
def behind (lines : List Bytes) : Option OpenDirective := lines.foldl behindLine none

variable {front : Option OpenDirective} {lines : List Bytes} {line : Bytes} {i : Nat}

theorem isSome_ofLine? (line : Bytes) : (ofLine? line).isSome = (Directive.ofLine? line).isSome := by
  rw [ofLine?, Directive.ofLine?]
  cases Bytes.trimStart line with
  | nil => rfl
  | cons b rest => dsimp only; split <;> rfl

/-- This is what the pass over directives takes for continued lines. -/
theorem isSome_behind (lines : List Bytes) : (behind lines).isSome = isContinuedBehind false lines := by
  have hfrom (front : Option OpenDirective) :
      (lines.foldl behindLine front).isSome = isContinuedBehind front.isSome lines := by
    induction lines generalizing front with
    | nil => rfl
    | cons line lines ih =>
      rw [List.foldl_cons, ih, isContinuedBehind, behindLine, ← isSome_ofLine?]
      cases line.endsIn Ascii.backslash with
      | true => rw [if_pos rfl, Option.isSome_or, Bool.and_true]
      | false => rw [if_neg Bool.false_ne_true, Bool.and_false, Option.isSome_none]
  exact hfrom none

theorem behind_take_succ (h : lines[i]? = some line) :
    behind (lines.take (i + 1)) = behindLine (behind (lines.take i)) line := by
  rw [behind, List.take_add_one, h, List.foldl_append]
  rfl

theorem behindLine_eq_some_iff {directive : OpenDirective} :
    behindLine front line = some directive ↔ line.endsIn Ascii.backslash = true ∧
      (front = some directive ∨ front = none ∧ ofLine? line = some directive) := by
  rw [behindLine]
  split_ifs with hend
  · rw [Option.or_eq_some_iff]
    exact (and_iff_right hend).symm
  · exact iff_of_false nofun fun h => hend h.1

end OpenDirective

open OpenDirective

/-- Whether the pass over literals leaves a line as it is, as a message directive or the continuation of
one. -/
def isMessageText (carry : Carry) (raw : Bytes) : Bool :=
  carry == .message || (carry == .code && isMessageDirective raw)

section Line

variable {index : Nat} {carry : Carry} {raw text : Bytes} {front : Option OpenDirective}

theorem isMessageText_iff : isMessageText carry raw = true ↔
    carry = .message ∨ carry = .code ∧ isMessageDirective raw = true := by
  rw [isMessageText, Bool.or_eq_true, Bool.and_eq_true, beq_iff_eq, beq_iff_eq]

theorem blankLine_of_isMessageText (h : isMessageText carry raw = true) (index : Nat) :
    blankLine index carry raw =
      { text := raw, carry := if raw.endsIn Ascii.backslash then .message else .code } :=
  if_pos h

theorem carry_closeLine_ne_message (index : Nat) (raw : Bytes) (scan : ScannedLine) :
    (closeLine index raw scan).carry ≠ .message := by
  unfold closeLine
  dsimp only
  split
  · split_ifs
    · exact nofun
    · exact nofun
  · exact ScanMode.carry_ne_message scan.mode

/-- The text goes on behind a line exactly if the line belongs to it and ends in a backslash. -/
theorem carry_blankLine_eq_message_iff : (blankLine index carry raw).carry = .message ↔
    isMessageText carry raw = true ∧ raw.endsIn Ascii.backslash = true := by
  cases h : isMessageText carry raw with
  | true =>
    rw [blankLine_of_isMessageText h, and_iff_right rfl]
    dsimp only
    split_ifs with hend
    · exact iff_of_true rfl hend
    · exact iff_of_false nofun hend
  | false =>
    rw [blankLine, if_neg (by rw [← isMessageText, h]; exact Bool.false_ne_true)]
    exact iff_of_false (carry_closeLine_ne_message index raw _) fun h => Bool.false_ne_true h.1

/-- A line behind which the passes part: `carry` and `front` are what goes on in front of it, and `text`
is what is left of it. -/
inductive PartsMessage (carry : Carry) (front : Option OpenDirective) (raw text : Bytes) : Prop
  /-- Blanks stand behind the backslash, and only the pass over directives does not see them. -/
  | blanks (skipped : isMessageText carry raw = true)
      (message : front = some .message ∨ front = none ∧ ofLine? text = some .message)
      (raw_end : raw.endsIn Ascii.backslash = false) (text_end : text.endsIn Ascii.backslash = true)
  /-- The directive stands behind a comment or is interrupted by one, and only the pass over
  directives does not see the comment. -/
  | uncovered (skipped : isMessageText carry raw = false) (continued : front = none)
      (message : ofLine? text = some .message) (text_end : text.endsIn Ascii.backslash = true)
  /-- The line is in another directive, or its directive has a longer name. -/
  | foreign (closed : carry = .code) (skipped : isMessageDirective raw = true)
      (other : ¬(front = none ∧ ofLine? text = some .message))
      (raw_end : raw.endsIn Ascii.backslash = true)

/-- Where the passes agree in front of a line, they agree behind it unless it is such a line. -/
theorem agree_blankLine_iff (hagree : carry = .message ↔ front = some .message)
    (htext : text = Bytes.trimEnd (blankLine index carry raw).text) :
    ((blankLine index carry raw).carry = .message ↔ behindLine front text = some .message) ↔
      ¬PartsMessage carry front raw text := by
  rw [carry_blankLine_eq_message_iff, behindLine_eq_some_iff]
  cases hskipped : isMessageText carry raw with
  | true =>
    rw [blankLine_of_isMessageText hskipped] at htext
    have hend (h : raw.endsIn Ascii.backslash = true) : text.endsIn Ascii.backslash = true := by
      rwa [htext, Bytes.trimEnd_of_endsIn (by decide) (by decide) h]
    constructor
    · rintro h (⟨-, hmessage, hraw, htext'⟩ | ⟨hnot, -, -, -⟩ | ⟨hcarry, -, hother, hraw⟩)
      · have hraw' := (h.mpr ⟨htext', hmessage⟩).2
        rw [hraw] at hraw'
        cases hraw'
      · rw [hskipped] at hnot
        cases hnot
      · rcases (h.mp ⟨rfl, hraw⟩).2 with hfront | hstart
        · cases hcarry.symm.trans (hagree.mpr hfront)
        · exact hother hstart
    · intro h
      constructor
      · rintro ⟨-, hraw⟩
        refine ⟨hend hraw, ?_⟩
        rcases isMessageText_iff.mp hskipped with hcarry | ⟨hcarry, hdirective⟩
        · exact .inl (hagree.mp hcarry)
        · exact .inr (not_not.mp fun hother => h (.foreign hcarry hdirective hother hraw))
      · rintro ⟨htext', hmessage⟩
        refine ⟨rfl, ?_⟩
        rw [← Bool.not_eq_false]
        exact fun hraw => h (.blanks hskipped hmessage hraw htext')
  | false =>
    have hcarry : carry ≠ .message := fun hcarry => by
      rw [isMessageText_iff.mpr (.inl hcarry)] at hskipped
      cases hskipped
    have hnever : ¬(false = true ∧ raw.endsIn Ascii.backslash = true) := fun h => nomatch h.1
    rw [iff_false_left hnever, not_iff_not]
    constructor
    · rintro ⟨htext', hfront | ⟨hfront, hstart⟩⟩
      · exact absurd (hagree.mpr hfront) hcarry
      · exact .uncovered hskipped hfront hstart htext'
    · rintro (⟨hyes, -, -, -⟩ | ⟨-, hfront, hstart, htext'⟩ | ⟨hcode, hdirective, -, -⟩)
      · rw [hskipped] at hyes
        cases hyes
      · exact ⟨htext', .inr ⟨hfront, hstart⟩⟩
      · rw [isMessageText_iff.mpr (.inr ⟨hcode, hdirective⟩)] at hskipped
        cases hskipped

end Line

theorem blankDeadRegions_of_plain {texts : List Bytes} (h : ∀ text ∈ texts, regionOpener? text = none)
    (index : Nat) : blankDeadRegions index texts = (texts, []) := by
  induction texts generalizing index with
  | nil => rw [blankDeadRegions]
  | cons text texts ih =>
    rw [blankDeadRegions.eq_def]
    simp only [h text List.mem_cons_self, ih fun text hmem => h text (List.mem_cons_of_mem _ hmem)]

namespace Lines

/-- The pass over literals skips a line as the continuation of a message. -/
def SkipsMessage (raws : List Bytes) (i : Nat) : Prop :=
  carryBehind .code (raws.take i) = .message

/-- The pass over directives clears a line as the continuation of a message directive. -/
def ClearsMessage (raws : List Bytes) (i : Nat) : Prop :=
  OpenDirective.behind ((compiledTexts raws).take i) = some .message

instance (raws : List Bytes) (i : Nat) : Decidable (SkipsMessage raws i) :=
  inferInstanceAs (Decidable (_ = _))

instance (raws : List Bytes) (i : Nat) : Decidable (ClearsMessage raws i) :=
  inferInstanceAs (Decidable (_ = _))

/-- The passes part behind a line. -/
def PartsMessageAt (raws : List Bytes) (i : Nat) : Prop :=
  ∃ raw text, raws[i]? = some raw ∧ (compiledTexts raws)[i]? = some text ∧
    PartsMessage (carryBehind .code (raws.take i)) (OpenDirective.behind ((compiledTexts raws).take i))
      raw text

section Agreement

variable {raws : List Bytes} {i : Nat} {raw : Bytes}

theorem skipsMessage_succ_iff (h : raws[i]? = some raw) : SkipsMessage raws (i + 1) ↔
    isMessageText (carryBehind .code (raws.take i)) raw = true ∧
      raw.endsIn Ascii.backslash = true := by
  rw [SkipsMessage, carryBehind_take_succ (1 + i) .code h, carry_blankLine_eq_message_iff]

theorem compiledTexts_of_plain (hplain : ∀ text ∈ trimmedTexts raws, regionOpener? text = none) :
    compiledTexts raws = trimmedTexts raws := by
  rw [compiledTexts, blankDeadRegions_of_plain hplain]

theorem agree_succ_iff (hplain : ∀ text ∈ trimmedTexts raws, regionOpener? text = none)
    (hi : i < raws.length) (hagree : SkipsMessage raws i ↔ ClearsMessage raws i) :
    (SkipsMessage raws (i + 1) ↔ ClearsMessage raws (i + 1)) ↔ ¬PartsMessageAt raws i := by
  have hraw : raws[i]? = some raws[i] := List.getElem?_eq_getElem hi
  have htext := getElem?_trimmedTexts hraw
  rw [← compiledTexts_of_plain hplain] at htext
  rw [SkipsMessage, carryBehind_take_succ (1 + i) .code hraw, ClearsMessage, behind_take_succ htext,
    agree_blankLine_iff hagree rfl, not_iff_not, PartsMessageAt]
  constructor
  · exact fun h => ⟨_, _, hraw, htext, h⟩
  · rintro ⟨raw, text, hraw', htext', h⟩
    obtain rfl := Option.some.inj (hraw.symm.trans hraw')
    obtain rfl := Option.some.inj (htext.symm.trans htext')
    exact h

/-- The passes agree everywhere exactly if they part nowhere. -/
theorem agree_iff (hplain : ∀ text ∈ trimmedTexts raws, regionOpener? text = none) :
    (∀ i < raws.length, SkipsMessage raws i ↔ ClearsMessage raws i) ↔
      ∀ i, i + 1 < raws.length → ¬PartsMessageAt raws i := by
  constructor
  · intro h i hi
    have hlt := Nat.lt_of_succ_lt hi
    exact (agree_succ_iff hplain hlt (h i hlt)).mp (h (i + 1) hi)
  · intro h i hi
    induction i with
    | zero => exact iff_of_false nofun nofun
    | succ i ih =>
      have hlt := Nat.lt_of_succ_lt hi
      exact (agree_succ_iff hplain hlt (ih hlt)).mpr (h i hi)

theorem isSome_ofLine?_of_isMessageDirective (h : isMessageDirective raw = true) :
    (Directive.ofLine? raw).isSome = true := by
  rw [Option.isSome_iff_ne_none, Ne, ofLine?_eq_none_iff, not_not]
  rw [isMessageDirective] at h
  split at h
  · cases h
  next b rest hraw =>
    rw [Bool.and_eq_true, beq_iff_eq] at h
    rw [hraw, List.head?_cons, h.1]

/-- A line that is skipped as the continuation of a message is cleared as the continuation of a
directive. -/
theorem isContinuedBehind_of_skipsMessage
    (hplain : ∀ text ∈ trimmedTexts raws, regionOpener? text = none) (hi : i ≤ raws.length)
    (h : SkipsMessage raws i) : isContinuedBehind false ((compiledTexts raws).take i) = true := by
  induction i with
  | zero => cases h
  | succ i ih =>
    have hraw : raws[i]? = some raws[i] := List.getElem?_eq_getElem hi
    obtain ⟨htext, hend⟩ := (skipsMessage_succ_iff hraw).mp h
    have htrimmed := getElem?_trimmedTexts hraw
    rw [blankLine_of_isMessageText htext, Bytes.trimEnd_of_endsIn (by decide) (by decide) hend,
      ← compiledTexts_of_plain hplain] at htrimmed
    rw [isContinuedBehind_take_succ htrimmed, hend, Bool.and_true, isInDirective, htrimmed]
    rcases isMessageText_iff.mp htext with hcarry | ⟨-, hdirective⟩
    · rw [ih (Nat.le_of_succ_le hi) hcarry, Bool.true_or]
    · rw [Option.bind_some, isSome_ofLine?_of_isMessageDirective hdirective, Bool.or_true]

end Agreement
end Lines

/-- The causes that the pass over literals reports on the line that it reads. -/
def Issue.isLexical : Issue → Bool
  | unterminatedLiteral _ | strayCommentEnd => true
  | _ => false

namespace Lines

section Scrubbed

variable {source : Bytes} {kind : FileKind} {options : ScrubOptions} {i : Nat} {d : Diagnostic}

/-- Such a cause is reported on a line only if the pass over literals finds it there. -/
theorem mem_blankLine_of_mem_scrub (h : d ∈ (scrub source kind options).2)
    (hlexical : d.issue.isLexical = true) {column : Nat} (hplace : d.place = .on (i + 1) column) :
    ∃ raw, (Bytes.lines source.dropByteOrderMark)[i]? = some raw ∧
      d ∈ (blankLine (1 + i)
        (carryBehind .code ((Bytes.lines source.dropByteOrderMark).take i)) raw).diagnostics := by
  rcases List.mem_append.mp h with h | h
  · rcases List.mem_append.mp h with h | h
    · rcases List.mem_append.mp h with h | h
      · rcases issue_of_mem_hygieneFrom h with hissue | ⟨width, hissue⟩
        · rw [hissue] at hlexical
          cases hlexical
        · rw [hissue] at hlexical
          cases hlexical
      · obtain ⟨line, hline, hd⟩ := List.mem_flatMap.mp h
        obtain ⟨j, hj⟩ := List.mem_iff_getElem?.mp hline
        have hlt : j < (Bytes.lines source.dropByteOrderMark).length := by
          rw [← length_blankLines _ 1 .code]
          exact (List.getElem?_eq_some_iff.mp hj).1
        have hraw := List.getElem?_eq_getElem hlt
        obtain rfl := Option.some.inj ((getElem?_blankLines 1 .code hraw).symm.trans hj)
        obtain ⟨-, column', hplace'⟩ := mem_scrub_of_mem_blankLine kind options hraw hd
        obtain ⟨hline, -⟩ := Place.on.inj (hplace.symm.trans hplace')
        obtain rfl : i = j := Nat.succ.inj hline
        exact ⟨_, hraw, hd⟩
    · rw [issue_of_mem_openCommentDiagnostic h] at hlexical
      cases hlexical
  · obtain ⟨opener, hissue⟩ := issue_of_mem_blankDeadRegions h
    rw [hissue] at hlexical
    cases hlexical

/-- A line that continues a directive is cleared. -/
theorem text_of_isContinuedBehind (kind : FileKind) (options : ScrubOptions)
    (h : isContinuedBehind false
      ((compiledTexts (Bytes.lines source.dropByteOrderMark)).take i) = true) :
    (scrub source kind options).1.text (i + 1) = [] := by
  rw [scrub, text_ofRawLines, finalTexts_eq, getElem?_blankDirectives, isInDirective, h,
    Bool.true_or]
  cases (compiledTexts (Bytes.lines source.dropByteOrderMark))[i]? <;> rfl

/-- What scrubbing makes of a line in a message: the line is cleared as the continuation of a directive,
and nothing in it was read as a literal or a comment. -/
structure IsFreeText (source : Bytes) (kind : FileKind) (options : ScrubOptions) (i : Nat) : Prop where
  cleared : (scrub source kind options).1.text (i + 1) = []
  continued :
    isContinuedBehind false ((compiledTexts (Bytes.lines source.dropByteOrderMark)).take i) = true
  unread : ∃ raw, (Bytes.lines source.dropByteOrderMark)[i]? = some raw ∧
    (blankLines 1 .code (Bytes.lines source.dropByteOrderMark))[i]? =
      some { text := raw, carry := if raw.endsIn Ascii.backslash then .message else .code }
  unreported : ∀ d ∈ (scrub source kind options).2, ∀ column, d.place = .on (i + 1) column →
    d.issue.isLexical = false

variable (source kind options)

/-- In a file without dead regions the pass over literals and the pass over directives agree on the
lines that continue a message exactly if no line parts them, by a blank behind its backslash, by a
comment in front of its directive or by another directive that it is in. Whether they agree or not,
both clear what they take for a message, and what the pass over literals skips is free text. -/
theorem message_continuations
    (hplain : ∀ text ∈ trimmedTexts (Bytes.lines source.dropByteOrderMark),
      regionOpener? text = none) :
    let raws := Bytes.lines source.dropByteOrderMark
    ((∀ i < raws.length, SkipsMessage raws i ↔ ClearsMessage raws i) ↔
        ∀ i, i + 1 < raws.length → ¬PartsMessageAt raws i) ∧
      (∀ i, ClearsMessage raws i → (scrub source kind options).1.text (i + 1) = []) ∧
      ∀ i < raws.length, SkipsMessage raws i → IsFreeText source kind options i := by
  intro raws
  refine ⟨agree_iff hplain, fun i hclears => ?_, fun i hi hskips => ?_⟩
  · refine text_of_isContinuedBehind kind options ?_
    rw [← isSome_behind, hclears]
    rfl
  · have hraw : raws[i]? = some raws[i] := List.getElem?_eq_getElem hi
    have htext : isMessageText (carryBehind .code (raws.take i)) raws[i] = true :=
      isMessageText_iff.mpr (.inl hskips)
    have hcontinued := isContinuedBehind_of_skipsMessage hplain (Nat.le_of_lt hi) hskips
    exact {
      cleared := text_of_isContinuedBehind kind options hcontinued
      continued := hcontinued
      unread := ⟨_, hraw, by rw [getElem?_blankLines 1 .code hraw, blankLine_of_isMessageText htext]⟩
      unreported := fun d hd column hplace => by
        rw [← Bool.not_eq_true]
        intro hlexical
        obtain ⟨raw, -, hmem⟩ := mem_blankLine_of_mem_scrub hd hlexical hplace
        rw [blankLine_of_isMessageText (isMessageText_iff.mpr (.inl hskips))] at hmem
        cases hmem }

/-- The message goes on over two lines, with a quote, a comment mark and a stray one in it. -/
theorem message_continuations_free :
    let source := Bytes.ofString "#error don't \\\n/* it's \\\n*/ \"\nint x;"
    let raws := Bytes.lines source.dropByteOrderMark
    (∀ text ∈ trimmedTexts raws, regionOpener? text = none) ∧
      (∀ i, i + 1 < raws.length → ¬PartsMessageAt raws i) ∧
      SkipsMessage raws 1 ∧ IsFreeText source .header {} 1 ∧
      SkipsMessage raws 2 ∧ IsFreeText source .header {} 2 ∧ ¬SkipsMessage raws 3 := by
  intro source raws
  have hplain : ∀ text ∈ trimmedTexts raws, regionOpener? text = none := by decide +kernel
  have hagree : ∀ i < raws.length, SkipsMessage raws i ↔ ClearsMessage raws i := by decide +kernel
  have hsecond : SkipsMessage raws 1 := by decide +kernel
  have hthird : SkipsMessage raws 2 := by decide +kernel
  have hlast : ¬SkipsMessage raws 3 := by decide +kernel
  obtain ⟨hparts, -, hfree⟩ := message_continuations source .header {} hplain
  exact ⟨hplain, hparts.mp hagree, hsecond, hfree 1 (by decide +kernel) hsecond, hthird,
    hfree 2 (by decide +kernel) hthird, hlast⟩

/-- With a blank behind the backslash, and with a comment in front of the directive, the next line is
cleared as part of the message but not skipped: a comment that opens in it takes the code behind it
away, and a quote in it is reported. In another directive a line is skipped that belongs to no
message. -/
theorem message_continuations_ne :
    let comment := Bytes.ofString "#error use \\ \n  a /* b\nint x;"
    let quote := Bytes.ofString "#error no \\ \ndon't\nint x;"
    let uncovered := Bytes.ofString "/**/ #error don't \\\nx\nint x;"
    let foreign := Bytes.ofString "#define A \\\n#error b \\\nc"
    let parts (source : Bytes) (i : Nat) : Bool :=
      let raws := Bytes.lines source.dropByteOrderMark
      (trimmedTexts raws).all (fun text => (regionOpener? text).isNone) &&
        decide (SkipsMessage raws i) != decide (ClearsMessage raws i)
    (parts comment 1 = true ∧ (scrub comment .implementation {}).1.text 3 = [] ∧
        (scrub comment .implementation {}).2 = [⟨.on 3 6, .openComment⟩]) ∧
      (parts quote 1 = true ∧
        (scrub quote .implementation {}).2 = [⟨.on 2 5, .unterminatedLiteral .single⟩]) ∧
      (parts uncovered 1 = true ∧
        (scrub uncovered .implementation {}).2 = [⟨.on 2 1, .unterminatedLiteral .single⟩]) ∧
      parts foreign 2 = true := by
  decide +kernel

end Scrubbed
end Lines
end BracketLint
