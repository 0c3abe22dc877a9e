import Mathlib.Data.List.Basic
import BracketLint.Proofs.Line.Hidden
import BracketLint.Proofs.Lines.Columns

/-!
Where a comment starts on a line without quotes. Outside of literals the scan goes byte by byte and
leaves the line as it is, until it comes to the first mark that opens a comment. It passes over no
mark on the way, except that a closing mark that closes nothing takes the slash behind its star with
it. A line comment is cut off there; a block comment is blanked through its closing mark.
-/

namespace BracketLint

section Mark

/-- Whether a mark of two bytes stands at a column. -/
def HasMark (raw : Bytes) (first second : UInt8) (column : Nat) : Prop :=
  raw[column]? = some first ∧ raw[column + 1]? = some second

instance (raw : Bytes) (first second : UInt8) (column : Nat) :
    Decidable (HasMark raw first second column) :=
  inferInstanceAs (Decidable (_ ∧ _))

/-- Whether a mark that opens a comment stands at a column. -/
def OpensComment (raw : Bytes) (column : Nat) : Prop :=
  HasMark raw Ascii.slash Ascii.slash column ∨ HasMark raw Ascii.slash Ascii.star column

instance (raw : Bytes) (column : Nat) : Decidable (OpensComment raw column) :=
  inferInstanceAs (Decidable (_ ∨ _))

/-- Whether the first mark of a line that opens a comment stands at a column. -/
def IsFirstOpener (raw : Bytes) (column : Nat) : Prop :=
  OpensComment raw column ∧ ∀ c < column, ¬OpensComment raw c

instance (raw : Bytes) (column : Nat) : Decidable (IsFirstOpener raw column) :=
  inferInstanceAs (Decidable (_ ∧ _))

/-- No star stands right in front of a column. -/
def NoStarBefore (raw : Bytes) (column : Nat) : Prop :=
  ∀ c, c + 1 = column → raw[c]? ≠ some Ascii.star

variable {raw : Bytes} {first second : UInt8}

theorem hasMark_zero_iff (b : UInt8) (rest : Bytes) :
    HasMark (b :: rest) first second 0 ↔ b = first ∧ rest.head? = some second := by
  rw [HasMark, List.getElem?_cons_zero, Option.some_inj, List.getElem?_cons_succ,
    ← List.head?_eq_getElem?]

theorem not_isFirstOpener_nil (column : Nat) : ¬IsFirstOpener [] column :=
  fun h => h.1.elim (fun h => by cases h.1) (fun h => by cases h.1)

theorem IsFirstOpener.of_cons {b : UInt8} {column : Nat}
    (h : IsFirstOpener (b :: raw) (column + 1)) : IsFirstOpener raw column :=
  ⟨h.1, fun c hc => h.2 (c + 1) (Nat.succ_lt_succ hc)⟩

theorem NoStarBefore.of_cons {b : UInt8} {column : Nat} (h : NoStarBefore (b :: raw) (column + 1)) :
    NoStarBefore raw column :=
  fun c hc => h (c + 1) (congrArg (· + 1) hc)

theorem hasMark_drop_iff (count column : Nat) :
    HasMark (raw.drop count) first second column ↔ HasMark raw first second (count + column) := by
  rw [HasMark, HasMark, List.getElem?_drop, List.getElem?_drop, Nat.add_assoc]

/-- The line from a mark on. -/
theorem HasMark.drop_eq {column : Nat} (h : HasMark raw first second column) :
    raw.drop column = first :: second :: raw.drop (column + 2) := by
  obtain ⟨hlt, hfirst⟩ := List.getElem?_eq_some_iff.mp h.1
  obtain ⟨hlt', hsecond⟩ := List.getElem?_eq_some_iff.mp h.2
  rw [List.drop_eq_getElem_cons hlt, hfirst, List.drop_eq_getElem_cons hlt', hsecond]

end Mark

section Code

variable {mode : ScanMode} (before : Bytes) {raw : Bytes} {column : Nat}

/-- Outside of literals and comments a byte that is no quote and opens no comment stays, and the scan
goes on in code, or with the slash of a closing mark. -/
theorem step?_of_not_opensComment {b : UInt8} {rest : Bytes} (hmode : mode = .code ∨ mode = .stray)
    (hdouble : b ≠ Ascii.doubleQuote) (hsingle : b ≠ Ascii.singleQuote)
    (hopener : ¬OpensComment (b :: rest) 0) :
    ∃ next, mode.step? before b rest = some ⟨b, next⟩ ∧
      (next = .code ∨ next = .stray ∧ b = Ascii.star) := by
  rcases hmode with rfl | rfl
  · rw [OpensComment, hasMark_zero_iff, hasMark_zero_iff, not_or] at hopener
    have hno {x y : UInt8} (h : ¬(b = x ∧ rest.head? = some y)) :
        ¬(b == x && rest.head? == some y) = true := by
      rwa [Bool.and_eq_true, beq_iff_eq, beq_iff_eq]
    have hquote : ¬(b == Ascii.singleQuote && !isDigitSeparator before rest) = true := by
      rw [Bool.and_eq_true, beq_iff_eq]
      exact fun h => hsingle h.1
    rw [ScanMode.step?, if_neg (by rwa [beq_iff_eq]), if_neg hquote, if_neg (hno hopener.1),
      if_neg (hno hopener.2)]
    split_ifs with hstray
    · rw [Bool.and_eq_true, beq_iff_eq] at hstray
      exact ⟨.stray, rfl, .inr ⟨rfl, hstray.1⟩⟩
    · exact ⟨.code, rfl, .inl rfl⟩
  · exact ⟨.code, rfl, .inl rfl⟩

/-- The scan comes to the first mark that opens a comment with the line in front of it unchanged. It
reads the slash of that mark as code, because no star stands right in front of it. -/
theorem scanFrom_of_isFirstOpener (hmode : mode = .code ∨ mode = .stray ∧ 0 < column)
    (hdouble : Ascii.doubleQuote ∉ raw) (hsingle : Ascii.singleQuote ∉ raw)
    (hopener : IsFirstOpener raw column) (hstar : NoStarBefore raw column) :
    ∃ strays,
      let behind := scanFrom .code ((raw.take column).reverse ++ before) (raw.drop column)
      scanFrom mode before raw = { behind with strays := strays ++ behind.strays } := by
  induction column generalizing mode before raw with
  | zero =>
    obtain rfl : mode = .code := hmode.resolve_right fun h => absurd h.2 (Nat.lt_irrefl 0)
    exact ⟨[], rfl⟩
  | succ column ih =>
    cases raw with
    | nil => exact absurd hopener (not_isFirstOpener_nil _)
    | cons b raw =>
      rw [List.mem_cons, not_or] at hdouble hsingle
      obtain ⟨next, hstep, hnext⟩ := step?_of_not_opensComment before (hmode.imp_right (·.1))
        (Ne.symm hdouble.1) (Ne.symm hsingle.1) (hopener.2 0 (Nat.zero_lt_succ _))
      have hnext' : next = .code ∨ next = .stray ∧ 0 < column := by
        refine hnext.imp_right fun h => ⟨h.1, Nat.pos_of_ne_zero ?_⟩
        rintro rfl
        exact hstar 0 rfl (congrArg some h.2)
      obtain ⟨strays, hscan⟩ := ih (b :: before) hnext' hdouble.2 hsingle.2
        hopener.of_cons hstar.of_cons
      have hreverse : (raw.take column).reverse ++ b :: before =
          ((b :: raw).take (column + 1)).reverse ++ before := by
        rw [List.take_succ_cons, List.reverse_cons, List.append_assoc, List.singleton_append]
      rw [hreverse] at hscan
      rw [scanFrom_cons, hstep]
      dsimp only
      split_ifs
      · exact ⟨before.length :: strays, by rw [hscan]; rfl⟩
      · exact ⟨strays, hscan⟩

/-- Without quotes no literal is open at the end. -/
theorem carry_scanFrom_ne_literal (hmode : ∀ quote, mode.carry ≠ .literal quote)
    (hdouble : Ascii.doubleQuote ∉ raw) (hsingle : Ascii.singleQuote ∉ raw) (quote : Quote) :
    (scanFrom mode before raw).mode.carry ≠ .literal quote := by
  induction raw generalizing mode before with
  | nil =>
    cases mode <;> exact hmode quote
  | cons b raw ih =>
    rw [List.mem_cons, not_or] at hdouble hsingle
    rw [scanFrom_cons]
    cases hstep : mode.step? before b raw with
    | none =>
      intro h
      cases h
    | some step =>
      have hnext : ∀ quote, step.mode.carry ≠ .literal quote := by
        intro quote h
        cases mode with
        | code =>
          rw [ScanMode.step?, if_neg (by rw [beq_iff_eq]; exact Ne.symm hdouble.1),
            if_neg (by rw [Bool.and_eq_true, beq_iff_eq]; exact fun h => hsingle.1 h.1.symm)] at hstep
          split_ifs at hstep <;> cases hstep <;> cases h
        | comment =>
          rw [ScanMode.step?] at hstep
          split_ifs at hstep <;> cases hstep <;> cases h
        | literal quote => exact absurd rfl (hmode quote)
        | escaped quote => exact absurd rfl (hmode quote)
        | opening | closing | stray =>
          cases hstep
          cases h
      have hend := ih (step.written :: before) hnext hdouble.2 hsingle.2
      dsimp only
      split_ifs
      · exact hend
      · exact hend

end Code

section Comment

variable (before : Bytes) {raw : Bytes}

/-- In a comment a byte that does not close it is blanked. -/
theorem scanFrom_comment_cons {b : UInt8} (h : ¬HasMark (b :: raw) Ascii.star Ascii.slash 0) :
    scanFrom .comment before (b :: raw) = scanFrom .comment (Ascii.space :: before) raw := by
  rw [hasMark_zero_iff] at h
  rw [scanFrom, if_neg (by rwa [Bool.and_eq_true, beq_iff_eq, beq_iff_eq])]

/-- A comment that is not closed reaches to the end of the line. -/
theorem scanFrom_comment_of_open (h : ∀ c, ¬HasMark raw Ascii.star Ascii.slash c) :
    scanFrom .comment before raw =
      { text := before.reverse ++ List.replicate raw.length Ascii.space, mode := .comment } := by
  induction raw generalizing before with
  | nil => simp [scanFrom]
  | cons b raw ih =>
    rw [scanFrom_comment_cons _ (h 0), ih _ fun c => h (c + 1)]
    simp [List.replicate_succ]

/-- A comment is blanked through its closing mark, and the scan goes on in code. -/
theorem scanFrom_comment_of_closed {last : Nat}
    (hcloses : HasMark raw Ascii.star Ascii.slash last)
    (hnone : ∀ c < last, ¬HasMark raw Ascii.star Ascii.slash c) :
    scanFrom .comment before raw =
      scanFrom .code (List.replicate (last + 2) Ascii.space ++ before) (raw.drop (last + 2)) := by
  induction last generalizing before raw with
  | zero =>
    have hraw : raw = Ascii.star :: Ascii.slash :: raw.drop 2 := hcloses.drop_eq
    rw [hraw]
    rfl
  | succ last ih =>
    cases raw with
    | nil => cases hcloses.1
    | cons b raw =>
      have hrest := ih (Ascii.space :: before) hcloses
        fun c hc => hnone (c + 1) (Nat.succ_lt_succ hc)
      rw [scanFrom_comment_cons _ (hnone 0 (Nat.zero_lt_succ _)), hrest, List.append_cons,
        ← List.replicate_succ', Nat.add_right_comm]
      rfl

end Comment

/-- What the blanking makes of a line on which a comment starts at a column. -/
structure StartsComment (raw : Bytes) (column : Nat) (line : BlankedLine) : Prop where
  text_take : line.text.take column = raw.take column
  /-- A line comment is entered and cut off, except for the backslash that it may end in. -/
  of_lineComment : HasMark raw Ascii.slash Ascii.slash column →
    let body := raw.drop (column + 2)
    line.comment = some (.ofBody column body) ∧ line.carry = .code ∧
      line.text = raw.take column ++
        if (Bytes.trimEnd body).endsIn Ascii.backslash then [Ascii.backslash] else []
  /-- A block comment is blanked through the first mark behind its own that closes it. -/
  of_closed : HasMark raw Ascii.slash Ascii.star column → ∀ last, column + 2 ≤ last →
    HasMark raw Ascii.star Ascii.slash last →
    (∀ c < last, column + 2 ≤ c → ¬HasMark raw Ascii.star Ascii.slash c) →
    line.text.take (last + 2) =
      raw.take column ++ List.replicate (last + 2 - column) Ascii.space
  /-- Without such a mark it is blanked to the end of the line and goes on behind it. -/
  of_open : HasMark raw Ascii.slash Ascii.star column →
    (∀ c, column + 2 ≤ c → ¬HasMark raw Ascii.star Ascii.slash c) →
    line.text = raw.take column ++ List.replicate (raw.length - column) Ascii.space ∧
      line.comment = none ∧ line.carry = .comment

section Line

variable {raw : Bytes} {column : Nat}

/-- A line without quotes is scanned and leaves no literal open. -/
theorem blankLine_of_not_mem (index : Nat) (hmessage : isMessageDirective raw = false)
    (hdouble : Ascii.doubleQuote ∉ raw) (hsingle : Ascii.singleQuote ∉ raw) :
    let scan := scanFrom .code [] raw
    (blankLine index .code raw).text = scan.text ∧
      (blankLine index .code raw).comment = scan.comment.map (fun c => .ofBody c.1 c.2) ∧
      (blankLine index .code raw).carry = scan.mode.carry := by
  intro scan
  have hcode : ∀ quote, ScanMode.code.carry ≠ .literal quote := nofun
  have hliteral := carry_scanFrom_ne_literal [] hcode hdouble hsingle
  have hline : blankLine index .code raw = closeLine index raw scan := by
    rw [blankLine, hmessage]
    rfl
  rw [hline]
  unfold closeLine
  split
  next quote hquote => exact absurd hquote (hliteral quote)
  next => exact ⟨rfl, rfl, rfl⟩

/-- The scan goes on behind the mark of a block comment. -/
theorem scanFrom_comment_of_hasMark (h : HasMark raw Ascii.slash Ascii.star column) :
    scanFrom .code (raw.take column).reverse (raw.drop column) =
      scanFrom .comment (Ascii.space :: Ascii.space :: (raw.take column).reverse)
        (raw.drop (column + 2)) := by
  rw [h.drop_eq]
  rfl

theorem reverse_spaces_append (front : Bytes) (count : Nat) :
    (Ascii.space :: Ascii.space :: front.reverse).reverse ++ List.replicate count Ascii.space =
      front ++ List.replicate (count + 2) Ascii.space := by
  simp [List.replicate_succ]

/-- The scan blanks a block comment through the mark that closes it. -/
theorem exists_text_scanFrom_closed (hmark : HasMark raw Ascii.slash Ascii.star column) {last : Nat}
    (hle : column + 2 ≤ last) (hcloses : HasMark raw Ascii.star Ascii.slash last)
    (hnone : ∀ c < last, column + 2 ≤ c → ¬HasMark raw Ascii.star Ascii.slash c) :
    ∃ text, (scanFrom .code (raw.take column).reverse (raw.drop column)).text =
      raw.take column ++ List.replicate (last + 2 - column) Ascii.space ++ text := by
  obtain ⟨count, rfl⟩ := Nat.exists_eq_add_of_le hle
  have hnone' : ∀ c < count, ¬HasMark (raw.drop (column + 2)) Ascii.star Ascii.slash c := by
    intro c hc hmark
    exact hnone _ (Nat.add_lt_add_left hc _) (Nat.le_add_right _ _)
      ((hasMark_drop_iff _ _).mp hmark)
  rw [scanFrom_comment_of_hasMark hmark,
    scanFrom_comment_of_closed _ ((hasMark_drop_iff _ _).mpr hcloses) hnone']
  obtain ⟨text, htext, -⟩ := exists_text_scanFrom .code
    (List.replicate (count + 2) Ascii.space ++ Ascii.space :: Ascii.space :: (raw.take column).reverse)
    ((raw.drop (column + 2)).drop (count + 2))
  have hwidth : column + 2 + count + 2 - column = count + 2 + 2 := by omega
  refine ⟨text, ?_⟩
  rw [htext, List.reverse_append, List.reverse_replicate, reverse_spaces_append, hwidth]

/-- A comment starts at the first mark that opens one, if no star stands right in front of it. -/
theorem startsComment_blankLine (index : Nat) (hmessage : isMessageDirective raw = false)
    (hdouble : Ascii.doubleQuote ∉ raw) (hsingle : Ascii.singleQuote ∉ raw)
    (hopener : IsFirstOpener raw column) (hstar : NoStarBefore raw column) :
    StartsComment raw column (blankLine index .code raw) := by
  have hlt : column < raw.length :=
    (List.getElem?_eq_some_iff.mp (hopener.1.elim (·.1) (·.1))).1
  have hlength : (raw.take column).length = column := List.length_take_of_le (Nat.le_of_lt hlt)
  obtain ⟨htext, hcomment, hcarry⟩ := blankLine_of_not_mem index hmessage hdouble hsingle
  obtain ⟨strays, hscan⟩ :=
    scanFrom_of_isFirstOpener [] (.inl rfl) hdouble hsingle hopener hstar
  rw [List.append_nil] at hscan
  rw [hscan] at htext hcomment hcarry
  refine ⟨?_, ?_, ?_, ?_⟩
  · obtain ⟨text, hbehind, -⟩ :=
      exists_text_scanFrom .code (raw.take column).reverse (raw.drop column)
    rw [htext, hbehind, List.reverse_reverse, List.take_left' hlength]
  · intro hmark body
    have hcut : scanFrom .code (raw.take column).reverse (raw.drop column) =
        cutAtComment (raw.take column).reverse body := by
      rw [hmark.drop_eq]
      rfl
    rw [hcut] at htext hcomment hcarry
    refine ⟨?_, hcarry, ?_⟩
    · rw [hcomment, cutAtComment, List.length_reverse, hlength]
      rfl
    · rw [htext, cutAtComment, List.reverse_reverse]
  · intro hmark last hle hcloses hnone
    obtain ⟨text, hbehind⟩ := exists_text_scanFrom_closed hmark hle hcloses hnone
    have hlength' : (raw.take column ++ List.replicate (last + 2 - column) Ascii.space).length =
        last + 2 := by
      rw [List.length_append, List.length_replicate, hlength]
      omega
    rw [htext, hbehind, List.take_left' hlength']
  · intro hmark hnone
    have hopen : ∀ c, ¬HasMark (raw.drop (column + 2)) Ascii.star Ascii.slash c := by
      intro c hc
      exact hnone _ (Nat.le_add_right _ _) ((hasMark_drop_iff _ _).mp hc)
    rw [scanFrom_comment_of_hasMark hmark, scanFrom_comment_of_open _ hopen] at htext hcomment hcarry
    have hle : column + 2 ≤ raw.length := (List.getElem?_eq_some_iff.mp hmark.2).1
    have hwidth : raw.length - (column + 2) + 2 = raw.length - column := by omega
    refine ⟨?_, hcomment, hcarry⟩
    rw [htext, reverse_spaces_append, List.length_drop, hwidth]

end Line
end BracketLint
