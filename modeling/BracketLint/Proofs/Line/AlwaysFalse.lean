import Mathlib.Data.List.Basic
import BracketLint.Proofs.Line.Condition

/-!
Which conditions are taken for ones that never hold. The test looks at the two ends of a condition's
text, so it is followed back from the text to the condition: a zero next to `&&` at an end of the
text is an operand of that `&&`, because no other operator binds so that it could come between them.
What the test does not see is a `||` further in, which binds weaker than the `&&`.
-/

namespace BracketLint

namespace Condition

/-- The characters that names and literals consist of. -/
def isTokenChar (c : Char) : Bool := isNameChar c || c == '\''

/-- The characters that operators consist of. -/
def isMark (c : Char) : Bool := ['|', '&', '=', '!', '<', '>'].contains c

/-- Names and literals are tokens. -/
def IsToken (text : List Char) : Prop := text ≠ [] ∧ ∀ c ∈ text, isTokenChar c = true

theorem isTokenChar_of_isLiteralChar {c : Char} (h : isLiteralChar c = true) :
    isTokenChar c = true := by
  simp only [isLiteralChar, isTokenChar, isNameChar, Bool.or_eq_true] at h ⊢
  tauto

theorem isToken_of_isLiteral {text : List Char} (h : isLiteral text = true) : IsToken text := by
  cases text with
  | nil => cases h
  | cons d ds =>
    rw [isLiteral, Bool.and_eq_true, List.all_eq_true] at h
    refine ⟨List.cons_ne_nil _ _, fun c hc => ?_⟩
    rcases List.mem_cons.mp hc with rfl | hc
    · simp [isTokenChar, isNameChar, Char.isAlphanum, h.1]
    · exact isTokenChar_of_isLiteralChar (h.2 c hc)

theorem isToken_of_isName {name : List Char} (h : isName name = true) : IsToken name := by
  cases name with
  | nil => cases h
  | cons d ds =>
    rw [isName, Bool.and_eq_true, Bool.and_eq_true, List.all_eq_true] at h
    refine ⟨List.cons_ne_nil _ _, fun c hc => ?_⟩
    rcases List.mem_cons.mp hc with rfl | hc
    · simp [isTokenChar, h.1.2]
    · simp [isTokenChar, h.2 c hc]

theorem not_isName_digits {c : Char} {cs : List Char} (h : c.isDigit = true) :
    isName (c :: cs) = false := by
  simp [isName, h]

section Front

/-- A name or literal that starts a text with a lone zero is that zero. -/
theorem eq_zero_of_start {token tail rest : List Char} {x : Char}
    (htoken : IsToken token) (hx : isTokenChar x = false)
    (h : token ++ tail = '0' :: x :: rest) : token = ['0'] ∧ tail = x :: rest := by
  match token with
  | [] => exact absurd rfl htoken.1
  | [d] =>
    obtain ⟨rfl, rfl⟩ := List.cons.inj h
    exact ⟨rfl, rfl⟩
  | d :: e :: es =>
    obtain ⟨rfl, -⟩ := List.cons.inj (List.cons.inj h).2
    rw [htoken.2 e (by simp)] at hx
    cases hx

/-- A condition that starts with a lone zero is that zero, or an operator follows the zero. -/
theorem eq_zero_or_isMark_of_start {c : Condition} (hc : c.isWellFormed = true)
    {tail rest : List Char} {x : Char} (hx : isTokenChar x = false)
    (h : c.spelling ++ tail = '0' :: x :: rest) :
    c = literal ['0'] ∧ tail = x :: rest ∨ isMark x = true := by
  induction c generalizing tail with
  | literal text =>
    obtain ⟨rfl, htail⟩ := eq_zero_of_start (isToken_of_isLiteral hc) hx h
    exact .inl ⟨rfl, htail⟩
  | identifier name =>
    obtain ⟨rfl, -⟩ := eq_zero_of_start (isToken_of_isName hc) hx h
    cases hc
  | defined name inParens => simp [spelling, definedWord] at h
  | parens inner _ => simp [spelling] at h
  | not operand _ => simp [spelling] at h
  | binary op left right ih _ =>
    rw [isWellFormed, Bool.and_eq_true, Bool.and_eq_true, Bool.and_eq_true] at hc
    rw [spelling, List.append_assoc] at h
    rcases ih hc.1.1.1 h with ⟨-, htail⟩ | hmark
    · right
      cases op <;> cases (List.cons.inj htail).1 <;> rfl
    · exact .inr hmark

/-- A conjunction that starts with a zero, within the first of the conditions between `||`. -/
def StartsInZero (c : Condition) : Prop :=
  c.firstDisjunct.isConjunction = true ∧ c.firstDisjunct.firstConjunct.IsZero

/-- A condition that is no disjunction is its only part between `||`. -/
theorem disjuncts_of_isDisjunction_eq_false {c : Condition} (h : c.isDisjunction = false) :
    c.firstDisjunct = c ∧ c.lastDisjunct = c := by
  unfold isDisjunction at h
  unfold firstDisjunct lastDisjunct
  split at h
  · cases h
  · exact ⟨rfl, rfl⟩

theorem isDisjunction_eq_false_of_precedence {c : Condition} (h : 0 < c.precedence) :
    c.isDisjunction = false := by
  unfold isDisjunction
  split
  · cases h
  · rfl

theorem precedence_of_isConjunction {c : Condition} (h : c.isConjunction = true) :
    c.precedence = 1 := by
  unfold isConjunction at h
  split at h
  · rfl
  · cases h

theorem firstConjunct_of_isZero {c : Condition} (h : c.IsZero) : c.firstConjunct = c := by
  rcases h with rfl | rfl <;> rfl

/-- What an operator makes of a left operand that starts in a zero. -/
theorem startsInZero_binary {op : ConditionOp} {left : Condition} (right : Condition)
    (hop : op.precedence ≤ left.precedence) (h : left.StartsInZero) :
    (binary op left right).StartsInZero := by
  by_cases hor : op = .or
  · rw [hor]
    exact h
  -- The left operand is no disjunction, so it is a conjunction itself.
  have hpos : 0 < op.precedence := by
    cases op <;> first | exact absurd rfl hor | decide
  have hsingle := isDisjunction_eq_false_of_precedence (Nat.lt_of_lt_of_le hpos hop)
  have hfirst := (disjuncts_of_isDisjunction_eq_false hsingle).1
  rw [StartsInZero, hfirst] at h
  rw [precedence_of_isConjunction h.1] at hop
  cases op with
  | and => exact ⟨rfl, h.2⟩
  | or => exact absurd rfl hor
  | _ => exact absurd hop (by decide)

/-- A name or literal that starts a text with a zero in front of `&&` is that zero. -/
theorem eq_zero_of_isPrefix {token tail : List Char}
    (htoken : IsToken token)
    (h : ['0', '&', '&'] <+: token ++ tail ∨ ['(', '0', ')', '&', '&'] <+: token ++ tail) :
    token = ['0'] ∧ ['&', '&'] <+: tail := by
  rcases h with ⟨rest, h⟩ | ⟨rest, h⟩
  · have hand : isTokenChar '&' = false := by decide
    obtain ⟨hzero, htail⟩ := eq_zero_of_start htoken hand h.symm
    exact ⟨hzero, rest, htail.symm⟩
  · obtain ⟨first, behind, rfl⟩ := List.exists_cons_of_ne_nil htoken.1
    obtain ⟨rfl, -⟩ := List.cons.inj h
    cases htoken.2 '(' List.mem_cons_self

/-- A condition that starts with a zero and `&&` starts in that zero. -/
theorem startsInZero_of_isPrefix {c : Condition} (hc : c.isWellFormed = true) {tail : List Char}
    (h : ['0', '&', '&'] <+: c.spelling ++ tail ∨
      ['(', '0', ')', '&', '&'] <+: c.spelling ++ tail) :
    (c.IsZero ∧ ['&', '&'] <+: tail) ∨ c.StartsInZero := by
  induction c generalizing tail with
  | literal text =>
    obtain ⟨rfl, htail⟩ := eq_zero_of_isPrefix (isToken_of_isLiteral hc) h
    exact .inl ⟨.inl rfl, htail⟩
  | identifier name =>
    obtain ⟨rfl, -⟩ := eq_zero_of_isPrefix (isToken_of_isName hc) h
    cases hc
  | defined name inParens => simp [spelling, definedWord] at h
  | parens inner _ =>
    rcases h with ⟨rest, h⟩ | ⟨rest, h⟩
    · simp [spelling] at h
    · have hinner : inner.spelling ++ (')' :: tail) = '0' :: ')' :: '&' :: '&' :: rest := by
        simpa [spelling] using h.symm
      have hwell : inner.isWellFormed = true := hc
      rcases eq_zero_or_isMark_of_start hwell (by decide) hinner with ⟨rfl, htail⟩ | hmark
      · exact .inl ⟨.inr rfl, rest, (List.cons.inj htail).2.symm⟩
      · cases hmark
  | not operand _ => simp [spelling] at h
  | binary op left right ih _ =>
    rw [isWellFormed, Bool.and_eq_true, Bool.and_eq_true, Bool.and_eq_true, decide_eq_true_eq] at hc
    rw [spelling, List.append_assoc] at h
    right
    rcases ih hc.1.1.1 h with ⟨hzero, htail⟩ | hstarts
    · by_cases hand : op = .and
      · have hfirst : (binary .and left right).firstConjunct = left := firstConjunct_of_isZero hzero
        rw [hand]
        exact ⟨rfl, (congrArg IsZero hfirst).mpr hzero⟩
      · cases op <;> first | exact absurd rfl hand | simp [ConditionOp.spelling] at htail
    · exact startsInZero_binary right hc.1.2 hstarts

end Front

section Back

/-- A name or literal behind some text that ends in a lone zero is that zero. -/
theorem eq_zero_of_end {token front rest : List Char} {x : Char}
    (htoken : IsToken token) (hx : isTokenChar x = false)
    (h : front ++ token = rest ++ [x, '0']) : token = ['0'] ∧ front = rest ++ [x] := by
  obtain ⟨init, last, rfl⟩ := (List.eq_nil_or_concat' token).resolve_left htoken.1
  have hsplit : (front ++ init) ++ [last] = (rest ++ [x]) ++ ['0'] := by
    simpa using h
  obtain ⟨hinit, hlast⟩ := List.append_inj' hsplit rfl
  obtain rfl := List.singleton_inj.mp hlast
  rcases List.eq_nil_or_concat' init with rfl | ⟨init', y, rfl⟩
  · exact ⟨rfl, by rwa [List.append_nil] at hinit⟩
  · rw [← List.append_assoc] at hinit
    obtain rfl := List.singleton_inj.mp (List.append_inj' hinit rfl).2
    rw [htoken.2 y (by simp)] at hx
    cases hx

/-- A condition that ends in a lone zero is that zero, or an operator stands in front of the zero. -/
theorem eq_zero_or_isMark_of_end {c : Condition} (hc : c.isWellFormed = true)
    {front rest : List Char} {x : Char} (hx : isTokenChar x = false)
    (h : front ++ c.spelling = rest ++ [x, '0']) :
    c = literal ['0'] ∧ front = rest ++ [x] ∨ isMark x = true := by
  induction c generalizing front with
  | literal text =>
    obtain ⟨rfl, hfront⟩ := eq_zero_of_end (isToken_of_isLiteral hc) hx h
    exact .inl ⟨rfl, hfront⟩
  | identifier name =>
    obtain ⟨rfl, -⟩ := eq_zero_of_end (isToken_of_isName hc) hx h
    cases hc
  | defined name inParens =>
    cases inParens with
    | false =>
      rw [spelling, if_neg Bool.false_ne_true, ← List.append_assoc] at h
      obtain ⟨rfl, -⟩ := eq_zero_of_end (isToken_of_isName hc) hx h
      cases hc
    | true =>
      have hlast := congrArg List.getLast? h
      simp [spelling, List.getLast?_append, List.getLast?_cons] at hlast
  | parens inner _ =>
    have hlast := congrArg List.getLast? h
    simp [spelling, List.getLast?_append, List.getLast?_cons] at hlast
  | not operand ih =>
    rw [isWellFormed, Bool.and_eq_true] at hc
    rw [spelling, List.append_cons] at h
    rcases ih hc.1 h with ⟨-, hfront⟩ | hmark
    · right
      rw [← List.singleton_inj.mp (List.append_inj' hfront rfl).2]
      rfl
    · exact .inr hmark
  | binary op left right _ ih =>
    rw [isWellFormed, Bool.and_eq_true, Bool.and_eq_true, Bool.and_eq_true] at hc
    rw [spelling, ← List.append_assoc, ← List.append_assoc] at h
    rcases ih hc.1.1.2 h with ⟨-, hfront⟩ | hmark
    · right
      have hlast := congrArg List.getLast? hfront
      cases op <;> simp [ConditionOp.spelling] at hlast <;> rw [← hlast] <;> rfl
    · exact .inr hmark

/-- A conjunction that ends in a zero, as the last of the conditions between `||`. -/
def EndsInZero (c : Condition) : Prop :=
  c.lastDisjunct.isConjunction = true ∧ c.lastDisjunct.lastConjunct.IsZero

/-- An operator whose right operand ends in a zero is `||`. -/
theorem endsInZero_binary {op : ConditionOp} {right : Condition} (left : Condition)
    (hop : op.precedence < right.precedence) (h : right.EndsInZero) :
    (binary op left right).EndsInZero := by
  -- The right operand is no disjunction, so it is a conjunction itself.
  have hsingle := isDisjunction_eq_false_of_precedence (Nat.zero_lt_of_lt hop)
  have hlast := (disjuncts_of_isDisjunction_eq_false hsingle).2
  rw [EndsInZero, hlast] at h
  rw [precedence_of_isConjunction h.1] at hop
  cases op with
  | or => exact h
  | _ => exact absurd hop (by decide)

/-- A name or literal that ends in a zero behind `&&` is that zero. -/
theorem eq_zero_of_isSuffix {token front : List Char}
    (htoken : IsToken token)
    (h : ['&', '&', '0'] <:+ front ++ token ∨ ['&', '&', '(', '0', ')'] <:+ front ++ token) :
    token = ['0'] ∧ ['&', '&'] <:+ front := by
  rcases h with ⟨rest, h⟩ | ⟨rest, h⟩
  · have hend : front ++ token = (rest ++ ['&']) ++ ['&', '0'] := by
      rw [← h, List.append_assoc]
      rfl
    obtain ⟨htoken, hfront⟩ := eq_zero_of_end htoken (by decide) hend
    exact ⟨htoken, rest, by rw [hfront, List.append_assoc]; rfl⟩
  · obtain ⟨init, last, rfl⟩ := (List.eq_nil_or_concat' token).resolve_left htoken.1
    rw [← List.append_assoc, List.append_cons, List.append_cons, List.append_cons,
      List.append_cons] at h
    obtain rfl := List.singleton_inj.mp (List.append_inj' h rfl).2
    cases htoken.2 ')' (by simp)

/-- In front of a closing parenthesis only the zero in parentheses can end a text so. -/
theorem exists_of_isSuffix_closed {body : List Char}
    (h : ['&', '&', '0'] <:+ body ++ [')'] ∨ ['&', '&', '(', '0', ')'] <:+ body ++ [')']) :
    ∃ rest, body = (rest ++ ['&', '&']) ++ ['(', '0'] := by
  rcases h with ⟨rest, h⟩ | ⟨rest, h⟩
  · rw [List.append_cons, List.append_cons] at h
    cases List.singleton_inj.mp (List.append_inj' h rfl).2
  · refine ⟨rest, (List.append_inj' (Eq.trans ?_ h) rfl).1.symm⟩
    rw [List.append_assoc, List.append_assoc]
    rfl

/-- A condition that ends in `&&` and a zero ends in that zero. -/
theorem endsInZero_of_isSuffix {c : Condition} (hc : c.isWellFormed = true) {front : List Char}
    (h : ['&', '&', '0'] <:+ front ++ c.spelling ∨
      ['&', '&', '(', '0', ')'] <:+ front ++ c.spelling) :
    (c.IsZero ∧ ['&', '&'] <:+ front) ∨ c.EndsInZero := by
  induction c generalizing front with
  | literal text =>
    obtain ⟨rfl, hfront⟩ := eq_zero_of_isSuffix (isToken_of_isLiteral hc) h
    exact .inl ⟨.inl rfl, hfront⟩
  | identifier name =>
    obtain ⟨rfl, -⟩ := eq_zero_of_isSuffix (isToken_of_isName hc) h
    cases hc
  | defined name inParens =>
    cases inParens with
    | false =>
      rw [spelling, if_neg Bool.false_ne_true, ← List.append_assoc] at h
      obtain ⟨rfl, -⟩ := eq_zero_of_isSuffix (isToken_of_isName hc) h
      cases hc
    | true =>
      have hspelling : front ++ (defined name true).spelling =
          (front ++ definedWord ++ ['('] ++ name) ++ [')'] := by
        simp [spelling]
      rw [hspelling] at h
      obtain ⟨rest, hbody⟩ := exists_of_isSuffix_closed h
      obtain ⟨rfl, -⟩ := eq_zero_of_end (isToken_of_isName hc) (by decide) hbody
      cases hc
  | parens inner _ =>
    have hspelling : front ++ (parens inner).spelling =
        (front ++ ['('] ++ inner.spelling) ++ [')'] := by
      simp [spelling]
    rw [hspelling] at h
    obtain ⟨rest, hbody⟩ := exists_of_isSuffix_closed h
    have hwell : inner.isWellFormed = true := hc
    rcases eq_zero_or_isMark_of_end hwell (by decide) hbody with ⟨rfl, hfront⟩ | hmark
    · refine .inl ⟨.inr rfl, rest, ?_⟩
      exact (List.append_inj' hfront rfl).1.symm
    · cases hmark
  | not operand ih =>
    rw [isWellFormed, Bool.and_eq_true, decide_eq_true_eq] at hc
    rw [spelling, List.append_cons] at h
    rcases ih hc.1 h with ⟨-, rest, hfront⟩ | hends
    · rw [List.append_cons] at hfront
      cases List.singleton_inj.mp (List.append_inj' hfront rfl).2
    · -- What stands behind `!` is no conjunction.
      have hsingle := isDisjunction_eq_false_of_precedence (c := operand) (by omega)
      rw [EndsInZero, (disjuncts_of_isDisjunction_eq_false hsingle).2] at hends
      rw [precedence_of_isConjunction hends.1] at hc
      omega
  | binary op left right _ ih =>
    rw [isWellFormed, Bool.and_eq_true, Bool.and_eq_true, Bool.and_eq_true,
      decide_eq_true_eq, decide_eq_true_eq] at hc
    rw [spelling, ← List.append_assoc, ← List.append_assoc] at h
    right
    rcases ih hc.1.1.2 h with ⟨hzero, rest, hfront⟩ | hends
    · by_cases hand : op = .and
      · rw [hand]
        exact ⟨rfl, hzero⟩
      · have hlast := congrArg List.getLast? hfront
        cases op <;> first | exact absurd rfl hand | simp [ConditionOp.spelling] at hlast
    · exact endsInZero_binary left hc.2 hends

end Back

section Plain

/-- The conditions that are false as a whole. -/
def IsPlainlyFalse (c : Condition) : Prop :=
  c.IsZero ∨ c = identifier falseWord ∨ c = not (literal ['1'])

theorem neverHolds_of_isPlainlyFalse {c : Condition} (h : c.IsPlainlyFalse) : c.NeverHolds := by
  rcases h with hzero | rfl | rfl
  · exact neverHolds_of_isZero hzero
  · exact fun _ => rfl
  · exact fun _ => rfl

theorem isDisjunction_of_isPlainlyFalse {c : Condition} (h : c.IsPlainlyFalse) :
    c.isDisjunction = false := by
  rcases h with (rfl | rfl) | rfl | rfl <;> rfl

/-- An operator between two conditions shows in the text. -/
theorem exists_mem_spelling_binary (op : ConditionOp) (left right : Condition) :
    ∃ m ∈ ['|', '&', '=', '<', '>'], m ∈ (binary op left right).spelling := by
  cases op
  case or => exact ⟨'|', by simp [spelling, ConditionOp.spelling]⟩
  case and => exact ⟨'&', by simp [spelling, ConditionOp.spelling]⟩
  case equal | notEqual => exact ⟨'=', by simp [spelling, ConditionOp.spelling]⟩
  case less | lessEqual => exact ⟨'<', by simp [spelling, ConditionOp.spelling]⟩
  case greater | greaterEqual => exact ⟨'>', by simp [spelling, ConditionOp.spelling]⟩

theorem not_binary_of_spelling {op : ConditionOp} {left right : Condition} {text : List Char}
    (htext : ∀ m ∈ ['|', '&', '=', '<', '>'], m ∉ text) :
    (binary op left right).spelling ≠ text := by
  rintro rfl
  obtain ⟨m, hm, hmem⟩ := exists_mem_spelling_binary op left right
  exact htext m hm hmem

variable {c : Condition} (hc : c.isWellFormed = true)
include hc

theorem eq_literal_of_spelling {d : Char} (hd : d = '0' ∨ d = '1') (h : c.spelling = [d]) :
    c = literal [d] := by
  have hdigit : d.isDigit = true := by rcases hd with rfl | rfl <;> decide
  cases c with
  | literal text => exact congrArg literal h
  | identifier name =>
    obtain rfl : name = [d] := h
    cases (not_isName_digits hdigit).symm.trans hc
  | defined name inParens => simp [spelling, definedWord] at h
  | parens inner => simp [spelling] at h
  | not operand =>
    obtain rfl := (List.cons.inj h).1
    cases hdigit
  | binary op left right =>
    refine absurd h (not_binary_of_spelling ?_)
    rcases hd with rfl | rfl <;> simp

theorem eq_parens_of_spelling (h : c.spelling = ['(', '0', ')']) : c = parens (literal ['0']) := by
  cases c with
  | literal text =>
    obtain rfl : text = ['(', '0', ')'] := h
    cases hc
  | identifier name =>
    obtain rfl : name = ['(', '0', ')'] := h
    cases hc
  | defined name inParens => simp [spelling, definedWord] at h
  | parens inner =>
    have hinner : inner.spelling ++ [')'] = ['0'] ++ [')'] := (List.cons.inj h).2
    have hwell : inner.isWellFormed = true := hc
    rw [eq_literal_of_spelling hwell (.inl rfl) (List.append_inj' hinner rfl).1]
  | not operand => cases (List.cons.inj h).1
  | binary op left right => exact absurd h (not_binary_of_spelling (by simp))

theorem eq_false_of_spelling (h : c.spelling = falseWord) : c = identifier falseWord := by
  cases c with
  | literal text =>
    obtain rfl : text = falseWord := h
    cases hc
  | identifier name => exact congrArg identifier h
  | defined name inParens => simp [spelling, definedWord, falseWord] at h
  | parens inner => cases (List.cons.inj h).1
  | not operand => cases (List.cons.inj h).1
  | binary op left right => exact absurd h (not_binary_of_spelling (by simp [falseWord]))

theorem eq_not_of_spelling (h : c.spelling = ['!', '1']) : c = not (literal ['1']) := by
  cases c with
  | literal text =>
    obtain rfl : text = ['!', '1'] := h
    cases hc
  | identifier name =>
    obtain rfl : name = ['!', '1'] := h
    cases hc
  | defined name inParens => simp [spelling, definedWord] at h
  | parens inner => cases (List.cons.inj h).1
  | not operand =>
    rw [isWellFormed, Bool.and_eq_true] at hc
    rw [eq_literal_of_spelling hc.1 (.inr rfl) (List.cons.inj h).2]
  | binary op left right => exact absurd h (not_binary_of_spelling (by simp))

end Plain

section Operands

variable {c : Condition}

/-- The first of the conditions between `||` is written at the front. -/
theorem isPrefix_firstDisjunct (c : Condition) :
    c.firstDisjunct.spelling <+: c.spelling := by
  fun_induction firstDisjunct c with
  | case1 left right ih => exact ih.trans (List.prefix_append _ _)
  | case2 => exact List.prefix_rfl

/-- The last of the conditions between `||` is written at the end. -/
theorem isSuffix_lastDisjunct (c : Condition) :
    c.lastDisjunct.spelling <:+ c.spelling := by
  unfold lastDisjunct
  split
  · exact (List.suffix_append _ _).trans (List.suffix_append _ _)
  · exact List.suffix_rfl

/-- A conjunction is written as the first of its conditions, `&&` and more. -/
theorem isPrefix_firstConjunct (h : c.isConjunction = true) :
    c.firstConjunct.spelling ++ ['&', '&'] <+: c.spelling := by
  fun_induction firstConjunct c with
  | case1 left right ih =>
    by_cases hleft : left.isConjunction = true
    · exact (ih hleft).trans (List.prefix_append _ _)
    · have hself : left.firstConjunct = left := by
        unfold isConjunction at hleft
        unfold firstConjunct
        split at hleft
        · exact absurd rfl hleft
        · rfl
      rw [hself, spelling, ← List.append_assoc]
      exact List.prefix_append _ _
  | case2 c hnone =>
    unfold isConjunction at h
    split at h
    · exact (hnone _ _ rfl).elim
    · cases h

/-- A conjunction is written as something, `&&` and the last of its conditions. -/
theorem isSuffix_lastConjunct (h : c.isConjunction = true) :
    ['&', '&'] ++ c.lastConjunct.spelling <:+ c.spelling := by
  unfold isConjunction at h
  split at h
  · exact List.suffix_append _ _
  · cases h

/-- The ways to write a zero. -/
theorem spelling_of_isZero (h : c.IsZero) : c.spelling = ['0'] ∨ c.spelling = ['(', '0', ')'] := by
  rcases h with rfl | rfl
  · exact .inl rfl
  · exact .inr rfl

theorem isPrefix_of_startsInZero (h : c.StartsInZero) :
    ['0', '&', '&'] <+: c.spelling ∨ ['(', '0', ')', '&', '&'] <+: c.spelling := by
  have hprefix := (isPrefix_firstConjunct h.1).trans (isPrefix_firstDisjunct c)
  rcases spelling_of_isZero h.2 with hzero | hzero
  · exact .inl (by rwa [hzero] at hprefix)
  · exact .inr (by rwa [hzero] at hprefix)

theorem isSuffix_of_endsInZero (h : c.EndsInZero) :
    ['&', '&', '0'] <:+ c.spelling ∨ ['&', '&', '(', '0', ')'] <:+ c.spelling := by
  have hsuffix := (isSuffix_lastConjunct h.1).trans (isSuffix_lastDisjunct c)
  rcases spelling_of_isZero h.2 with hzero | hzero
  · exact .inl (by rwa [hzero] at hsuffix)
  · exact .inr (by rwa [hzero] at hsuffix)

end Operands
end Condition

section Test

variable {c : Condition} {text : List Char}

/-- What the test looks for in the text of a condition without its blanks. -/
theorem isAlwaysFalse_eq_true_iff (h : text.filter (!isBlank ·) = c.spelling) :
    isAlwaysFalse text = true ↔
      (c.spelling = ['0'] ∨ c.spelling = ['(', '0', ')'] ∨ c.spelling = Condition.falseWord ∨
        c.spelling = ['!', '1']) ∨
      (['0', '&', '&'] <+: c.spelling ∨ ['(', '0', ')', '&', '&'] <+: c.spelling) ∨
      (['&', '&', '0'] <:+ c.spelling ∨ ['&', '&', '(', '0', ')'] <:+ c.spelling) := by
  rw [isAlwaysFalse, h]
  simp [Text.startsWith, Text.endsWith, Condition.falseWord, or_assoc]

variable (hc : c.isWellFormed = true) (htext : text.filter (!isBlank ·) = c.spelling)
include hc htext

/-- The conditions that are taken for ones that never hold. -/
theorem isAlwaysFalse_iff_condition : isAlwaysFalse text = true ↔
    c.IsPlainlyFalse ∨ c.StartsInZero ∨ c.EndsInZero := by
  rw [isAlwaysFalse_eq_true_iff htext]
  constructor
  · rintro ((hzero | hparens | hfalse | hnot) | hstarts | hends)
    · exact .inl (.inl (.inl (Condition.eq_literal_of_spelling hc (.inl rfl) hzero)))
    · exact .inl (.inl (.inr (Condition.eq_parens_of_spelling hc hparens)))
    · exact .inl (.inr (.inl (Condition.eq_false_of_spelling hc hfalse)))
    · exact .inl (.inr (.inr (Condition.eq_not_of_spelling hc hnot)))
    · have hwhole : (c.IsZero ∧ ['&', '&'] <+: []) ∨ c.StartsInZero :=
        Condition.startsInZero_of_isPrefix hc (by rwa [List.append_nil])
      exact .inr (.inl (hwhole.resolve_left fun h => by simpa using h.2))
    · have hwhole : (c.IsZero ∧ ['&', '&'] <:+ []) ∨ c.EndsInZero :=
        Condition.endsInZero_of_isSuffix hc hends
      exact .inr (.inr (hwhole.resolve_left fun h => by simpa using h.2))
  · rintro ((hzero | rfl | rfl) | hstarts | hends)
    · rcases Condition.spelling_of_isZero hzero with h | h
      · exact .inl (.inl h)
      · exact .inl (.inr (.inl h))
    · exact .inl (.inr (.inr (.inl rfl)))
    · exact .inl (.inr (.inr (.inr rfl)))
    · exact .inr (.inl (Condition.isPrefix_of_startsInZero hstarts))
    · exact .inr (.inr (Condition.isSuffix_of_endsInZero hends))

/-- The test accepts the conditions that are false as a whole and those that start or end in a
conjunction with a zero at that end. The conjunction never holds, so without `||` outside of
parentheses the condition does not either. With `||` only its first or its last part is known never
to hold. -/
theorem isAlwaysFalse_sound :
    (isAlwaysFalse text = true ↔ c.IsPlainlyFalse ∨ c.StartsInZero ∨ c.EndsInZero) ∧
      (isAlwaysFalse text = true → c.firstDisjunct.NeverHolds ∨ c.lastDisjunct.NeverHolds) ∧
      (isAlwaysFalse text = true → c.isDisjunction = false → c.NeverHolds) := by
  have haccepts := isAlwaysFalse_iff_condition hc htext
  have hpart (h : isAlwaysFalse text = true) :
      c.firstDisjunct.NeverHolds ∨ c.lastDisjunct.NeverHolds := by
    rcases haccepts.mp h with hplain | hstarts | hends
    · left
      rw [(Condition.disjuncts_of_isDisjunction_eq_false
        (Condition.isDisjunction_of_isPlainlyFalse hplain)).1]
      exact Condition.neverHolds_of_isPlainlyFalse hplain
    · exact .inl (Condition.neverHolds_of_firstConjunct (Condition.neverHolds_of_isZero hstarts.2))
    · exact .inr (Condition.neverHolds_of_lastConjunct (Condition.neverHolds_of_isZero hends.2))
  refine ⟨haccepts, hpart, fun h hsingle => ?_⟩
  obtain ⟨hfirst, hlast⟩ := Condition.disjuncts_of_isDisjunction_eq_false hsingle
  rcases hpart h with hnever | hnever
  · rwa [hfirst] at hnever
  · rwa [hlast] at hnever

end Test

open Condition in
theorem isAlwaysFalse_sound_conjunction :
    let c := binary .and
      (binary .and (defined ['A'] true) (binary .greater (identifier ['X']) (literal ['2'])))
      (parens (literal ['0']))
    let text := "defined(A) && X > 2 && (0)".toList
    c.isWellFormed = true ∧ text.filter (!isBlank ·) = c.spelling ∧ isAlwaysFalse text = true ∧
      c.isDisjunction = false ∧ c.NeverHolds := by
  intro c text
  have hc : c.isWellFormed = true := by decide +kernel
  have htext : text.filter (!isBlank ·) = c.spelling := by decide +kernel
  have haccepts : isAlwaysFalse text = true := by decide +kernel
  exact ⟨hc, htext, haccepts, rfl, (isAlwaysFalse_sound hc htext).2.2 haccepts rfl⟩

open Condition in
/-- The zero belongs to the first part of the disjunction, and the second one can hold. The line of
that branch is emptied all the same. -/
theorem isAlwaysFalse_not_sound :
    let c := binary .or (binary .and (literal ['0']) (identifier ['a'])) (identifier ['b'])
    let text := "0 && a || b".toList
    let line := Bytes.ofString "int x;"
    c.isWellFormed = true ∧ text.filter (!isBlank ·) = c.spelling ∧ isAlwaysFalse text = true ∧
      c.eval { value := fun _ => 1, isDefined := fun _ => true } = 1 ∧
      blankDeadRegions 1 [Bytes.ofString "#if 0 && a || b", line, Bytes.ofString "#endif"] =
        ([[], [], []], []) := by
  decide +kernel

end BracketLint
