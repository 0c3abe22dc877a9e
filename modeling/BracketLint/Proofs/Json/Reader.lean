import BracketLint.Proofs.Json.Grammar
import Mathlib.Data.List.Basic
import Mathlib.Data.List.TakeWhile

/-!
The reader takes every text of the grammar for the value that it writes.
-/

namespace BracketLint.Json

/-- What may stand behind a number: the end, or a character that is no part of one. -/
def EndsNumber (rest : List Char) : Prop :=
  ∀ c ∈ rest.head?, isDigit c = false ∧ c ≠ '.' ∧ c ≠ 'e' ∧ c ≠ 'E'

section Numbers

theorem takeWhile_isDigit {digits rest : List Char} (h : ∀ c ∈ digits, isDigit c = true)
    (hrest : ∀ c ∈ rest.head?, isDigit c = false) :
    (digits ++ rest).takeWhile isDigit = digits ∧ (digits ++ rest).dropWhile isDigit = rest := by
  rw [List.takeWhile_append_of_pos h, List.dropWhile_append_of_pos h]
  cases rest with
  | nil => simp
  | cons c rest => simp [hrest c rfl]

theorem eq_zero_of_head?_toDigits {n : Nat} (h : (Nat.toDigits 10 n).head? = some '0') :
    n = 0 := by
  have hdigit : ∀ d < 10, Nat.digitChar d = '0' → d = 0 := by decide
  induction n using Nat.strongRecOn with
  | ind n ih =>
    rw [Nat.toDigits_eq_if (by decide)] at h
    split at h
    next hlt => exact hdigit n hlt (by simpa using h)
    next hge =>
      have hne : Nat.toDigits 10 (n / 10) ≠ [] := List.length_pos_iff.mp Nat.length_toDigits_pos
      rw [List.head?_append_of_ne_nil _ hne] at h
      have hzero := ih (n / 10) (by omega) h
      omega

theorem isWhole_toDigits (n : Nat) : IsWhole (Nat.toDigits 10 n) where
  nonempty := List.length_pos_iff.mp Nat.length_toDigits_pos
  isDigit c hc := Nat.isDigit_of_mem_toDigits (by decide) (by decide) hc
  leadingZero h := by rw [eq_zero_of_head?_toDigits h]; rfl

theorem naturalOfDigits_toDigits (n : Nat) : naturalOfDigits (Nat.toDigits 10 n) = n := by
  have h : naturalOfDigits (Nat.toDigits 10 n) = Nat.ofDigitChars 10 (Nat.toDigits 10 n) 0 := by
    simp only [naturalOfDigits, Nat.ofDigitChars, Nat.mul_comm]
    rfl
  rw [h, Nat.ofDigitChars_toDigits (by decide) (by decide)]

theorem readFraction_append {fraction rest : List Char} (h : IsFraction fraction)
    (hrest : ∀ c ∈ rest.head?, isDigit c = false ∧ c ≠ '.') :
    readFraction (fraction ++ rest) = some (fraction, rest) := by
  cases h with
  | none =>
    cases rest with
    | nil => rfl
    | cons c rest =>
      obtain ⟨-, hdot⟩ := hrest c rfl
      simp [readFraction, hdot]
  | digits nonempty all =>
    obtain ⟨htake, hdrop⟩ := takeWhile_isDigit all fun c hc => (hrest c hc).1
    simp only [List.cons_append, readFraction, htake, hdrop, List.isEmpty_eq_false_iff.mpr nonempty,
      Bool.false_eq_true, if_false]

theorem readExponent_append {exponent rest : List Char} (h : IsExponent exponent)
    (hrest : EndsNumber rest) : readExponent (exponent ++ rest) = some (exponent, rest) := by
  cases h with
  | none =>
    cases rest with
    | nil => rfl
    | cons c rest =>
      obtain ⟨-, -, he, hE⟩ := hrest c rfl
      simp [readExponent, he, hE]
  | @digits letter sign digits isLetter isSign nonempty all =>
    obtain ⟨htake, hdrop⟩ := takeWhile_isDigit all fun c hc => (hrest c hc).1
    have hletter : (letter == 'e' || letter == 'E') = true := by simpa using isLetter
    simp only [List.cons_append, readExponent, hletter, if_true]
    rcases isSign with rfl | rfl | rfl
    · -- Without a sign the exponent goes on with a digit, which is no sign.
      have hfirst : ∀ c ∈ (digits ++ rest).head?, isDigit c = true := by
        rw [List.head?_append_of_ne_nil _ nonempty]
        exact fun c hc => all c (List.mem_of_mem_head? hc)
      split
      next heq => exact absurd (hfirst '+' (by simp_all)) (by decide)
      next heq => exact absurd (hfirst '-' (by simp_all)) (by decide)
      next => simp [htake, hdrop, nonempty]
    · simp [htake, hdrop, nonempty]
    · simp [htake, hdrop, nonempty]

theorem IsExponent.head?_append {exponent rest : List Char} (h : IsExponent exponent)
    (hrest : EndsNumber rest) :
    ∀ c ∈ (exponent ++ rest).head?, isDigit c = false ∧ c ≠ '.' := by
  cases h with
  | none => exact fun c hc => ⟨(hrest c hc).1, (hrest c hc).2.1⟩
  | digits isLetter =>
    rintro c ⟨⟩
    rcases isLetter with rfl | rfl <;> decide

theorem IsFraction.head?_append {fraction rest : List Char} (h : IsFraction fraction)
    (hrest : ∀ c ∈ rest.head?, isDigit c = false) :
    ∀ c ∈ (fraction ++ rest).head?, isDigit c = false := by
  cases h with
  | none => exact hrest
  | digits =>
    rintro c ⟨⟩
    decide

/-- A number that is read behind its sign. -/
def numberOf (negative : Bool) (digits fraction exponent : List Char) : Json :=
  let value := naturalOfDigits digits
  if fraction.isEmpty && exponent.isEmpty && !(negative && value == 0) then
    integer (if negative then -(value : Int) else value)
  else decimal (String.ofList (minus negative ++ digits ++ fraction ++ exponent))

theorem readNumber_append {digits fraction exponent rest : List Char} (negative : Bool)
    (whole : IsWhole digits) (hfraction : IsFraction fraction) (hexponent : IsExponent exponent)
    (hrest : EndsNumber rest) :
    readNumber negative (digits ++ (fraction ++ (exponent ++ rest))) =
      some (numberOf negative digits fraction exponent, rest) := by
  have hexp := hexponent.head?_append hrest
  obtain ⟨htake, hdrop⟩ := takeWhile_isDigit whole.isDigit
    (hfraction.head?_append fun c hc => (hexp c hc).1)
  have hzero : (digits.isEmpty || (digits.head? == some '0' && digits.length != 1)) = false := by
    simpa [whole.nonempty] using whole.leadingZero
  simp only [readNumber, htake, hdrop, hzero, readFraction_append hfraction hexp,
    readExponent_append hexponent hrest, numberOf, Bool.false_eq_true, if_false,
    Option.bind_eq_bind, Option.bind_some]
  split <;> rfl

end Numbers

section Strings

theorem readString_append_char {c : Char} {spelling : List Char} (h : WritesChar c spelling)
    (read text : List Char) : readString read (spelling ++ text) = readString (c :: read) text := by
  cases h with
  | plain quote backslash control =>
    have hquote : (c.toNat == 34) = false := by simpa using quote
    rw [List.singleton_append, readString.eq_def]
    simp only [hquote, Nat.not_lt.mpr control, if_false, Bool.false_eq_true, bne_iff_ne, ne_eq,
      backslash, not_false_eq_true, if_true]
  | @short _ letter escape =>
    have hletter : letter ≠ 'u' := by
      rintro rfl
      cases escape
    simp [readString, escape, hletter]
  | unit digits high low =>
    simp [readString, digits, high, low]
  | pair first second isHigh isLow =>
    simp [readString, first, second, isHigh, isLow]

theorem readString_append {cs text : List Char} (h : WritesChars cs text) (read rest : List Char) :
    readString read (text ++ '\x22' :: rest) = some (String.ofList (read.reverse ++ cs), rest) := by
  induction h generalizing read with
  | nil => simp [readString.eq_def]
  | cons first others ih =>
    rw [List.append_assoc, readString_append_char first, ih]
    simp

theorem readString_quoted {s : String} {text : List Char} (h : WritesChars s.toList text)
    (rest : List Char) : readString [] (text ++ '\x22' :: rest) = some (s, rest) := by
  rw [readString_append h, List.reverse_nil, List.nil_append, String.ofList_toList]

end Strings

section Gaps

theorem skipSpace_append {gap : List Char} (h : IsGap gap) (rest : List Char) :
    skipSpace (gap ++ rest) = skipSpace rest :=
  List.dropWhile_append_of_pos h

theorem skipSpace_cons {c : Char} (h : isSpace c = false) (rest : List Char) :
    skipSpace (c :: rest) = c :: rest := by
  simp [skipSpace, h]

theorem skipSpace_append_cons {gap : List Char} {c : Char} (h : IsGap gap) (hc : isSpace c = false)
    (rest : List Char) : skipSpace (gap ++ c :: rest) = c :: rest := by
  rw [skipSpace_append h, skipSpace_cons hc]

theorem endsNumber_cons {c : Char} (h : isDigit c = false ∧ c ≠ '.' ∧ c ≠ 'e' ∧ c ≠ 'E')
    (rest : List Char) : EndsNumber (c :: rest) := by
  rintro _ ⟨⟩
  exact h

theorem endsNumber_append {gap rest : List Char} (h : IsGap gap) (hrest : EndsNumber rest) :
    EndsNumber (gap ++ rest) := by
  cases gap with
  | nil => exact hrest
  | cons c gap =>
    have hspace := h c List.mem_cons_self
    simp only [isSpace, Bool.or_eq_true, beq_iff_eq] at hspace
    apply endsNumber_cons
    rcases hspace with ((rfl | rfl) | rfl) | rfl <;> decide

end Gaps

section Values

theorem readValue_blank {c : Char} (h : isSpace c = true) (fuel : Nat) (cs : List Char) :
    readValue fuel (c :: cs) = readValue fuel cs := by
  cases fuel with
  | zero => rfl
  | succ fuel => simp only [readValue, skipSpace, List.dropWhile_cons_of_pos h]

theorem not_isSpace_of_isDigit {c : Char} (h : isDigit c = true) : isSpace c = false := by
  simp only [isSpace, Bool.or_eq_false_iff, beq_eq_false_iff_ne]
  refine ⟨⟨⟨?_, ?_⟩, ?_⟩, ?_⟩ <;>
    · rintro rfl
      exact absurd h (by decide)

theorem readValue_digit {c : Char} (h : isDigit c = true) (fuel : Nat) (rest : List Char) :
    readValue (fuel + 1) (c :: rest) = readNumber false (c :: rest) := by
  have hne : ∀ d, isDigit d = false → c ≠ d := by
    rintro d hd rfl
    exact absurd h (by simp [hd])
  have hquote : c.toNat ≠ 34 := by
    intro heq
    exact hne '\x22' (by decide) (Char.toNat_inj.mp heq)
  simp only [readValue, skipSpace_cons (not_isSpace_of_isDigit h), beq_iff_eq, hquote, h,
    hne 'n' (by decide), hne 't' (by decide), hne 'f' (by decide), hne '-' (by decide), if_false,
    if_true]

theorem readValue_number {digits : List Char} (negative : Bool) (h : IsWhole digits) (fuel : Nat)
    (rest : List Char) :
    readValue (fuel + 1) (minus negative ++ (digits ++ rest)) =
      readNumber negative (digits ++ rest) := by
  cases negative with
  | true => rfl
  | false =>
    obtain ⟨c, digits, rfl⟩ := List.exists_cons_of_ne_nil h.nonempty
    exact readValue_digit (h.isDigit c List.mem_cons_self) fuel (digits ++ rest)

theorem toList_toString (n : Int) :
    (toString n).toList = minus (decide (n < 0)) ++ Nat.toDigits 10 n.natAbs := by
  cases n with
  | ofNat n => exact Nat.toList_repr
  | negSucc n =>
    have hneg : decide (Int.negSucc n < 0) = true := by simp [Int.negSucc_lt_zero]
    rw [Int.toString_eq_repr, hneg, Int.repr, String.toList_append, Nat.toList_repr]
    rfl

theorem numberOf_toDigits (n : Int) :
    numberOf (decide (n < 0)) (Nat.toDigits 10 n.natAbs) [] [] = integer n := by
  have hproper : (decide (n < 0) && n.natAbs == 0) = false := by
    rw [Bool.and_eq_false_iff, decide_eq_false_iff_not, beq_eq_false_iff_ne]
    omega
  simp only [numberOf, naturalOfDigits_toDigits, hproper]
  simp only [List.isEmpty_nil, Bool.not_false, Bool.and_self, if_true, decide_eq_true_eq]
  split <;> congr <;> omega

theorem numberOf_eq_decimal {negative : Bool} {digits fraction exponent : List Char}
    (h : fraction ≠ [] ∨ exponent ≠ []) :
    numberOf negative digits fraction exponent =
      decimal (String.ofList (minus negative ++ digits ++ fraction ++ exponent)) := by
  simp only [numberOf]
  rw [if_neg]
  rcases h with h | h <;> simp [h]

theorem head?_of_readValue {fuel : Nat} {cs : List Char} {r : Json × List Char}
    (h : readValue fuel cs = some r) : (skipSpace cs).head? ≠ some ']' := by
  intro hhead
  obtain ⟨rest, hrest⟩ := List.head?_eq_some_iff.mp hhead
  cases fuel with
  | zero => cases h
  | succ fuel => simp [readValue, hrest, isDigit] at h

theorem readValue_bracket (fuel : Nat) (cs : List Char) :
    readValue (fuel + 1) ('[' :: cs) =
      match skipSpace cs with
      | ']' :: rest => some (array [], rest)
      | _ => (readItems fuel cs).map fun r => (array r.1, r.2) :=
  rfl

theorem readValue_brace (fuel : Nat) (cs : List Char) :
    readValue (fuel + 1) ('\x7b' :: cs) =
      match skipSpace cs with
      | '\x7d' :: rest => some (object [], rest)
      | _ => (readMembers fuel cs).map fun r => (object r.1, r.2) :=
  rfl

theorem readValue_array {fuel : Nat} {cs rest : List Char} {items : List Json}
    (h : readItems fuel cs = some (items, rest)) :
    readValue (fuel + 1) ('[' :: cs) = some (array items, rest) := by
  -- An array with an item does not start with its closing bracket, for no item does.
  have hhead : (skipSpace cs).head? ≠ some ']' := by
    cases fuel with
    | zero => cases h
    | succ fuel =>
      cases hvalue : readValue fuel cs with
      | none => simp [readItems, hvalue] at h
      | some r => exact head?_of_readValue hvalue
  rw [readValue_bracket]
  split
  next heq => simp [heq] at hhead
  next => rw [h]; rfl

theorem readValue_object {fuel : Nat} {cs rest : List Char} {members : List (String × Json)}
    (h : readMembers fuel cs = some (members, rest)) :
    readValue (fuel + 1) ('\x7b' :: cs) = some (object members, rest) := by
  rw [readValue_brace]
  split
  next rest heq =>
    cases fuel with
    | zero => cases h
    | succ fuel => simp [readMembers, heq] at h
  next => rw [h]; rfl

theorem readMembers_append_member {name : String} {v : Json} {front quoted gap text : List Char}
    (before : IsGap front) (written : WritesString name quoted) (between : IsGap gap) {fuel : Nat}
    {rest : List Char} (h : readValue fuel (text ++ rest) = some (v, rest)) :
    readMembers (fuel + 1) (front ++ (quoted ++ (gap ++ ':' :: text)) ++ rest) =
      match skipSpace rest with
      | ',' :: rest₁ => (readMembers fuel rest₁).map fun r => ((name, v) :: r.1, r.2)
      | '\x7d' :: rest₁ => some ([(name, v)], rest₁)
      | _ => none := by
  obtain ⟨chars⟩ := written
  have hname := readString_quoted chars (gap ++ ':' :: (text ++ rest))
  simp only [List.append_assoc, List.cons_append, List.nil_append, readMembers,
    skipSpace_append before, skipSpace_cons (c := '\x22') (by decide), hname,
    skipSpace_append_cons between (c := ':') (by decide), h]
  rfl

theorem readValue_integer (n : Int) (fuel : Nat) {rest : List Char} (hrest : EndsNumber rest) :
    readValue (fuel + 1) ((toString n).toList ++ rest) = some (integer n, rest) := by
  have hwhole := isWhole_toDigits n.natAbs
  have hnumber := readNumber_append (decide (n < 0)) hwhole .none .none hrest
  rw [toList_toString, List.append_assoc, readValue_number _ hwhole]
  rwa [numberOf_toDigits] at hnumber

theorem readValue_decimal {spelling : List Char} (h : IsDecimal spelling) (fuel : Nat)
    {rest : List Char} (hrest : EndsNumber rest) :
    readValue (fuel + 1) (spelling ++ rest) = some (decimal (String.ofList spelling), rest) := by
  cases h with
  | fraction negative whole hasFraction hasExponent proper =>
    have hnumber := readNumber_append negative whole hasFraction hasExponent hrest
    rw [numberOf_eq_decimal proper] at hnumber
    simpa only [List.append_assoc, readValue_number negative whole] using hnumber
  | minusZero =>
    have hzero : IsWhole ['0'] :=
      ⟨List.cons_ne_nil _ _, List.forall_mem_singleton.mpr rfl, fun _ => rfl⟩
    exact readNumber_append true hzero .none .none hrest

theorem readValue_string {s : String} {text : List Char} (h : WritesString s text) (fuel : Nat)
    (rest : List Char) : readValue (fuel + 1) (text ++ rest) = some (string s, rest) := by
  obtain ⟨chars⟩ := h
  rw [List.cons_append, List.append_assoc]
  exact congrArg (Option.map fun r => (string r.1, r.2)) (readString_quoted chars rest)

theorem IsDecimal.length_pos {spelling : List Char} (h : IsDecimal spelling) :
    0 < spelling.length := by
  cases h with
  | fraction negative whole =>
    have hpos := List.length_pos_iff.mpr whole.nonempty
    simp only [List.length_append]
    omega
  | minusZero => decide

theorem Writes.length_pos {v : Json} {text : List Char} (h : Writes v text) : 0 < text.length := by
  cases h with
  | integer n =>
    rw [toList_toString, List.length_append]
    exact Nat.add_pos_right _ Nat.length_toDigits_pos
  | decimal isDecimal => exact isDecimal.length_pos
  | string quoted =>
    obtain ⟨chars⟩ := quoted
    exact Nat.succ_pos _
  | null | true | false => decide
  | blank | emptyArray | array | emptyObject | object => exact Nat.succ_pos _

end Values

-- The induction is on the grammar. A nested value is shorter than the text around it, so a fuel of
-- the length of a text is enough for all that it holds.
mutual

theorem Writes.readValue_append {v : Json} {text : List Char} : Writes v text →
    ∀ (fuel : Nat) (rest : List Char), text.length ≤ fuel → EndsNumber rest →
      readValue fuel (text ++ rest) = some (v, rest)
  | h, 0, _, hfuel, _ => absurd hfuel (Nat.not_le.mpr h.length_pos)
  | .blank space value, fuel + 1, rest, hfuel, hrest => by
    rw [List.cons_append, readValue_blank space]
    exact value.readValue_append (fuel + 1) rest (Nat.le_of_succ_le hfuel) hrest
  | .null, _ + 1, _, _, _ => rfl
  | .true, _ + 1, _, _, _ => rfl
  | .false, _ + 1, _, _, _ => rfl
  | .integer n, fuel + 1, _, _, hrest => readValue_integer n fuel hrest
  | .decimal isDecimal, fuel + 1, _, _, hrest => by
    rw [readValue_decimal isDecimal fuel hrest, String.ofList_toList]
  | .string quoted, fuel + 1, rest, _, _ => readValue_string quoted fuel rest
  | .emptyArray isGap, fuel + 1, rest, _, _ => by
    rw [List.cons_append, List.append_assoc, List.singleton_append, readValue_bracket,
      skipSpace_append_cons isGap (by decide)]
    rfl
  | .array written, fuel + 1, rest, hfuel, _ => by
    rw [List.cons_append, List.append_assoc]
    exact readValue_array (written.readItems_append fuel rest (by simpa using hfuel))
  | .emptyObject isGap, fuel + 1, rest, _, _ => by
    rw [List.cons_append, List.append_assoc, List.singleton_append, readValue_brace,
      skipSpace_append_cons isGap (by decide)]
    rfl
  | .object written, fuel + 1, rest, hfuel, _ => by
    rw [List.cons_append, List.append_assoc]
    exact readValue_object (written.readMembers_append fuel rest (by simpa using hfuel))

theorem WritesItems.readItems_append {items : List Json} {text : List Char} :
    WritesItems items text → ∀ (fuel : Nat) (rest : List Char), text.length + 1 ≤ fuel →
      readItems fuel (text ++ ']' :: rest) = some (items, rest)
  | .last value behind, fuel + 1, rest, hfuel => by
    rw [List.length_append] at hfuel
    have hitem := value.readValue_append fuel _ (by omega)
      (endsNumber_append behind (endsNumber_cons (c := ']') (by decide) rest))
    rw [List.append_assoc, readItems, hitem]
    simp only [skipSpace_append_cons behind (c := ']') (by decide)]
  | @WritesItems.cons _ _ _ _ others value behind written, fuel + 1, rest, hfuel => by
    simp only [List.length_append, List.length_cons] at hfuel
    have hpos := value.length_pos
    have hitem := value.readValue_append fuel _ (by omega)
      (endsNumber_append behind (endsNumber_cons (c := ',') (by decide) (others ++ ']' :: rest)))
    have hothers := written.readItems_append fuel rest (by omega)
    rw [List.append_assoc, List.append_assoc, List.cons_append, readItems, hitem]
    simp only [skipSpace_append_cons behind (c := ',') (by decide), hothers, Option.map_some]

theorem WritesMembers.readMembers_append {members : List (String × Json)} {text : List Char} :
    WritesMembers members text → ∀ (fuel : Nat) (rest : List Char), text.length + 1 ≤ fuel →
      readMembers fuel (text ++ '\x7d' :: rest) = some (members, rest)
  | @WritesMembers.last _ _ _ gap (.mk before quoted between value) behind, fuel + 1, rest,
      hfuel => by
    simp only [List.length_append, List.length_cons] at hfuel
    have hvalue := value.readValue_append fuel _ (by omega)
      (endsNumber_append behind (endsNumber_cons (c := '\x7d') (by decide) rest))
    rw [List.append_assoc _ gap, readMembers_append_member before quoted between hvalue]
    simp only [skipSpace_append_cons behind (c := '\x7d') (by decide)]
  | @WritesMembers.cons _ _ _ _ gap others (.mk before quoted between value) behind written,
      fuel + 1, rest, hfuel => by
    simp only [List.length_append, List.length_cons] at hfuel
    have hvalue := value.readValue_append fuel _ (by omega)
      (endsNumber_append behind (endsNumber_cons (c := ',') (by decide) (others ++ '\x7d' :: rest)))
    have hothers := written.readMembers_append fuel rest (by omega)
    rw [List.append_assoc _ _ ('\x7d' :: rest), List.append_assoc gap, List.cons_append,
      readMembers_append_member before quoted between hvalue]
    simp only [skipSpace_append_cons behind (c := ',') (by decide), hothers, Option.map_some]

end

/-- The reader takes every text of a value, blanks behind it included, for that value. -/
theorem read?_of_writes {v : Json} {text gap : List Char} (h : Writes v text) (behind : IsGap gap) :
    read? (text ++ gap) = some v := by
  have hend : EndsNumber (gap ++ []) := endsNumber_append behind (by rintro _ ⟨⟩)
  have hskip : skipSpace (gap ++ []) = [] := skipSpace_append behind []
  rw [List.append_nil] at hend hskip
  have hvalue := h.readValue_append (2 * (text ++ gap).length + 2) gap
    (by rw [List.length_append]; omega) hend
  rw [read?, hvalue]
  simp only [hskip, List.isEmpty_nil, if_true]

end BracketLint.Json
