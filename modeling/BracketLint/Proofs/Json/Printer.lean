import BracketLint.Json.Printer
import BracketLint.Proofs.Json.Grammar

/-!
Both printers write values as the grammar has them.
-/

namespace BracketLint.Json

mutual

/-- A value whose decimal numbers are spelled as JSON spells them. -/
def IsProper : Json → Prop
  | decimal spelling => IsDecimal spelling.toList
  | array items => AreProper items
  | object members => AreProperMembers members
  | _ => True

/-- Items that are all proper. -/
def AreProper : List Json → Prop
  | [] => True
  | item :: items => IsProper item ∧ AreProper items

/-- Members with proper values. -/
def AreProperMembers : List (String × Json) → Prop
  | [] => True
  | (_, value) :: members => IsProper value ∧ AreProperMembers members

end

section Strings

theorem fourDigits?_hexDigit :
    ∀ n < 32, fourDigits? '0' '0' (hexDigit (n / 16)) (hexDigit (n % 16)) = some n := by
  decide

theorem writesChar_escapeChar (c : Char) : WritesChar c (escapeChar c) := by
  have character {d letter : Char} (h : (c == d) = true) (hletter : simpleEscape? letter = some d) :
      WritesChar c ['\\', letter] := .short (by rw [hletter, beq_iff_eq.mp h])
  have number {n : Nat} {letter : Char} (h : (c.toNat == n) = true)
      (hletter : simpleEscape? letter = some (Char.ofNat n)) : WritesChar c ['\\', letter] :=
    .short (by rw [hletter, ← beq_iff_eq.mp h, Char.ofNat_toNat])
  unfold escapeChar
  split
  next h => exact number h rfl
  split
  next h => exact character h rfl
  split
  next h => exact number h rfl
  split
  next h => exact number h rfl
  split
  next h => exact character h rfl
  split
  next h => exact character h rfl
  split
  next h => exact character h rfl
  split
  next control =>
    have hdigits := fourDigits?_hexDigit c.toNat control
    have hhigh : isHighSurrogate c.toNat = false := by
      simp only [isHighSurrogate, Bool.and_eq_false_iff, decide_eq_false_iff_not]
      omega
    have hlow : isLowSurrogate c.toNat = false := by
      simp only [isLowSurrogate, Bool.and_eq_false_iff, decide_eq_false_iff_not]
      omega
    have hunit := WritesChar.unit hdigits hhigh hlow
    rwa [Char.ofNat_toNat] at hunit
  next quote backslash _ _ _ _ _ control =>
    exact .plain (by simpa using quote) (by simpa using backslash) (Nat.not_lt.mp control)

theorem writesChars_flatMap : ∀ cs : List Char, WritesChars cs (cs.flatMap escapeChar)
  | [] => .nil
  | c :: cs => .cons (writesChar_escapeChar c) (writesChars_flatMap cs)

theorem writesString_quoted (s : String) : WritesString s (quoted s) :=
  .mk (writesChars_flatMap s.toList)

end Strings

theorem isGap_nil : IsGap [] := by
  rintro _ ⟨⟩

theorem isGap_newLine (level : Nat) : IsGap (newLine level) := by
  intro c hc
  rw [newLine, List.mem_cons, List.mem_replicate] at hc
  rcases hc with rfl | ⟨-, rfl⟩ <;> decide

theorem Writes.append_gap {v : Json} {text gap : List Char} (h : Writes v text)
    (hgap : IsGap gap) : Writes v (gap ++ text) := by
  induction gap with
  | nil => exact h
  | cons c gap ih =>
    obtain ⟨hc, hgap⟩ := List.forall_mem_cons.mp hgap
    exact .blank hc (ih hgap)

theorem writesMember_quoted (name : String) {v : Json} {text front : List Char} (h : Writes v text)
    (before : IsGap front) : WritesMember name v (front ++ (quoted name ++ ':' :: text)) :=
  .mk before (writesString_quoted name) isGap_nil h

mutual

theorem writes_compact : ∀ v : Json, v.IsProper → Writes v (compact v)
  | null, _ => .null
  | bool true, _ => .true
  | bool false, _ => .false
  | integer n, _ => .integer n
  | decimal _, h => .decimal (by simpa only [IsProper] using h)
  | string s, _ => .string (writesString_quoted s)
  | array [], _ => .emptyArray isGap_nil
  | array (item :: items), h =>
    .array (writesItems_compact (item :: items) (by simpa only [IsProper] using h)
      (List.cons_ne_nil item items))
  | object [], _ => .emptyObject isGap_nil
  | object (member :: members), h =>
    .object (writesMembers_compact (member :: members) (by simpa only [IsProper] using h)
      (List.cons_ne_nil member members))

theorem writesItems_compact : ∀ items : List Json, AreProper items → items ≠ [] →
    WritesItems items (compactItems items)
  | [item], h, _ => by
    have hitem := writes_compact item h.1
    simpa only [compactItems, List.append_nil] using WritesItems.last hitem isGap_nil
  | item :: next :: items, h, _ =>
    .cons (writes_compact item h.1) isGap_nil
      (writesItems_compact (next :: items) h.2 (List.cons_ne_nil next items))

theorem writesMembers_compact : ∀ members : List (String × Json), AreProperMembers members →
    members ≠ [] → WritesMembers members (compactMembers members)
  | [(name, value)], h, _ => by
    have hmember := writesMember_quoted name (writes_compact value h.1) isGap_nil
    simpa only [compactMembers, List.nil_append, List.append_nil] using
      WritesMembers.last hmember isGap_nil
  | (name, value) :: next :: members, h, _ => by
    have hmember := writesMember_quoted name (writes_compact value h.1) isGap_nil
    have hothers := writesMembers_compact (next :: members) h.2 (List.cons_ne_nil next members)
    simpa only [compactMembers, List.nil_append, List.append_assoc, List.cons_append] using
      WritesMembers.cons hmember isGap_nil hothers

end

-- A line end and its indent go to the text behind them, and those in front of a closing bracket to
-- the last item or member. So the lists are written between two gaps.
mutual

theorem writes_prettyAt (level : Nat) : ∀ v : Json, v.IsProper → Writes v (prettyAt level v)
  | null, _ => .null
  | bool true, _ => .true
  | bool false, _ => .false
  | integer n, _ => .integer n
  | decimal _, h => .decimal (by simpa only [IsProper] using h)
  | string s, _ => .string (writesString_quoted s)
  | array [], _ => .emptyArray isGap_nil
  | array (item :: items), h => by
    have hitems := writesItems_prettyItems (level + 1) (item :: items)
      (by simpa only [IsProper] using h) (List.cons_ne_nil item items) (isGap_newLine (level + 1))
      (isGap_newLine level)
    simpa only [prettyAt, List.append_assoc] using Writes.array hitems
  | object [], _ => .emptyObject isGap_nil
  | object (member :: members), h => by
    have hmembers := writesMembers_prettyMembers (level + 1) (member :: members)
      (by simpa only [IsProper] using h) (List.cons_ne_nil member members)
      (isGap_newLine (level + 1)) (isGap_newLine level)
    simpa only [prettyAt, List.append_assoc] using Writes.object hmembers

theorem writesItems_prettyItems (level : Nat) : ∀ items : List Json, AreProper items → items ≠ [] →
    ∀ {front behind : List Char}, IsGap front → IsGap behind →
      WritesItems items (front ++ prettyItems level items ++ behind)
  | [item], h, _, _, _, hfront, hbehind =>
    .last ((writes_prettyAt level item h.1).append_gap hfront) hbehind
  | item :: next :: items, h, _, _, _, hfront, hbehind => by
    have hitem := (writes_prettyAt level item h.1).append_gap hfront
    have hothers := writesItems_prettyItems level (next :: items) h.2 (List.cons_ne_nil next items)
      (isGap_newLine level) hbehind
    simpa only [prettyItems, List.nil_append, List.append_assoc, List.cons_append] using
      WritesItems.cons hitem isGap_nil hothers

theorem writesMembers_prettyMembers (level : Nat) : ∀ members : List (String × Json),
    AreProperMembers members → members ≠ [] → ∀ {front behind : List Char}, IsGap front →
      IsGap behind → WritesMembers members (front ++ prettyMembers level members ++ behind)
  | [(name, value)], h, _, _, _, hfront, hbehind => by
    have hvalue := Writes.blank (c := ' ') rfl (writes_prettyAt level value h.1)
    exact .last (writesMember_quoted name hvalue hfront) hbehind
  | (name, value) :: next :: members, h, _, _, _, hfront, hbehind => by
    have hvalue := Writes.blank (c := ' ') rfl (writes_prettyAt level value h.1)
    have hmember := writesMember_quoted name hvalue hfront
    have hothers := writesMembers_prettyMembers level (next :: members) h.2
      (List.cons_ne_nil next members) (isGap_newLine level) hbehind
    simpa only [prettyMembers, List.nil_append, List.append_assoc, List.cons_append] using
      WritesMembers.cons hmember isGap_nil hothers

end

end BracketLint.Json
