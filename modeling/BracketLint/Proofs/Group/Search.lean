import Mathlib.Data.List.Basic
import BracketLint.Group.Forest

/-!
The search for the end of a group as a set of rules. Each rule says what one kind of bracket does to
the group that is open; all facts about the search are inductions over the rules. The brackets that
the groups found stand at are among the brackets searched, no group lies too deep, and a search that
reports nothing has left out no bracket.
-/

namespace BracketLint.Forest

/-- How the search for the end of a group ends, whatever list it started with. -/
inductive Ending
  /-- The group closes at a position, with some groups inside it and `rest` behind it. -/
  | closed (place : Place) (inside : Forest) (rest : List Bracket)
  /-- The parentheses open break at a closing brace, and `rest` lies behind that brace. -/
  | crossed (place : Place) (rest : List Bracket)
  /-- The matching of the whole file stops. -/
  | unfinished

/-- Puts a group in front of those inside the group whose end was searched. -/
def Ending.addGroup (shape : Shape) (opened closedAt : Place) (inner : Forest) : Ending → Ending
  | closed place inside rest => closed place (group shape opened closedAt inner inside) rest
  | crossed place rest => crossed place rest
  | unfinished => unfinished

/-- An outcome without the bound on what is left. -/
def Outcome.ending {n : Nat} : Outcome n → Ending
  | closed place inside rest _ => .closed place inside rest
  | crossed place rest _ => .crossed place rest
  | unfinished => .unfinished

@[simp] theorem Outcome.ending_relax {m n : Nat} (h : m ≤ n) (outcome : Outcome m) :
    (outcome.relax h).ending = outcome.ending := by
  cases outcome <;> rfl

@[simp] theorem Outcome.ending_addGroup {n : Nat} (shape : Shape) (opened closedAt : Place)
    (inner : Forest) (outcome : Outcome n) :
    (outcome.addGroup shape opened closedAt inner).ending =
      outcome.ending.addGroup shape opened closedAt inner := by
  cases outcome <;> rfl

/-- The rules of the search for the end of a group, with `depth` groups open: its ending in a list
of brackets, and what is reported on the way. -/
inductive Finds :
    (depth : Nat) → Shape → (opened : Place) → List Bracket → Ending → List Diagnostic → Prop
  /-- At the end of the file the innermost group is reported. -/
  | runsOut {depth shape opened} :
    Finds depth shape opened [] .unfinished [⟨opened, .unclosed shape⟩]
  /-- A closing bracket of the same shape closes the group. -/
  | closes {depth shape opened place rest} :
    Finds depth shape opened (⟨place, shape, true⟩ :: rest) (.closed place .empty rest) []
  /-- A closing brace breaks a parenthesis. -/
  | crosses {depth opened place rest} :
    Finds depth .paren opened (⟨place, .brace, true⟩ :: rest) (.crossed place rest)
      [⟨place, .braceClosesParen opened⟩]
  /-- A closing parenthesis in a brace is passed over. -/
  | passes {depth opened place rest ending found} :
    Finds depth .brace opened rest ending found →
    Finds depth .brace opened (⟨place, .paren, true⟩ :: rest) ending
      (⟨place, .parenInBrace opened⟩ :: found)
  /-- An opening bracket beyond the limit stops the matching. -/
  | tooDeep {depth shape opened place inner rest} :
    nestingLimit ≤ depth →
    Finds depth shape opened (⟨place, inner, false⟩ :: rest) .unfinished
      [⟨place, .tooDeep nestingLimit⟩]
  /-- The search goes on behind an inner group that closes. -/
  | nests {depth shape opened place inner rest closedAt inside rest₁ ending found found₁} :
    depth < nestingLimit →
    Finds (depth + 1) inner place rest (.closed closedAt inside rest₁) found →
    Finds depth shape opened rest₁ ending found₁ →
    Finds depth shape opened (⟨place, inner, false⟩ :: rest)
      (ending.addGroup inner place closedAt inside) (found ++ found₁)
  /-- A parenthesis breaks with the one inside it. -/
  | breaks {depth opened place inner rest closedAt rest₁ found} :
    depth < nestingLimit →
    Finds (depth + 1) inner place rest (.crossed closedAt rest₁) found →
    Finds depth .paren opened (⟨place, inner, false⟩ :: rest) (.crossed closedAt rest₁) found
  /-- A brace closes where the parentheses inside it break. -/
  | absorbs {depth opened place inner rest closedAt rest₁ found} :
    depth < nestingLimit →
    Finds (depth + 1) inner place rest (.crossed closedAt rest₁) found →
    Finds depth .brace opened (⟨place, inner, false⟩ :: rest) (.closed closedAt .empty rest₁) found
  /-- A group is unfinished with the one inside it. -/
  | stops {depth shape opened place inner rest found} :
    depth < nestingLimit →
    Finds (depth + 1) inner place rest .unfinished found →
    Finds depth shape opened (⟨place, inner, false⟩ :: rest) .unfinished found

theorem exists_closer {b : Bracket} (h : b.closes = true) :
    ∃ place shape, b = ⟨place, shape, true⟩ :=
  ⟨b.place, b.shape, by rw [← h]⟩

theorem exists_opener {b : Bracket} (h : ¬b.closes = true) :
    ∃ place shape, b = ⟨place, shape, false⟩ :=
  ⟨b.place, b.shape, by rw [← (Bool.not_eq_true _).mp h]⟩

/-- The search follows its rules. -/
theorem finds_search (depth : Nat) (shape : Shape) (opened : Place) (brackets : List Bracket) :
    Finds depth shape opened brackets (search depth shape opened brackets).1.ending
      (search depth shape opened brackets).2 := by
  fun_induction search depth shape opened brackets with
  | case1 depth shape opened => exact .runsOut
  | case2 depth opened b rest hc =>
    obtain ⟨place, shape, rfl⟩ := exists_closer hc
    exact .closes
  | case3 depth opened b rest hc hs =>
    obtain ⟨place, shape, rfl⟩ := exists_closer hc
    cases shape with
    | paren => exact absurd rfl hs
    | brace => exact .crosses
  | case4 depth opened b rest hc outcome found hx hs ih =>
    obtain ⟨place, shape, rfl⟩ := exists_closer hc
    rw [hx] at ih
    cases shape with
    | paren => simpa using Finds.passes ih
    | brace => exact absurd rfl hs
  | case5 depth shape opened b rest hc hd =>
    obtain ⟨place, inner, rfl⟩ := exists_opener hc
    exact .tooDeep hd
  | case6 depth shape opened b rest hc hd closedAt inside rest₁ shorter found hx outcome found₁ hx₁
      ih ih₁ =>
    obtain ⟨place, inner, rfl⟩ := exists_opener hc
    rw [hx] at ih
    rw [hx₁] at ih₁
    simpa using Finds.nests (Nat.lt_of_not_le hd) ih ih₁
  | case7 depth opened b rest hc hd closedAt rest₁ shorter found hx ih =>
    obtain ⟨place, inner, rfl⟩ := exists_opener hc
    rw [hx] at ih
    exact .breaks (Nat.lt_of_not_le hd) ih
  | case8 depth opened b rest hc hd closedAt rest₁ shorter found hx ih =>
    obtain ⟨place, inner, rfl⟩ := exists_opener hc
    rw [hx] at ih
    exact .absorbs (Nat.lt_of_not_le hd) ih
  | case9 depth shape opened b rest hc hd found hx ih =>
    obtain ⟨place, inner, rfl⟩ := exists_opener hc
    rw [hx] at ih
    exact .stops (Nat.lt_of_not_le hd) ih

theorem finds_of_search {depth : Nat} {shape : Shape} {opened : Place} {brackets : List Bracket}
    {outcome : Outcome brackets.length} {found : List Diagnostic}
    (h : search depth shape opened brackets = (outcome, found)) :
    Finds depth shape opened brackets outcome.ending found := by
  have hf := finds_search depth shape opened brackets
  rwa [h] at hf

/-- The brackets of some groups, in the order in which they stand. -/
def word : Forest → List Bracket
  | empty => []
  | group shape opened closed inside behind =>
    ⟨opened, shape, false⟩ :: (inside.word ++ ⟨closed, shape, true⟩ :: behind.word)

/-- The deepest nesting among some groups. -/
def height : Forest → Nat
  | empty => 0
  | group _ _ _ inside behind => max (inside.height + 1) behind.height

/-- The brackets that an ending of a group of some shape keeps: those of the groups inside, the one
that closes the group, and those behind it. -/
def Ending.kept (shape : Shape) : Ending → List Bracket
  | closed place inside rest => inside.word ++ ⟨place, shape, true⟩ :: rest
  | crossed place rest => ⟨place, .brace, true⟩ :: rest
  | unfinished => []

/-- The deepest nesting inside the group that was closed. -/
def Ending.height : Ending → Nat
  | closed _ inside _ => inside.height
  | _ => 0

theorem Ending.kept_addGroup_sublist (shape inner : Shape) (opened closedAt : Place)
    (inside : Forest) (ending : Ending) :
    List.Sublist ((ending.addGroup inner opened closedAt inside).kept shape)
      (⟨opened, inner, false⟩ ::
        (inside.word ++ ⟨closedAt, inner, true⟩ :: ending.kept shape)) := by
  cases ending with
  | closed place inside₁ rest => simp [addGroup, kept, word]
  | crossed place rest =>
    refine List.Sublist.cons _ (List.Sublist.trans ?_ (List.sublist_append_right _ _))
    exact List.sublist_cons_self _ _
  | unfinished => exact List.nil_sublist _

/-- A search keeps brackets of its list only, in their order. -/
theorem Finds.kept_sublist {depth : Nat} {shape : Shape} {opened : Place}
    {brackets : List Bracket} {ending : Ending} {found : List Diagnostic}
    (h : Finds depth shape opened brackets ending found) :
    List.Sublist (ending.kept shape) brackets := by
  induction h with
  | runsOut => exact List.Sublist.refl _
  | closes => exact List.Sublist.refl _
  | crosses => exact List.Sublist.refl _
  | passes _ ih => exact List.Sublist.cons _ ih
  | tooDeep _ => exact List.nil_sublist _
  | nests _ _ _ ih ih₁ =>
    refine (Ending.kept_addGroup_sublist _ _ _ _ _ _).trans (List.Sublist.cons_cons _ ?_)
    refine List.Sublist.trans ?_ ih
    exact (List.Sublist.refl _).append (List.Sublist.cons_cons _ ih₁)
  | breaks _ _ ih => exact List.Sublist.cons _ ih
  | absorbs _ _ ih => exact List.Sublist.cons _ ih
  | stops _ _ _ => exact List.nil_sublist _

theorem Finds.height_le {depth : Nat} {shape : Shape} {opened : Place}
    {brackets : List Bracket} {ending : Ending} {found : List Diagnostic}
    (h : Finds depth shape opened brackets ending found) (hd : depth ≤ nestingLimit) :
    ending.height + depth ≤ nestingLimit := by
  induction h with
  | nests hlt _ _ ih ih₁ =>
    rename_i ending _ _ _ _
    have hi := ih (by omega)
    have hb := ih₁ hd
    cases ending with
    | closed place inside₁ rest =>
      simp only [Ending.addGroup, Ending.height, Forest.height] at *
      omega
    | crossed place rest => simpa [Ending.addGroup, Ending.height] using hd
    | unfinished => simpa [Ending.addGroup, Ending.height] using hd
  | passes _ ih => exact ih hd
  | _ => simpa [Ending.height, Forest.height] using hd

/-- A search that reports nothing closes its group and leaves out no bracket. -/
theorem Finds.closed_of_found_eq_nil {depth : Nat} {shape : Shape} {opened : Place}
    {brackets : List Bracket} {ending : Ending} {found : List Diagnostic}
    (h : Finds depth shape opened brackets ending found) (hn : found = []) :
    (∃ place inside rest, ending = .closed place inside rest) ∧ ending.kept shape = brackets := by
  induction h with
  | closes => exact ⟨⟨_, _, _, rfl⟩, rfl⟩
  | nests _ _ _ ih ih₁ =>
    obtain ⟨h1, h2⟩ := List.append_eq_nil_iff.mp hn
    obtain ⟨-, hw⟩ := ih h1
    obtain ⟨⟨place, inside, rest, rfl⟩, hw₁⟩ := ih₁ h2
    refine ⟨⟨_, _, _, rfl⟩, ?_⟩
    rw [← hw, ← hw₁]
    simp [Ending.addGroup, Ending.kept, word]
  | breaks _ _ ih =>
    obtain ⟨⟨_, _, _, he⟩, -⟩ := ih hn
    cases he
  | absorbs _ _ ih =>
    obtain ⟨⟨_, _, _, he⟩, -⟩ := ih hn
    cases he
  | stops _ _ ih =>
    obtain ⟨⟨_, _, _, he⟩, -⟩ := ih hn
    cases he
  | _ => cases hn

/-- Behind some groups that are not too deep, the search closes its group and reports nothing. -/
theorem search_word (groups : Forest) :
    ∀ (depth : Nat) (shape : Shape) (opened closedAt : Place) (rest : List Bracket),
      groups.height + depth ≤ nestingLimit →
      ∃ shorter, search depth shape opened (groups.word ++ ⟨closedAt, shape, true⟩ :: rest) =
        (.closed closedAt groups rest shorter, []) := by
  induction groups with
  | empty =>
    intro depth shape opened closedAt rest _
    refine ⟨Nat.lt_succ_self _, ?_⟩
    change search depth shape opened (⟨closedAt, shape, true⟩ :: rest) = _
    rw [search.eq_def]
    simp only [if_true]
    rfl
  | group inner place placeClosed inside behind ih ih₁ =>
    intro depth shape opened closedAt rest hd
    rw [height] at hd
    -- The inner group closes first; the search then goes on over the groups behind it.
    obtain ⟨h, hs⟩ := ih (depth + 1) inner place placeClosed
      (behind.word ++ ⟨closedAt, shape, true⟩ :: rest) (by omega)
    obtain ⟨h₁, hs₁⟩ := ih₁ depth shape opened closedAt rest (by omega)
    have hlt : ¬nestingLimit ≤ depth := by omega
    rw [word, List.cons_append, List.append_assoc, List.cons_append]
    refine ⟨by simp; omega, ?_⟩
    rw [search.eq_def]
    simp only [Bool.false_eq_true, if_false, if_neg hlt, hs, hs₁]
    rfl

/-- The groups of a file stand at brackets of the file, in their order. -/
theorem word_ofBrackets_sublist (brackets : List Bracket) :
    List.Sublist (ofBrackets brackets).groups.word brackets := by
  fun_induction ofBrackets brackets with
  | case1 => exact List.Sublist.refl _
  | case2 b rest _ _ ih => exact List.Sublist.cons _ ih
  | case3 b rest hc closedAt inside rest₁ shorter found hs behind ih =>
    have hkept := (finds_of_search hs).kept_sublist
    obtain ⟨place, shape, rfl⟩ := exists_opener hc
    refine List.Sublist.cons_cons _ (List.Sublist.trans ?_ hkept)
    exact (List.Sublist.refl _).append (List.Sublist.cons_cons _ ih)
  | case4 b rest _ _ rest₁ _ found hs _ ih =>
    have hkept := (finds_of_search hs).kept_sublist
    exact ih.trans ((List.sublist_cons_self _ _).trans (hkept.cons _))
  | case5 b rest _ found hs => exact List.nil_sublist _

/-- No group of a file lies deeper than the limit. -/
theorem height_ofBrackets_le (brackets : List Bracket) :
    (ofBrackets brackets).groups.height ≤ nestingLimit := by
  fun_induction ofBrackets brackets with
  | case1 => exact Nat.zero_le _
  | case2 b rest _ _ ih => exact ih
  | case3 b rest _ closedAt inside rest₁ _ found hs _ ih =>
    have hin : inside.height + 1 ≤ nestingLimit := (finds_of_search hs).height_le (by decide)
    exact Nat.max_le.mpr ⟨hin, ih⟩
  | case4 b rest _ _ rest₁ _ found hs _ ih => exact ih
  | case5 b rest _ found hs => exact Nat.zero_le _

/-- A matching that reports nothing has left out no bracket and has come to the end of the file. -/
theorem word_ofBrackets_of_diagnostics_eq_nil (brackets : List Bracket)
    (h : (ofBrackets brackets).diagnostics = []) :
    (ofBrackets brackets).groups.word = brackets ∧ (ofBrackets brackets).earlyEnd = false := by
  fun_induction ofBrackets brackets with
  | case1 => exact ⟨rfl, rfl⟩
  | case2 b rest _ _ ih => simp at h
  | case3 b rest hc closedAt inside rest₁ _ found hs behind ih =>
    obtain ⟨hf, hd⟩ := List.append_eq_nil_iff.mp h
    obtain ⟨-, hkept⟩ := (finds_of_search hs).closed_of_found_eq_nil hf
    obtain ⟨hw, he⟩ := ih hd
    obtain ⟨place, shape, rfl⟩ := exists_opener hc
    refine ⟨?_, he⟩
    rw [word, hw]
    exact congrArg (_ :: ·) hkept
  | case4 b rest _ _ rest₁ _ found hs _ ih =>
    obtain ⟨hf, -⟩ := List.append_eq_nil_iff.mp h
    obtain ⟨⟨_, _, _, he⟩, -⟩ := (finds_of_search hs).closed_of_found_eq_nil hf
    cases he
  | case5 b rest _ found hs =>
    obtain ⟨⟨_, _, _, he⟩, -⟩ := (finds_of_search hs).closed_of_found_eq_nil h
    cases he

/-- The brackets of groups that are not too deep are matched to these groups, and nothing is
reported. -/
theorem ofBrackets_word (groups : Forest) (h : groups.height ≤ nestingLimit) :
    ofBrackets groups.word = ⟨groups, false, []⟩ := by
  induction groups with
  | empty => rw [word, ofBrackets]
  | group shape opened closed inside behind _ ih =>
    rw [height, Nat.max_le] at h
    obtain ⟨shorter, hs⟩ := search_word inside 1 shape opened closed behind.word h.1
    rw [word, ofBrackets]
    simp only [Bool.false_eq_true, if_false, hs, ih h.2]
    rfl

end BracketLint.Forest
