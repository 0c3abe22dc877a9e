import Mathlib.Data.List.Basic
import BracketLint.Glob
import BracketLint.Proofs.Text.Words

/-!
What globs match. A pattern is followed through a text part by part, so a glob that starts with an
ordinary character matches only texts that start with it, and a glob such as `**/build/**` matches
the paths with a directory of that name.
-/

namespace BracketLint

namespace Pattern

section Parts

variable {α : Type} [LE α] [DecidableLE α] [BEq α]

theorem matchesAll_iff {pattern : Pattern α} {text : List α} :
    pattern.matchesAll text = true ↔ [] ∈ pattern.rests text := by
  rw [matchesAll, List.any_eq_true]
  simp only [List.isEmpty_iff, exists_eq_right]

/-- Anything leaves every end of a text. -/
theorem mem_rests_anything {text rest : List α} : rest ∈ anything.rests text ↔ rest <:+ text := by
  rw [anything, rests]
  induction text with
  | nil => simp [runRests]
  | cons a text ih =>
    have hall : SymbolSet.all.contains a = true := rfl
    rw [runRests, if_pos hall, List.mem_cons, ih, List.suffix_cons_iff]

variable [LawfulBEq α]

/-- Each of some texts is followed by itself. -/
theorem mem_restsOfParts_iff {parts : List (Pattern α)} {texts : List (List α)} {rest : List α} :
    rest ∈ restsOfParts parts texts ↔ ∃ text ∈ texts, rest ∈ restsOfParts parts [text] := by
  induction parts generalizing texts with
  | nil => simp [restsOfParts]
  | cons part parts ih =>
    rw [restsOfParts, ih]
    constructor
    · rintro ⟨behind, hbehind, hrest⟩
      rw [List.mem_eraseDups] at hbehind
      obtain ⟨text, htext, hpart⟩ := List.mem_flatMap.mp hbehind
      refine ⟨text, htext, ?_⟩
      rw [restsOfParts, ih]
      exact ⟨behind, by simpa using hpart, hrest⟩
    · rintro ⟨text, htext, hrest⟩
      rw [restsOfParts, ih] at hrest
      obtain ⟨behind, hbehind, hrest⟩ := hrest
      refine ⟨behind, ?_, hrest⟩
      rw [List.mem_eraseDups] at hbehind ⊢
      exact List.mem_flatMap.mpr ⟨text, htext, by simpa using hbehind⟩

theorem mem_restsOfParts_cons {part : Pattern α} {parts : List (Pattern α)} {text rest : List α} :
    rest ∈ restsOfParts (part :: parts) [text] ↔
      ∃ behind ∈ part.rests text, rest ∈ restsOfParts parts [behind] := by
  rw [restsOfParts, mem_restsOfParts_iff]
  simp only [List.flatMap_cons, List.flatMap_nil, List.append_nil, List.mem_eraseDups]

end Parts

/-- A character leaves what is behind it. -/
theorem mem_rests_only {a : Char} {text rest : List Char} :
    rest ∈ (one (.only a)).rests text ↔ text = a :: rest := by
  cases text with
  | nil => simp [rests]
  | cons c text =>
    have hcontains : (SymbolSet.only a).contains c = true ↔ c = a := by
      rw [SymbolSet.only, SymbolSet.contains, List.any_cons, List.any_nil, Bool.or_false, Bool.bne_false,
        Bool.and_eq_true, decide_eq_true_eq, decide_eq_true_eq]
      constructor
      · rintro ⟨hac, hca⟩
        exact Char.le_antisymm hca hac
      · rintro rfl
        exact ⟨Char.le_refl c, Char.le_refl c⟩
    rw [rests]
    by_cases hc : c = a
    · rw [if_pos (hcontains.mpr hc), hc]
      simp [eq_comm]
    · rw [if_neg (mt hcontains.mp hc)]
      simp [hc]

/-- The parts that stand for the characters of a text. -/
def ofText (text : List Char) : List (Pattern Char) := text.map fun c => one (.only c)

theorem mem_restsOfParts_ofText {word text rest : List Char} {parts : List (Pattern Char)} :
    rest ∈ restsOfParts (ofText word ++ parts) [text] ↔
      ∃ behind, text = word ++ behind ∧ rest ∈ restsOfParts parts [behind] := by
  induction word generalizing text with
  | nil => simp [ofText]
  | cons c word ih =>
    rw [ofText, List.map_cons, List.cons_append, mem_restsOfParts_cons]
    constructor
    · rintro ⟨behind, hbehind, hrest⟩
      rw [mem_rests_only] at hbehind
      obtain ⟨last, rfl, hlast⟩ := ih.mp hrest
      exact ⟨last, hbehind, hlast⟩
    · rintro ⟨last, rfl, hlast⟩
      exact ⟨word ++ last, mem_rests_only.mpr rfl, ih.mpr ⟨last, rfl, hlast⟩⟩

end Pattern

namespace Glob

/-- Some parts of a path leave the path itself and what is behind each of its slashes. -/
theorem mem_rests_someParts {text rest : List Char} :
    rest ∈ someParts.rests text ↔
      ∃ front, text = front ++ rest ∧ (front = [] ∨ ∃ before, front = before ++ ['/']) := by
  have hslash : rest ∈ (Pattern.sequence [Pattern.anything, .one (.only '/')]).rests text ↔
      ∃ before, text = before ++ '/' :: rest := by
    rw [Pattern.rests, Pattern.mem_restsOfParts_cons]
    constructor
    · rintro ⟨behind, hbehind, hrest⟩
      obtain ⟨before, rfl⟩ := Pattern.mem_rests_anything.mp hbehind
      obtain ⟨last, hlast, hrest⟩ := Pattern.mem_restsOfParts_cons.mp hrest
      rw [Pattern.restsOfParts, List.mem_singleton] at hrest
      rw [Pattern.mem_rests_only.mp hlast, hrest]
      exact ⟨before, rfl⟩
    · rintro ⟨before, rfl⟩
      refine ⟨'/' :: rest, Pattern.mem_rests_anything.mpr ⟨before, rfl⟩, ?_⟩
      rw [Pattern.mem_restsOfParts_cons]
      exact ⟨rest, Pattern.mem_rests_only.mpr rfl, List.mem_singleton_self rest⟩
  rw [someParts, Pattern.rests, Pattern.restsOfBranches, Pattern.restsOfBranches,
    Pattern.restsOfBranches, List.append_nil, List.mem_append, hslash, Pattern.nothing,
    Pattern.rests, Pattern.restsOfParts, List.mem_singleton]
  constructor
  · rintro (rfl | ⟨before, rfl⟩)
    · exact ⟨[], rfl, .inl rfl⟩
    · exact ⟨before ++ ['/'], by simp, .inr ⟨before, rfl⟩⟩
  · rintro ⟨front, rfl, rfl | ⟨before, rfl⟩⟩
    · exact .inl rfl
    · exact .inr ⟨before, by simp⟩

/-- Whether a character of a glob stands for itself and is no slash. -/
def isOrdinary (c : Char) : Bool := c != '/' && c != '*' && c != '?' && c != '['

theorem read_cons_of_isOrdinary {c : Char} (hc : isOrdinary c = true) (position : Nat)
    (atStart : Bool) (text : List Char) : read position atStart (c :: text) =
      (read (position + 1) false text).map (.one (.only c) :: ·) := by
  simp only [isOrdinary, Bool.and_eq_true, bne_iff_ne] at hc
  obtain ⟨⟨⟨hslash, hstar⟩, hmark⟩, hbracket⟩ := hc
  have hfalse : (c == '/') = false := beq_eq_false_iff_ne.mpr hslash
  rw [← hfalse, read] <;> simp_all

theorem parse_text {text : String} {glob : Glob} (h : parse text = .ok glob) :
    parse glob.text = .ok glob := by
  have htext : glob.text = text := by
    rw [parse] at h
    cases hread : read 0 true text.toList with
    | error fault =>
      rw [hread] at h
      cases h
    | ok parts =>
      rw [hread] at h
      cases h
      rfl
  rwa [htext]

/-- Each result of a run over a list comes from one of its entries. -/
theorem exists_of_mem_mapM {α β ε : Type} {f : α → Except ε β} {inputs : List α} {results : List β}
    (h : inputs.mapM f = .ok results) {b : β} (hb : b ∈ results) : ∃ a ∈ inputs, f a = .ok b := by
  induction inputs generalizing results with
  | nil =>
    cases h
    cases hb
  | cons a inputs ih =>
    rw [List.mapM_cons] at h
    cases hfirst : f a with
    | error fault =>
      rw [hfirst] at h
      cases h
    | ok first =>
      cases hrest : inputs.mapM f with
      | error fault =>
        rw [hfirst, hrest] at h
        cases h
      | ok rest =>
        rw [hfirst, hrest] at h
        cases h
        rcases List.mem_cons.mp hb with rfl | hb
        · exact ⟨a, List.mem_cons_self, hfirst⟩
        · obtain ⟨other, hother, hresult⟩ := ih hrest hb
          exact ⟨other, List.mem_cons_of_mem _ hother, hresult⟩

/-- Every glob that was read is what its own text says. -/
theorem parse_text_of_mapM_parse {texts : List String} {globs : List Glob}
    (h : texts.mapM parse = .ok globs) : ∀ glob ∈ globs, parse glob.text = .ok glob := by
  intro glob hglob
  obtain ⟨text, -, htext⟩ := exists_of_mem_mapM h hglob
  exact parse_text htext

/-- A glob can match an absolute path if it starts with a slash, a wildcard or a set. -/
def reachesRoot (glob : Glob) : Bool := glob.text.toList.head?.any fun c => !isOrdinary c

theorem reachesRoot_of_matchesPath {glob : Glob} (hglob : parse glob.text = .ok glob) {p : Path}
    (hp : p.isAbsolute = true) (h : glob.matchesPath p = true) : glob.reachesRoot = true := by
  obtain ⟨text, pattern⟩ := glob
  rw [matchesPath, Pattern.matchesAll_iff] at h
  rw [Path.isAbsolute, beq_iff_eq] at hp
  cases htext : text.toList with
  | nil =>
    -- The empty glob matches the empty path only.
    have hempty : pattern = .sequence [] := by
      rw [parse, htext, read] at hglob
      injection hglob with hglob
      injection hglob with _ hpattern
      exact hpattern.symm
    subst hempty
    rw [Pattern.rests, Pattern.restsOfParts, List.mem_singleton] at h
    rw [← h] at hp
    cases hp
  | cons c rest =>
    rw [reachesRoot, htext, List.head?_cons, Option.any_some, Bool.not_eq_true']
    rw [Bool.eq_false_iff]
    intro hc
    rw [parse, htext, read_cons_of_isOrdinary hc] at hglob
    cases hrest : read (0 + 1) false rest with
    | error fault =>
      rw [hrest] at hglob
      cases hglob
    | ok parts =>
      rw [hrest] at hglob
      injection hglob with hglob
      injection hglob with _ hpattern
      subst hpattern
      rw [Pattern.rests] at h
      obtain ⟨behind, hbehind, -⟩ := Pattern.mem_restsOfParts_cons.mp h
      rw [Pattern.mem_rests_only.mp hbehind, List.head?_cons] at hp
      obtain rfl := Option.some.inj hp
      exact absurd hc (by decide)

/-- The glob for all that lies below directories with a name. -/
def below (name : String) : Glob where
  text := "**/" ++ name ++ "/**"
  pattern := .sequence
    (someParts :: Pattern.ofText name.toList ++ [.one (.only '/'), .anything])

theorem read_slash (position : Nat) (atStart : Bool) (text : List Char) :
    read position atStart ('/' :: text) =
      (read (position + 1) true text).map (.one (.only '/') :: ·) := by
  rw [← beq_self_eq_true '/', read] <;> simp

/-- Two stars and a slash in front of more stand for some parts of a path. -/
theorem read_stars {text : List Char} (hne : text ≠ []) (position : Nat) :
    read position true ('*' :: '*' :: '/' :: text) =
      (read (position + 3) true text).map (someParts :: ·) := by
  rw [read]
  · rfl
  · exact hne
  · intro rest h
    cases h

/-- A word and a slash behind it are read as their characters. -/
theorem read_append_slash {word : List Char} (hword : word.all isOrdinary = true)
    (position : Nat) (atStart : Bool) (text : List Char) :
    ∃ position', read position atStart (word ++ '/' :: text) =
      (read position' true text).map fun parts =>
        Pattern.ofText word ++ .one (.only '/') :: parts := by
  induction word generalizing position atStart with
  | nil => exact ⟨position + 1, read_slash position atStart text⟩
  | cons c word ih =>
    rw [List.all_cons, Bool.and_eq_true] at hword
    obtain ⟨position', hread⟩ := ih hword.2 (position + 1) false
    refine ⟨position', ?_⟩
    rw [List.cons_append, read_cons_of_isOrdinary hword.1, hread]
    cases read position' true text <;> rfl

section Below

variable {name : String} (hname : name.toList.all isOrdinary = true)
include hname

theorem parse_below : parse (below name).text = .ok (below name) := by
  have htext : (below name).text.toList =
      '*' :: '*' :: '/' :: (name.toList ++ '/' :: ['*', '*']) := by
    simp [below]
  obtain ⟨position, hread⟩ := read_append_slash hname (0 + 3) true ['*', '*']
  have hstars : read position true ['*', '*'] = .ok [.anything] := by
    rw [read]
    rfl
  rw [parse, htext, read_stars (List.append_ne_nil_of_right_ne_nil _ (List.cons_ne_nil _ _)), hread,
    hstars]
  rfl

theorem matchesPath_below {p : Path} : (below name).matchesPath p = true ↔
    name.toList ∈ (Text.split '/' p.text.toList).dropLast := by
  have hslash : '/' ∉ name.toList := by
    intro hmem
    cases List.all_eq_true.mp hname '/' hmem
  rw [matchesPath, Pattern.matchesAll_iff, below, Pattern.rests, List.cons_append,
    Pattern.mem_restsOfParts_cons, Text.mem_dropLast_split_iff hslash]
  constructor
  · rintro ⟨behind, hbehind, hrest⟩
    obtain ⟨front, htext, hfront⟩ := mem_rests_someParts.mp hbehind
    obtain ⟨last, rfl, hlast⟩ := Pattern.mem_restsOfParts_ofText.mp hrest
    obtain ⟨inside, hinside, -⟩ := Pattern.mem_restsOfParts_cons.mp hlast
    rw [Pattern.mem_rests_only.mp hinside] at htext
    exact ⟨front, inside, htext, hfront⟩
  · rintro ⟨front, inside, htext, hfront⟩
    refine ⟨_, mem_rests_someParts.mpr ⟨front, htext, hfront⟩, ?_⟩
    rw [Pattern.mem_restsOfParts_ofText]
    refine ⟨'/' :: inside, rfl, ?_⟩
    rw [Pattern.mem_restsOfParts_cons]
    refine ⟨inside, Pattern.mem_rests_only.mpr rfl, ?_⟩
    rw [Pattern.mem_restsOfParts_cons]
    exact ⟨[], Pattern.mem_rests_anything.mpr List.nil_suffix, List.mem_singleton_self _⟩

end Below

end Glob
end BracketLint
