import Mathlib.Data.List.Basic
import BracketLint.Path
import BracketLint.Proofs.Text.Words

/-!
Paths below a root. A path is joined to a root by a slash, so the parts of the whole path are those
of the root followed by those of the path, and taking the root off again leaves the path.
-/

namespace BracketLint

namespace Path

/-- The named components of a path, without the root and a dot in front. -/
def names (p : Path) : List Component := p.pieces.filterMap Component.ofPiece?

theorem isSkipped_iff {piece : String} : isSkipped piece = true ↔ Component.ofPiece? piece = none := by
  rw [isSkipped, Bool.or_eq_true, beq_iff_eq, beq_iff_eq]
  unfold Component.ofPiece?
  split <;> simp_all

theorem exists_text_of_isAbsolute {p : Path} (h : p.isAbsolute = true) :
    ∃ rest, p.text.toList = '/' :: rest := by
  rw [isAbsolute, beq_iff_eq] at h
  exact List.head?_eq_some_iff.mp h

theorem pieces_of_isAbsolute {p : Path} {rest : List Char} (h : p.text.toList = '/' :: rest) :
    p.pieces = (Text.split '/' rest).map String.ofList := by
  rw [pieces, isAbsolute, h, Text.split]
  rfl

theorem mem_map_ofList {name : String} {texts : List (List Char)} :
    name ∈ texts.map String.ofList ↔ name.toList ∈ texts := by
  rw [List.mem_map]
  constructor
  · rintro ⟨text, htext, rfl⟩
    rwa [String.toList_ofList]
  · intro htext
    exact ⟨name.toList, htext, String.ofList_toList⟩

theorem pieces_of_isAbsolute_eq_false {p : Path} (h : p.isAbsolute = false) :
    p.pieces = (Text.split '/' p.text.toList).map String.ofList := by
  rw [pieces, h]
  rfl

theorem eq_of_ofPiece?_eq_normal {piece name : String}
    (h : Component.ofPiece? piece = some (.normal name)) : piece = name := by
  unfold Component.ofPiece? at h
  split at h
  · cases h
  · cases h
  · cases h
  · injection h with h
    injection h

theorem components_of_isAbsolute {p : Path} (h : p.isAbsolute = true) :
    p.components = .root :: p.names := by
  rw [components, start?, h]
  rfl

section Join

variable {root path : Path} (hroot : root.isAbsolute = true) (hpath : path.isAbsolute = false)
include hroot hpath

/-- The text of a path below a root: the root, a slash if the root does not end in one, and the
path. -/
theorem toList_join : (root.join path).text.toList =
    if root.text.toList.getLast? == some '/' then root.text.toList ++ path.text.toList
    else root.text.toList ++ '/' :: path.text.toList := by
  obtain ⟨rest, htext⟩ := exists_text_of_isAbsolute hroot
  have hne : (root.text == "") = false := by
    rw [beq_eq_false_iff_ne]
    intro h
    rw [h] at htext
    cases htext
  rw [join, hpath, hne]
  cases root.text.toList.getLast? == some '/' with
  | true => exact String.toList_append
  | false =>
    change (root.text ++ "/" ++ path.text).toList = root.text.toList ++ '/' :: path.text.toList
    rw [String.toList_append, String.toList_append, List.append_assoc]
    rfl

theorem isAbsolute_join : (root.join path).isAbsolute = true := by
  obtain ⟨rest, htext⟩ := exists_text_of_isAbsolute hroot
  rw [isAbsolute, toList_join hroot hpath, htext]
  split <;> rfl

/-- The parts of a path below a root are those of the path behind parts with the names of the
root. -/
theorem exists_pieces_join : ∃ front, (root.join path).pieces = front ++ path.pieces ∧
    front.filterMap Component.ofPiece? = root.names := by
  obtain ⟨rest, htext⟩ := exists_text_of_isAbsolute hroot
  have hpieces : path.pieces = (Text.split '/' path.text.toList).map String.ofList := by
    rw [pieces, hpath]
    rfl
  have hjoin := toList_join hroot hpath
  rw [names, pieces_of_isAbsolute htext, hpieces]
  rw [htext] at hjoin
  rcases List.eq_nil_or_concat rest with rfl | ⟨front, last, rfl⟩
  · -- The root of the file system is nothing but its slash.
    exact ⟨[], pieces_of_isAbsolute hjoin, rfl⟩
  · rw [List.concat_eq_append] at hjoin ⊢
    have hgetLast : ('/' :: (front ++ [last])).getLast? = some last := by
      rw [← List.cons_append, List.getLast?_concat]
    by_cases hlast : last = '/'
    · subst hlast
      rw [if_pos (by rw [hgetLast, beq_self_eq_true])] at hjoin
      have hsplit : Text.split '/' (front ++ ['/']) = Text.split '/' front ++ [[]] :=
        Text.split_append_cons '/' front []
      refine ⟨(Text.split '/' front).map String.ofList, ?_, ?_⟩
      · rw [pieces_of_isAbsolute (by simpa using hjoin), Text.split_append_cons, List.map_append]
      · rw [hsplit, List.map_append, List.filterMap_append]
        exact (List.append_nil _).symm
    · rw [if_neg (by rwa [hgetLast, beq_iff_eq, Option.some.injEq])] at hjoin
      refine ⟨_, ?_, rfl⟩
      rw [pieces_of_isAbsolute (by simpa using hjoin), ← List.map_append,
        ← Text.split_append_cons]
      simp

theorem names_join : (root.join path).names = root.names ++ path.names := by
  obtain ⟨front, hpieces, hfront⟩ := exists_pieces_join hroot hpath
  rw [names, hpieces, List.filterMap_append, hfront]
  rfl

end Join

theorem dropComponents_nil (pieces : List String) : dropComponents [] pieces = some pieces := by
  cases pieces <;> rfl

/-- Parts that stand for the components taken off leave what is behind them, blank parts aside. -/
theorem exists_dropComponents (front behind : List String) :
    ∃ rest, dropComponents (front.filterMap Component.ofPiece?) (front ++ behind) = some rest ∧
      rest.dropWhile isSkipped = behind.dropWhile isSkipped := by
  induction front with
  | nil => exact ⟨behind, dropComponents_nil behind, rfl⟩
  | cons piece front ih =>
    obtain ⟨rest, hrest, hskip⟩ := ih
    cases hpiece : Component.ofPiece? piece with
    | some c =>
      refine ⟨rest, ?_, hskip⟩
      rw [List.filterMap_cons_some hpiece, List.cons_append, dropComponents, hpiece]
      simp only [beq_self_eq_true, if_true]
      exact hrest
    | none =>
      rw [List.filterMap_cons_none hpiece, List.cons_append]
      cases hnames : front.filterMap Component.ofPiece? with
      | nil =>
        -- Nothing is left to take off, so the part stays in front of the rest.
        rw [hnames, dropComponents_nil] at hrest
        cases hrest
        refine ⟨piece :: (front ++ behind), dropComponents_nil _, ?_⟩
        rw [List.dropWhile_cons_of_pos (isSkipped_iff.mpr hpiece), hskip]
      | cons c cs =>
        rw [hnames] at hrest
        refine ⟨rest, ?_, hskip⟩
        rw [dropComponents, hpiece]
        exact hrest

/-- Taking the root off a path below it leaves the path, blank parts at its ends aside. It does not
depend on the root. -/
theorem relativeTo?_join {root path : Path} (hroot : root.isAbsolute = true)
    (hpath : path.isAbsolute = false) :
    (root.join path).relativeTo? root =
      some ⟨"/".intercalate (dropSkippedEnd (path.pieces.dropWhile isSkipped))⟩ := by
  obtain ⟨front, hpieces, hfront⟩ := exists_pieces_join hroot hpath
  obtain ⟨rest, hrest, hskip⟩ := exists_dropComponents front path.pieces
  have hstart : ((root.join path).start? == root.start?) = true := by
    rw [start?, start?, isAbsolute_join hroot hpath, hroot]
    rfl
  have hcomponents : root.components.isEmpty = false := by
    rw [components_of_isAbsolute hroot]
    rfl
  rw [hfront, names] at hrest
  rw [relativeTo?, hcomponents, hstart, hpieces, hrest, Option.map_some, hskip]
  rfl

theorem names_ne_nil_of_fileName? {p : Path} (hp : p.isAbsolute = false)
    (hfile : p.fileName?.isSome = true) : p.names ≠ [] := by
  intro hnil
  have hcomponents : p.components = p.start?.toList := by
    rw [components, ← names, hnil, List.append_nil]
  rw [fileName?, hcomponents, start?, hp] at hfile
  cases hdot : p.pieces.head? == some "." <;> simp [hdot] at hfile

theorem components_getLast? {p : Path} (hnames : p.names ≠ []) :
    p.components.getLast? = p.names.getLast? := by
  rw [components, ← names, List.getLast?_append, List.getLast?_eq_some_getLast hnames]
  rfl

/-- The name of a file below a root is its name in the path. -/
theorem fileName?_join {root path : Path} (hroot : root.isAbsolute = true)
    (hpath : path.isAbsolute = false) (hfile : path.fileName?.isSome = true) :
    (root.join path).fileName? = path.fileName? := by
  have hnames := names_ne_nil_of_fileName? hpath hfile
  have hjoin : (root.join path).names ≠ [] := by
    rw [names_join hroot hpath]
    exact List.append_ne_nil_of_right_ne_nil _ hnames
  have hlast : (root.join path).names.getLast? = path.names.getLast? := by
    rw [names_join hroot hpath, List.getLast?_append, List.getLast?_eq_some_getLast hnames]
    rfl
  rw [fileName?, fileName?, components_getLast? hjoin, components_getLast? hnames, hlast]

end Path
end BracketLint
