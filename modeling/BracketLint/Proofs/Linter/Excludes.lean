import Mathlib.Data.List.Basic
import BracketLint.Linter
import BracketLint.Proofs.Glob
import BracketLint.Proofs.Path

/-!
What the globs of a linter leave out. A glob is tried on the path of a file from the root on, which
says where the file lies in the tree, and on its whole path, which also shows where the tree lies. Of
the root, only globs that can match an absolute path see anything.
-/

namespace BracketLint

namespace Path

/-- The path without the parts at its ends that stand for nothing. -/
def tidy (p : Path) : Path := ⟨"/".intercalate (dropSkippedEnd (p.pieces.dropWhile isSkipped))⟩

/-- The names of the directories on the way to a path. -/
def directories (p : Path) : List String := p.pieces.dropLast

/-- The directories are the pieces of the text in front of its last slash. -/
theorem mem_directories_iff {p : Path} {name : String} (hname : name ≠ "") :
    name ∈ p.directories ↔ name.toList ∈ (Text.split '/' p.text.toList).dropLast := by
  cases habsolute : p.isAbsolute with
  | true =>
    obtain ⟨rest, htext⟩ := exists_text_of_isAbsolute habsolute
    have hne : name.toList ≠ [] := by
      intro hnil
      exact hname (String.toList_eq_nil_iff.mp hnil)
    rw [directories, pieces_of_isAbsolute htext, htext, Text.split_cons_self,
      List.dropLast_cons_of_ne_nil (Text.split_ne_nil '/' rest), List.mem_cons, or_iff_right hne,
      ← List.map_dropLast, mem_map_ofList]
  | false => rw [directories, pieces_of_isAbsolute_eq_false habsolute, ← List.map_dropLast,
      mem_map_ofList]

theorem mem_dropLast_of_infix {α : Type} {l m : List α} (h : l <:+: m) {a : α}
    (ha : a ∈ l.dropLast) : a ∈ m.dropLast := by
  obtain ⟨front, behind, rfl⟩ := h
  rcases List.eq_nil_or_concat l with rfl | ⟨l, last, rfl⟩
  · cases ha
  · rw [List.concat_eq_append, List.dropLast_concat] at ha
    rw [List.concat_eq_append, List.append_assoc, List.append_assoc,
      List.dropLast_append_of_ne_nil (by simp), List.dropLast_append_of_ne_nil (by simp)]
    exact List.mem_append_right _ (List.mem_append_left _ ha)

theorem tidy_infix (p : Path) : dropSkippedEnd (p.pieces.dropWhile isSkipped) <:+: p.pieces := by
  have hend (pieces : List String) : dropSkippedEnd pieces <+: pieces := by
    rw [dropSkippedEnd, ← List.reverse_suffix, List.reverse_reverse]
    exact List.dropWhile_suffix _
  exact (hend _).isInfix.trans (List.dropWhile_suffix _).isInfix

/-- Tidying a path makes up no directory. -/
theorem mem_directories_of_tidy {p : Path} (hp : p.isAbsolute = false) {name : String}
    (h : name.toList ∈ (Text.split '/' p.tidy.text.toList).dropLast) : name ∈ p.directories := by
  have hinfix := p.tidy_infix
  rw [tidy, String.toList_intercalate] at h
  generalize dropSkippedEnd (p.pieces.dropWhile isSkipped) = kept at h hinfix
  have hslash : ∀ piece ∈ kept.map String.toList, '/' ∉ piece := by
    intro piece hpiece
    obtain ⟨part, hpart, rfl⟩ := List.mem_map.mp hpiece
    have hmem := hinfix.subset hpart
    rw [pieces_of_isAbsolute_eq_false hp, mem_map_ofList] at hmem
    exact Text.not_mem_of_mem_split hmem
  cases hkept : kept with
  | nil =>
    rw [hkept] at h
    cases h
  | cons first rest =>
    have hne : kept.map String.toList ≠ [] := by
      rw [hkept]
      exact List.cons_ne_nil _ _
    have hsplit : Text.split '/' ("/".toList.intercalate (kept.map String.toList)) =
        kept.map String.toList := Text.split_intercalate hne hslash
    rw [hsplit, ← List.map_dropLast] at h
    obtain ⟨part, hpart, heq⟩ := List.mem_map.mp h
    rw [String.toList_inj.mp heq] at hpart
    exact mem_dropLast_of_infix hinfix hpart

section Join

variable {root path : Path} (hroot : root.isAbsolute = true) (hpath : path.isAbsolute = false)
include hroot hpath

/-- The directories on the way to a path below a root are those of the root, itself included, and
those of the path. -/
theorem mem_directories_join {name : String} (hname : Component.ofPiece? name = some (.normal name)) :
    name ∈ (root.join path).directories ↔
      .normal name ∈ root.components ∨ name ∈ path.directories := by
  obtain ⟨front, hpieces, hfront⟩ := exists_pieces_join hroot hpath
  have hne : path.pieces ≠ [] := by
    rw [pieces_of_isAbsolute_eq_false hpath]
    exact List.map_eq_nil_iff.not.mpr (Text.split_ne_nil _ _)
  have hmem : .normal name ∈ root.components ↔ name ∈ front := by
    rw [components_of_isAbsolute hroot, ← hfront, List.mem_cons, List.mem_filterMap]
    constructor
    · rintro (h | ⟨piece, hpiece, heq⟩)
      · cases h
      · rwa [eq_of_ofPiece?_eq_normal heq] at hpiece
    · intro h
      exact .inr ⟨name, h, hname⟩
  rw [directories, hpieces, List.dropLast_append_of_ne_nil hne, List.mem_append, hmem, directories]

end Join

end Path

namespace Linter

section Join

variable {linter : Linter} {root path : Path} (hroot : root.isAbsolute = true)
  (hpath : path.isAbsolute = false)
include hroot hpath

/-- A file below a root is left out for its place in the tree, or for its whole path. -/
theorem isExcluded_join : { linter with root }.isExcluded (root.join path) = true ↔
    (∃ glob ∈ linter.excludes, glob.matchesPath path.tidy = true) ∨
      ∃ glob ∈ linter.excludes, glob.matchesPath (root.join path) = true := by
  rw [isExcluded, Path.relativeTo?_join hroot hpath, Option.getD_some, List.any_eq_true]
  simp only [Bool.or_eq_true]
  constructor
  · rintro ⟨glob, hglob, hwhole | htidy⟩
    · exact .inr ⟨glob, hglob, hwhole⟩
    · exact .inl ⟨glob, hglob, htidy⟩
  · rintro (⟨glob, hglob, htidy⟩ | ⟨glob, hglob, hwhole⟩)
    · exact ⟨glob, hglob, .inr htidy⟩
    · exact ⟨glob, hglob, .inl hwhole⟩

/-- Only globs that can match an absolute path see where the tree lies. -/
theorem isExcluded_join_reachesRoot
    (hglobs : ∀ glob ∈ linter.excludes, Glob.parse glob.text = .ok glob) :
    { linter with root }.isExcluded (root.join path) = true ↔
      (∃ glob ∈ linter.excludes, glob.matchesPath path.tidy = true) ∨
        ∃ glob ∈ linter.excludes,
          glob.reachesRoot = true ∧ glob.matchesPath (root.join path) = true := by
  rw [isExcluded_join hroot hpath]
  apply or_congr_right
  constructor
  · rintro ⟨glob, hglob, hmatches⟩
    have hjoin := Path.isAbsolute_join hroot hpath
    exact ⟨glob, hglob, Glob.reachesRoot_of_matchesPath (hglobs glob hglob) hjoin hmatches,
      hmatches⟩
  · rintro ⟨glob, hglob, -, hmatches⟩
    exact ⟨glob, hglob, hmatches⟩

/-- Globs for what lies below directories with some names leave out the files with such a directory
on their way, in the tree or around it. -/
theorem isExcluded_join_below {names : List String}
    (hnames : ∀ name ∈ names, name.toList.all Glob.isOrdinary = true ∧
      Path.Component.ofPiece? name = some (.normal name))
    (hexcludes : linter.excludes = names.map Glob.below) :
    { linter with root }.isExcluded (root.join path) = true ↔
      (∃ name ∈ names, name ∈ path.directories) ∨ ∃ name ∈ names, .normal name ∈ root.components := by
  have hne {name : String} (h : Path.Component.ofPiece? name = some (.normal name)) : name ≠ "" := by
    rintro rfl
    cases h
  have hwhole {name : String} (hname : name ∈ names) :
      (Glob.below name).matchesPath (root.join path) = true ↔
        .normal name ∈ root.components ∨ name ∈ path.directories := by
    obtain ⟨hordinary, hnormal⟩ := hnames name hname
    rw [Glob.matchesPath_below hordinary, ← Path.mem_directories_iff (hne hnormal),
      Path.mem_directories_join hroot hpath hnormal]
  have htidy {name : String} (hname : name ∈ names)
      (h : (Glob.below name).matchesPath path.tidy = true) : name ∈ path.directories := by
    rw [Glob.matchesPath_below (hnames name hname).1] at h
    exact Path.mem_directories_of_tidy hpath h
  rw [isExcluded_join hroot hpath, hexcludes]
  constructor
  · rintro (⟨glob, hglob, hmatches⟩ | ⟨glob, hglob, hmatches⟩)
    · obtain ⟨name, hname, rfl⟩ := List.mem_map.mp hglob
      exact .inl ⟨name, hname, htidy hname hmatches⟩
    · obtain ⟨name, hname, rfl⟩ := List.mem_map.mp hglob
      rcases (hwhole hname).mp hmatches with h | h
      · exact .inr ⟨name, hname, h⟩
      · exact .inl ⟨name, hname, h⟩
  · rintro (⟨name, hname, h⟩ | ⟨name, hname, h⟩)
    · exact .inr ⟨_, List.mem_map_of_mem hname, (hwhole hname).mpr (.inr h)⟩
    · exact .inr ⟨_, List.mem_map_of_mem hname, (hwhole hname).mpr (.inl h)⟩

end Join

/-- The names of the directories that are left out when no globs are given. -/
def standardDirectories : List String := ["build", "third_party"]

theorem standardDirectories_ordinary : ∀ name ∈ standardDirectories,
    name.toList.all Glob.isOrdinary = true ∧
      Path.Component.ofPiece? name = some (.normal name) := by
  decide

theorem mapM_parse_standardExcludes :
    standardExcludes.mapM Glob.parse = .ok (standardDirectories.map Glob.below) := by
  have hparse {name text : String} (hname : name.toList.all Glob.isOrdinary = true)
      (htext : (Glob.below name).text = text) : Glob.parse text = .ok (Glob.below name) := by
    rw [← htext, Glob.parse_below hname]
  have hbuild : Glob.parse "**/build/**" = .ok (Glob.below "build") :=
    hparse (by decide) (by decide)
  have hthirdParty : Glob.parse "**/third_party/**" = .ok (Glob.below "third_party") :=
    hparse (by decide) (by decide)
  rw [standardExcludes, List.mapM_cons, hbuild, List.mapM_cons, hthirdParty]
  rfl

theorem or_iff_or_left_iff {p q q' : Prop} : (p ∨ q ↔ p ∨ q') ↔ p ∨ (q ↔ q') := by
  by_cases hp : p
  · simp [hp]
  · simp [hp]

/-- A file below two roots is left out alike if its place in the tree leaves it out, or if the globs
that can match an absolute path match both of its whole paths or none. For the standard globs, the
latter means that both roots or none lie in directories that are left out. -/
theorem isExcluded_join_eq_iff (linter : Linter) {texts : List String}
    (htexts : texts.mapM Glob.parse = .ok linter.excludes) {root root' path : Path}
    (hroot : root.isAbsolute = true) (hroot' : root'.isAbsolute = true)
    (hpath : path.isAbsolute = false) :
    ({ linter with root }.isExcluded (root.join path) =
        { linter with root := root' }.isExcluded (root'.join path) ↔
      (∃ glob ∈ linter.excludes, glob.matchesPath path.tidy = true) ∨
        ((∃ glob ∈ linter.excludes,
            glob.reachesRoot = true ∧ glob.matchesPath (root.join path) = true) ↔
          ∃ glob ∈ linter.excludes,
            glob.reachesRoot = true ∧ glob.matchesPath (root'.join path) = true)) ∧
    (texts = standardExcludes →
      ({ linter with root }.isExcluded (root.join path) =
          { linter with root := root' }.isExcluded (root'.join path) ↔
        (∃ name ∈ standardDirectories, name ∈ path.directories) ∨
          ((∃ name ∈ standardDirectories, .normal name ∈ root.components) ↔
            ∃ name ∈ standardDirectories, .normal name ∈ root'.components))) := by
  constructor
  · have hglobs := Glob.parse_text_of_mapM_parse htexts
    rw [Bool.eq_iff_iff, isExcluded_join_reachesRoot hroot hpath hglobs,
      isExcluded_join_reachesRoot hroot' hpath hglobs, or_iff_or_left_iff]
  · rintro rfl
    have hexcludes : linter.excludes = standardDirectories.map Glob.below := by
      rw [mapM_parse_standardExcludes] at htexts
      exact (Except.ok.inj htexts).symm
    rw [Bool.eq_iff_iff, isExcluded_join_below hroot hpath standardDirectories_ordinary hexcludes,
      isExcluded_join_below hroot' hpath standardDirectories_ordinary hexcludes, or_iff_or_left_iff]

/-- The linter with the standard globs. -/
def standard : Linter where
  root := ⟨"/"⟩
  rules := []
  excludes := standardDirectories.map Glob.below
  config := {}

theorem isExcluded_join_eq_iff_standard :
    standardExcludes.mapM Glob.parse = .ok standard.excludes ∧
      Path.isAbsolute ⟨"/home/a"⟩ = true ∧ Path.isAbsolute ⟨"/srv/"⟩ = true ∧
      Path.isAbsolute ⟨"src/m.cpp"⟩ = false ∧
      { standard with root := ⟨"/home/a"⟩ }.isExcluded (Path.join ⟨"/home/a"⟩ ⟨"src/m.cpp"⟩) =
        { standard with root := ⟨"/srv/"⟩ }.isExcluded (Path.join ⟨"/srv/"⟩ ⟨"src/m.cpp"⟩) :=
  ⟨mapM_parse_standardExcludes, by decide +kernel, by decide +kernel, by decide +kernel,
    ((isExcluded_join_eq_iff standard mapM_parse_standardExcludes (by decide +kernel)
      (by decide +kernel) (by decide +kernel)).2 rfl).mpr (.inr (by decide +kernel))⟩

/-- A tree that is checked out below a directory for builds is left out as a whole. -/
theorem isExcluded_join_ne_in_build :
    standardExcludes.mapM Glob.parse = .ok standard.excludes ∧
      { standard with root := ⟨"/a"⟩ }.isExcluded (Path.join ⟨"/a"⟩ ⟨"m.cpp"⟩) ≠
        { standard with root := ⟨"/build"⟩ }.isExcluded (Path.join ⟨"/build"⟩ ⟨"m.cpp"⟩) :=
  ⟨mapM_parse_standardExcludes, by decide +kernel⟩

end Linter
end BracketLint
