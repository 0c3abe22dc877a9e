import Mathlib.Data.List.DropRight
import BracketLint.Proofs.FileTree

/-!
Absolute paths that are put together from names. Canonical paths have this form, in which the path
around one is the path with a name less, and a path leads where its names do.
-/

namespace BracketLint

namespace Path

/-- What a file can be called: nothing that means something else in a path, and no slash in it. -/
structure IsName (name : String) : Prop where
  ofPiece?_eq : Component.ofPiece? name = some (.normal name)
  slash_not_mem : '/' ∉ name.toList

variable {name : String}

theorem IsName.isSkipped_eq_false (h : IsName name) : isSkipped name = false := by
  rw [← Bool.not_eq_true, isSkipped_iff, h.ofPiece?_eq]
  exact Option.some_ne_none _

theorem IsName.toList_ne_nil (h : IsName name) : name.toList ≠ [] := by
  intro hnil
  have hskipped := h.isSkipped_eq_false
  rw [String.toList_eq_nil_iff.mp hnil] at hskipped
  cases hskipped

theorem IsName.isAbsolute_eq_false (h : IsName name) : isAbsolute ⟨name⟩ = false := by
  rw [isAbsolute, beq_eq_false_iff_ne]
  exact fun hhead => h.slash_not_mem (List.mem_of_head? hhead)

/-- The named components of a path are names. -/
theorem isName_of_mem_components {p : Path} (h : .normal name ∈ p.components) : IsName name := by
  have hmem : .normal name ∈ p.names := by
    rw [components, ← names, List.mem_append] at h
    refine h.resolve_left fun hstart => ?_
    rw [Option.mem_toList, start?] at hstart
    split_ifs at hstart <;> cases hstart
  obtain ⟨piece, hpiece, hname⟩ := List.mem_filterMap.mp hmem
  obtain rfl := eq_of_ofPiece?_eq_normal hname
  exact ⟨hname, slash_not_mem_of_mem_pieces hpiece⟩

theorem dropSkippedEnd_of_isName {names : List String} (h : ∀ name ∈ names, IsName name) :
    dropSkippedEnd names = names := by
  rcases List.eq_nil_or_concat' names with rfl | ⟨front, last, rfl⟩
  · rfl
  · have hlast : ¬isSkipped last = true := by
      rw [Bool.not_eq_true]
      exact (h last (List.mem_append_right _ List.mem_cons_self)).isSkipped_eq_false
    rw [dropSkippedEnd, List.reverse_append, List.reverse_singleton, List.singleton_append,
      List.dropWhile_cons_of_neg hlast, List.reverse_cons, List.reverse_reverse]

theorem pieces_ne_nil (p : Path) : p.pieces ≠ [] := by
  cases habsolute : p.isAbsolute with
  | true =>
    obtain ⟨rest, htext⟩ := exists_text_of_isAbsolute habsolute
    rw [pieces_of_isAbsolute htext]
    exact List.map_eq_nil_iff.not.mpr (Text.split_ne_nil _ _)
  | false =>
    rw [pieces_of_isAbsolute_eq_false habsolute]
    exact List.map_eq_nil_iff.not.mpr (Text.split_ne_nil _ _)

/-- A path whose last part stands for a component ends in a name or in two dots. -/
theorem exists_components_concat {p : Path} (h : p.pieces.getLast?.any isSkipped = false) :
    ∃ steps last, p.components = steps ++ [last] ∧
      (last = .parent ∨ ∃ name, last = .normal name) := by
  obtain ⟨front, piece, hpieces⟩ := (List.eq_nil_or_concat' p.pieces).resolve_left (pieces_ne_nil p)
  rw [hpieces, List.getLast?_concat, Option.any_some] at h
  cases hpiece : Component.ofPiece? piece with
  | none =>
    rw [isSkipped_iff.mpr hpiece] at h
    cases h
  | some last =>
    have hnames : p.names = front.filterMap Component.ofPiece? ++ [last] := by
      rw [names, hpieces, List.filterMap_append, List.filterMap_cons_some hpiece,
        List.filterMap_nil]
    refine ⟨p.start?.toList ++ front.filterMap Component.ofPiece?, last, ?_, ?_⟩
    · rw [components, ← names, hnames, List.append_assoc]
    · apply eq_parent_or_normal_of_mem_names (p := p)
      rw [hnames]
      exact List.mem_append_right _ List.mem_cons_self

end Path

namespace FileSystem

open BracketLint.Path

section Spelling

variable {names front : List String} {last name : String}

theorem pieces_absolute (hne : names ≠ []) (h : ∀ name ∈ names, IsName name) :
    (absolute names).pieces = names := by
  have htext : (absolute names).text.toList = '/' :: ("/".intercalate names).toList :=
    String.toList_append
  obtain ⟨habsolute, hpieces⟩ := isAbsolute_intercalate
    (fun name hname => (h name hname).slash_not_mem)
    (fun name hname => (h name (List.mem_of_head? hname)).isSkipped_eq_false) hne
  rw [pieces_of_isAbsolute htext, ← pieces_of_isAbsolute_eq_false habsolute, hpieces]

/-- An absolute path has its names as components. -/
theorem components_absolute (h : ∀ name ∈ names, IsName name) :
    (absolute names).components = .root :: names.map .normal := by
  rw [components_of_isAbsolute (isAbsolute_absolute names), Path.names]
  congr 1
  cases names with
  | nil => rfl
  | cons first names =>
    rw [pieces_absolute (List.cons_ne_nil _ _) h, List.filterMap_eq_map_iff_forall_eq_some]
    exact fun name hname => (h name hname).ofPiece?_eq

theorem text_absolute_concat (hne : front ≠ []) :
    (absolute (front ++ [last])).text = (absolute front).text ++ "/" ++ last := by
  rw [absolute, absolute, String.intercalate_append_of_ne_nil hne (List.cons_ne_nil _ _),
    String.intercalate_singleton, String.append_assoc, String.append_assoc]
  exact (String.append_assoc ..).symm

/-- A name below an absolute path. -/
theorem join_absolute (h : ∀ name ∈ names, IsName name) (hname : IsName name) :
    (absolute names).join ⟨name⟩ = absolute (names ++ [name]) := by
  rcases List.eq_nil_or_concat' names with rfl | ⟨front, last, rfl⟩
  · rw [join, hname.isAbsolute_eq_false]
    rfl
  · have hlast := h last (List.mem_append_right _ List.mem_cons_self)
    -- The path ends in the last name, and so in no slash.
    obtain ⟨before, htext⟩ :
        ∃ before, (absolute (front ++ [last])).text.toList = before ++ last.toList := by
      by_cases hne : front = []
      · subst hne
        exact ⟨['/'], by simp [absolute]⟩
      · exact ⟨_, by rw [text_absolute_concat hne, String.toList_append]⟩
    have hslash : ((absolute (front ++ [last])).text.toList.getLast? == some '/') = false := by
      rw [beq_eq_false_iff_ne, htext, List.getLast?_append,
        List.getLast?_eq_some_getLast hlast.toList_ne_nil, Option.some_or, Ne, Option.some.injEq]
      intro heq
      exact hlast.slash_not_mem (heq ▸ List.getLast_mem _)
    have hempty : ((absolute (front ++ [last])).text == "") = false := by
      rw [beq_eq_false_iff_ne]
      exact text_ne_of_isAbsolute (isAbsolute_absolute _)
    rw [join, hname.isAbsolute_eq_false, hslash, hempty,
      ← text_absolute_concat (List.append_ne_nil_of_right_ne_nil _ (List.cons_ne_nil _ _))]
    rfl

theorem parent?_absolute_nil : (absolute []).parent? = none := by
  decide

/-- The path around an absolute path has a name less. -/
theorem parent?_absolute_concat (h : ∀ name ∈ front ++ [last], IsName name) :
    (absolute (front ++ [last])).parent? = some (absolute front) := by
  have habsolute := isAbsolute_absolute (front ++ [last])
  have hfront : ∀ name ∈ front, IsName name :=
    fun name hname => h name (List.mem_append_left _ hname)
  have hne : front ++ [last] ≠ [] := List.append_ne_nil_of_right_ne_nil _ (List.cons_ne_nil _ _)
  rw [parent?, start?, habsolute, pieces_absolute hne h]
  simp [dropSkippedEnd_of_isName h, dropSkippedEnd_of_isName hfront, absolute]

theorem outwards_absolute {count : Nat} (h : ∀ name ∈ names, IsName name)
    (hcount : names.length ≤ count) : (absolute names).outwards count =
      (List.range (names.length + 1)).map fun k => absolute (names.rdrop k) := by
  induction count generalizing names with
  | zero =>
    obtain rfl := List.length_eq_zero_iff.mp (Nat.le_zero.mp hcount)
    rfl
  | succ count ih =>
    rcases List.eq_nil_or_concat' names with rfl | ⟨front, last, rfl⟩
    · rw [outwards, parent?_absolute_nil]
      rfl
    · rw [List.length_append, List.length_singleton] at hcount ⊢
      have hfront : ∀ name ∈ front, IsName name :=
        fun name hname => h name (List.mem_append_left _ hname)
      have hrdrop : (fun k => absolute ((front ++ [last]).rdrop k)) ∘ Nat.succ =
          fun k => absolute (front.rdrop k) := by
        funext k
        exact congrArg absolute (List.rdrop_concat_succ front k last)
      rw [outwards, parent?_absolute_concat h, List.range_succ_eq_map, List.map_cons,
        List.rdrop_zero, List.map_map, hrdrop]
      exact congrArg _ (ih hfront (by omega))

/-- The paths around an absolute path lose one name after the other, up to the root. -/
theorem ancestors_absolute (h : ∀ name ∈ names, IsName name) :
    (absolute names).ancestors =
      (List.range (names.length + 1)).map fun k => absolute (names.rdrop k) := by
  apply outwards_absolute h
  rw [components_absolute h, List.length_cons, List.length_map]
  exact Nat.le_succ _

end Spelling

section Place

variable {tree : FileTree} {files : FileSystem} {path : Path} {names found : List String}

/-- A step to a name leads to the entry with this name, if there is one. -/
theorem toOption_follow_normal (tree : FileTree) (names : List String) (name : String)
    (steps : List Component) : (follow tree names (.normal name :: steps)).toOption =
      (tree.at? (names ++ [name])).bind fun _ =>
        (follow tree (names ++ [name]) steps).toOption := by
  rw [follow, FileTree.at?_concat]
  cases tree.at? names with
  | none => rfl
  | some sub =>
    cases sub with
    | file content => rfl
    | directory entries =>
      rw [Option.bind_some, FileTree.child?, FileTree.entries]
      cases hlookup : entries.lookup name with
      | none =>
        simp only [hlookup]
        rfl
      | some child =>
        simp only [hlookup]
        rfl

/-- Names lead to what lies behind them, if anything does. -/
theorem toOption_follow_map_normal (h : (tree.at? found).isSome = true) :
    (follow tree found (names.map .normal)).toOption =
      (tree.at? (found ++ names)).map fun _ => found ++ names := by
  induction names generalizing found with
  | nil =>
    obtain ⟨sub, hsub⟩ := Option.isSome_iff_exists.mp h
    rw [List.append_nil, hsub]
    rfl
  | cons name names ih =>
    have hfound : found ++ name :: names = found ++ [name] ++ names := List.append_cons ..
    rw [List.map_cons, toOption_follow_normal, hfound]
    cases hentry : tree.at? (found ++ [name]) with
    | none =>
      rw [FileTree.at?_append, hentry]
      rfl
    | some sub =>
      rw [Option.bind_some]
      exact ih (by rw [hentry]; rfl)

theorem node?_of_not_isSkipped (htext : path.text ≠ "")
    (hlast : path.pieces.getLast?.any isSkipped = false) :
    files.node? path =
      (follow files.tree files.workingDirectory path.components).toOption.bind files.tree.at? := by
  rw [node?, locate_of_not_isSkipped htext hlast]
  cases follow files.tree files.workingDirectory path.components <;> rfl

/-- An absolute path names what lies behind its names. -/
theorem node?_absolute_concat {last : String} (h : ∀ name ∈ names ++ [last], IsName name) :
    files.node? (absolute (names ++ [last])) = files.tree.at? (names ++ [last]) := by
  have hskipped : (absolute (names ++ [last])).pieces.getLast?.any isSkipped = false := by
    rw [pieces_absolute (List.append_ne_nil_of_right_ne_nil _ (List.cons_ne_nil _ _)) h,
      List.getLast?_concat]
    exact (h last (List.mem_append_right _ List.mem_cons_self)).isSkipped_eq_false
  rw [node?_of_not_isSkipped (text_ne_of_isAbsolute (isAbsolute_absolute _)) hskipped,
    components_absolute h, follow, toOption_follow_map_normal rfl, List.nil_append]
  cases hsub : files.tree.at? (names ++ [last]) with
  | none => rfl
  | some sub => exact hsub

/-- An absolute path names a directory when its names lead to one. -/
theorem isDirectory_absolute (h : ∀ name ∈ names, IsName name) :
    files.isDirectory (absolute names) = (files.tree.at? names).any (·.isDirectory) := by
  rcases List.eq_nil_or_concat' names with rfl | ⟨front, last, rfl⟩
  · -- The path to the root ends in a slash, so it names a directory or nothing.
    have htext : (absolute []).text.isEmpty = false := by decide
    have hskipped : (absolute []).pieces.getLast?.any isSkipped = true := by decide
    rw [isDirectory, node?, locate, components_absolute h, htext, hskipped]
    cases htree : files.tree <;> simp [follow, FileTree.at?, FileTree.isDirectory]
  · rw [isDirectory, node?_absolute_concat h]

/-- Only names of files and directories are on the way to anything. -/
theorem isName_of_follow {steps : List Component} (hnames : ∀ name ∈ names, IsName name)
    (hsteps : ∀ name, .normal name ∈ steps → IsName name)
    (h : follow tree names steps = .ok found) : ∀ name ∈ found, IsName name := by
  induction steps generalizing names with
  | nil =>
    cases h
    exact hnames
  | cons c steps ih =>
    have hrest : ∀ name, .normal name ∈ steps → IsName name :=
      fun name hname => hsteps name (List.mem_cons_of_mem _ hname)
    cases c with
    | root => exact ih (fun _ hname => absurd hname List.not_mem_nil) hrest h
    | current => exact ih hnames hrest h
    | parent =>
      rw [follow] at h
      split at h
      · exact ih (fun name hname => hnames name (List.dropLast_subset _ hname)) hrest h
      · cases h
      · cases h
    | normal name =>
      rw [follow] at h
      split at h
      · split at h
        · refine ih (fun other hother => ?_) hrest h
          rcases List.mem_append.mp hother with hother | hother
          · exact hnames other hother
          · exact List.mem_singleton.mp hother ▸ hsteps name List.mem_cons_self
        · cases h
      · cases h
      · cases h

/-- The place of what a path names has names only, if that of the working directory has. -/
theorem isName_of_locate (hworking : ∀ name ∈ files.workingDirectory, IsName name)
    (h : files.locate path = .ok names) : ∀ name ∈ names, IsName name :=
  isName_of_follow hworking (fun _ => isName_of_mem_components) (follow_of_locate h)

/-- A file lies in a directory, with a name in it. -/
theorem exists_concat_of_locate {content : Bytes} (h : files.locate path = .ok names)
    (hfile : files.tree.at? names = some (.file content)) :
    ∃ front last, names = front ++ [last] := by
  have hfollow := follow_of_locate h
  have hskipped : path.pieces.getLast?.any isSkipped = false := by
    by_contra hskipped
    rw [Bool.not_eq_false] at hskipped
    unfold locate at h
    split at h
    · cases h
    · simp only [hfollow, hfile, hskipped] at h
      cases h
  obtain ⟨steps, step, hcomponents, hstep⟩ := exists_components_concat hskipped
  rw [hcomponents] at hfollow
  obtain ⟨name, -, hname⟩ := getLast?_of_follow hstep hfollow hfile
  obtain ⟨front, hfront⟩ := List.getLast?_eq_some_iff.mp hname
  exact ⟨front, name, hfront⟩

end Place

end FileSystem
end BracketLint
