import Mathlib.Data.List.Basic
import BracketLint.FileTree
import BracketLint.Proofs.Path.Below

/-!
Following paths through a tree of files. What a path names is decided by its components, apart from a
last part that stands for none; a file is named by a path whose last component is its name.
-/

namespace BracketLint

namespace FileTree

/-- The tree of a file system: no name of an entry holds a slash. -/
inductive HasPlainNames : FileTree → Prop
  | file (content : Bytes) : HasPlainNames (.file content)
  | directory {entries : List (String × FileTree)}
      (hnames : ∀ entry ∈ entries, '/' ∉ entry.1.toList)
      (htrees : ∀ entry ∈ entries, HasPlainNames entry.2) : HasPlainNames (.directory entries)

theorem mem_of_lookup {entries : List (String × FileTree)} {name : String} {tree : FileTree}
    (h : entries.lookup name = some tree) : (name, tree) ∈ entries := by
  induction entries with
  | nil => cases h
  | cons entry entries ih =>
    obtain ⟨other, sub⟩ := entry
    rw [List.lookup_cons] at h
    split at h
    next heq =>
      cases h
      rw [eq_of_beq heq]
      exact List.mem_cons_self
    next => exact List.mem_cons_of_mem _ (ih h)

theorem HasPlainNames.at? {tree sub : FileTree} (h : tree.HasPlainNames) {names : List String}
    (hsub : tree.at? names = some sub) : sub.HasPlainNames := by
  induction names generalizing tree with
  | nil =>
    cases hsub
    exact h
  | cons name names ih =>
    obtain ⟨child, hchild, hrest⟩ := Option.bind_eq_some_iff.mp hsub
    cases h with
    | file content => cases hchild
    | directory hnames htrees => exact ih (htrees _ (mem_of_lookup hchild)) hrest

theorem at?_append (tree : FileTree) (front behind : List String) :
    tree.at? (front ++ behind) = (tree.at? front).bind (·.at? behind) := by
  induction front generalizing tree with
  | nil => rfl
  | cons name front ih =>
    rw [List.cons_append, FileTree.at?, FileTree.at?, Option.bind_assoc]
    congr 1
    funext child
    exact ih child

theorem at?_concat (tree : FileTree) (names : List String) (name : String) :
    tree.at? (names ++ [name]) = (tree.at? names).bind (·.child? name) := by
  rw [at?_append]
  congr 1
  funext sub
  exact Option.bind_fun_some (sub.child? name)

/-- What lies around a directory is a directory. -/
theorem exists_directory_at?_dropLast {tree : FileTree} {names : List String}
    {entries : List (String × FileTree)} (h : tree.at? names = some (.directory entries)) :
    ∃ around, tree.at? names.dropLast = some (.directory around) := by
  rcases List.eq_nil_or_concat names with rfl | ⟨front, last, rfl⟩
  · exact ⟨entries, h⟩
  · rw [List.concat_eq_append] at h ⊢
    rw [at?_append] at h
    obtain ⟨around, haround, hlast⟩ := Option.bind_eq_some_iff.mp h
    obtain ⟨child, hchild, -⟩ := Option.bind_eq_some_iff.mp hlast
    rw [List.dropLast_concat, haround]
    cases around with
    | file content => cases hchild
    | directory around => exact ⟨around, rfl⟩

/-- A tree has all directories of another one. -/
def HasDirectories (tree' tree : FileTree) : Prop :=
  ∀ names entries, tree.at? names = some (.directory entries) →
    ∃ others, tree'.at? names = some (.directory others)

end FileTree

namespace FileSystem

variable {tree : FileTree}

theorem follow_append (names : List String) (front behind : List Path.Component) :
    follow tree names (front ++ behind) =
      (follow tree names front).bind fun found => follow tree found behind := by
  induction front generalizing names with
  | nil => rfl
  | cons c front ih =>
    cases c with
    | root => exact ih []
    | current => exact ih names
    | parent =>
      simp only [List.cons_append, follow]
      split
      · exact ih names.dropLast
      · rfl
      · rfl
    | normal name =>
      simp only [List.cons_append, follow]
      split
      · split
        · exact ih _
        · rfl
      · rfl
      · rfl

/-- A step to a name or to the directory around is taken from a directory. -/
theorem exists_directory_of_follow {names found : List String} {c : Path.Component}
    {steps : List Path.Component} (hc : c = .parent ∨ ∃ name, c = .normal name)
    (h : follow tree names (c :: steps) = .ok found) :
    ∃ entries, tree.at? names = some (.directory entries) := by
  rcases hc with rfl | ⟨name, rfl⟩
  all_goals
    rw [follow] at h
    split at h
    next entries hentries => exact ⟨entries, hentries⟩
    next => cases h
    next => cases h

/-- The last step to a file is its name. -/
theorem getLast?_of_follow {names found : List String} {steps : List Path.Component}
    {last : Path.Component} {content : Bytes} (hlast : last = .parent ∨ ∃ name, last = .normal name)
    (h : follow tree names (steps ++ [last]) = .ok found)
    (hfile : tree.at? found = some (.file content)) :
    ∃ name, last = .normal name ∧ found.getLast? = some name := by
  rw [follow_append] at h
  cases hfront : follow tree names steps with
  | error failure =>
    rw [hfront] at h
    cases h
  | ok front =>
    rw [hfront] at h
    change follow tree front [last] = .ok found at h
    obtain ⟨entries, hentries⟩ := exists_directory_of_follow hlast h
    rcases hlast with rfl | ⟨name, rfl⟩
    · -- Two dots lead to a directory.
      rw [follow, hentries] at h
      cases h
      obtain ⟨around, haround⟩ := FileTree.exists_directory_at?_dropLast hentries
      rw [haround] at hfile
      cases hfile
    · rw [follow, hentries] at h
      dsimp only at h
      split at h
      · cases h
        exact ⟨name, rfl, List.getLast?_concat⟩
      · cases h

variable {files : FileSystem} {path : Path}

theorem locate_of_not_isSkipped (htext : path.text ≠ "")
    (hlast : path.pieces.getLast?.any Path.isSkipped = false) :
    files.locate path = follow files.tree files.workingDirectory path.components := by
  have hempty : path.text.isEmpty = false := by
    rw [← Bool.not_eq_true, String.isEmpty_iff]
    exact htext
  rw [locate, hempty, hlast]
  simp only [Bool.and_false, Bool.false_eq_true, if_false]
  split
  next heq => exact heq.symm
  next heq => exact heq.symm

theorem follow_of_locate {names : List String} (h : files.locate path = .ok names) :
    follow files.tree files.workingDirectory path.components = .ok names := by
  unfold locate at h
  split at h
  · cases h
  · split at h
    · cases h
    next found hfound =>
      dsimp only at h
      split at h
      · cases h
      · cases h
        exact hfound

/-- What components lead to is named by a path with them, if it is a directory. -/
theorem locate_of_follow {names : List String} {entries : List (String × FileTree)}
    (htext : path.text ≠ "")
    (h : follow files.tree files.workingDirectory path.components = .ok names)
    (hdirectory : files.tree.at? names = some (.directory entries)) :
    files.locate path = .ok names := by
  have hempty : path.text.isEmpty = false := by
    rw [← Bool.not_eq_true, String.isEmpty_iff]
    exact htext
  rw [locate, hempty, h]
  simp only [hdirectory]
  rfl

/-- Where all directories are still there, and something at the end of the way, the same steps can be
taken. -/
theorem follow_mono {tree' : FileTree} {names found : List String} {steps : List Path.Component}
    (hdirectories : tree'.HasDirectories tree)
    (hsteps : ∀ c ∈ steps, c = .parent ∨ ∃ name, c = .normal name)
    (hfound : (tree'.at? found).isSome = true) (h : follow tree names steps = .ok found) :
    follow tree' names steps = .ok found := by
  induction steps generalizing names with
  | nil => exact h
  | cons c steps ih =>
    rw [List.forall_mem_cons] at hsteps
    obtain ⟨entries, hentries⟩ := exists_directory_of_follow hsteps.1 h
    obtain ⟨others, hothers⟩ := hdirectories names entries hentries
    rcases hsteps.1 with rfl | ⟨name, rfl⟩
    · rw [follow, hentries] at h
      rw [follow, hothers]
      exact ih hsteps.2 h
    · rw [follow, hentries] at h
      dsimp only at h
      split at h
      · have hentry : (tree'.at? (names ++ [name])).isSome = true := by
          cases steps with
          | nil =>
            cases h
            exact hfound
          | cons next steps =>
            obtain ⟨below, hbelow⟩ :=
              exists_directory_of_follow (hsteps.2 next List.mem_cons_self) h
            obtain ⟨others, hothers⟩ := hdirectories _ below hbelow
            rw [hothers]
            rfl
        have hlookup : (others.lookup name).isSome = true := by
          rwa [FileTree.at?_concat, hothers] at hentry
        rw [follow, hothers]
        dsimp only
        rw [if_pos hlookup]
        exact ih hsteps.2 h
      · cases h

/-- Where all directories are still there, a path leads to what it led to, if that is still there. -/
theorem locate_mono {tree' : FileTree} {names : List String}
    (hdirectories : tree'.HasDirectories files.tree)
    (hsame : tree'.at? names = files.tree.at? names) (hfound : (files.tree.at? names).isSome = true)
    (h : files.locate path = .ok names) :
    { files with tree := tree' }.locate path = .ok names := by
  have hfollow := follow_of_locate h
  have hfollow' : follow tree' files.workingDirectory path.components = .ok names := by
    have hnames {start : List String} (h : follow files.tree start path.names = .ok names) :
        follow tree' start path.names = .ok names :=
      follow_mono hdirectories (fun _ => Path.eq_parent_or_normal_of_mem_names)
        (by rw [hsame, hfound]) h
    rw [Path.components, ← Path.names, Path.start?] at hfollow ⊢
    split_ifs at hfollow ⊢ <;> exact hnames hfollow
  unfold locate at h ⊢
  simpa only [hfollow, hfollow', hsame] using h

theorem exists_locate_of_read {content : Bytes} (h : files.read path = .ok content) :
    ∃ names, files.locate path = .ok names ∧ files.tree.at? names = some (.file content) := by
  unfold read at h
  split at h
  · cases h
  next names hnames =>
    split at h
    next heq =>
      cases h
      exact ⟨names, hnames, heq⟩
    next => cases h
    next => cases h

theorem text_ne_of_isAbsolute (h : path.isAbsolute = true) : path.text ≠ "" := by
  obtain ⟨rest, htext⟩ := Path.exists_text_of_isAbsolute h
  intro hempty
  rw [hempty] at htext
  cases htext

theorem isAbsolute_absolute (names : List String) : (absolute names).isAbsolute = true := by
  rw [absolute, Path.isAbsolute, String.toList_append]
  rfl

theorem isAbsolute_here (files : FileSystem) : files.here.isAbsolute = true :=
  isAbsolute_absolute files.workingDirectory

end FileSystem
end BracketLint
