import Mathlib.Data.Nat.Find
import BracketLint.ConfigSource
import BracketLint.Proofs.Path.Absolute

/-!
Where the search for a project file looks. It goes outwards from the directory of a target and ends
behind the first directory that holds a repository, so the answer depends on what lies below this
directory only, the user's own file apart.
-/

namespace BracketLint

open FileSystem BracketLint.Path

namespace ConfigSource

variable {tree tree' : FileTree} {files : FileSystem} {directory start : List String}
  {name : String} {userDirectory : Option Path} {target file : Path} {last : Nat}

/-- A directory holds a file with a name. -/
def HoldsFile (tree : FileTree) (directory : List String) (name : String) : Prop :=
  ∃ content, tree.at? (directory ++ [name]) = some (.file content)

/-- The name of the project file of a directory. -/
inductive IsProjectFile (tree : FileTree) (directory : List String) : String → Prop
  | plain (h : HoldsFile tree directory "cxxlint.toml") :
      IsProjectFile tree directory "cxxlint.toml"
  | hidden (h : HoldsFile tree directory ".cxxlint.toml")
      (hplain : ¬HoldsFile tree directory "cxxlint.toml") :
      IsProjectFile tree directory ".cxxlint.toml"

/-- The directories around a target that are searched: those that lose at most `last` of the names of
the first one, which is the target itself or the directory in which the target lies. -/
structure SearchRange (files : FileSystem) (target : Path) (start : List String) (last : Nat) :
    Prop where
  locate_target : ∃ names sub, files.locate target = .ok names ∧ files.tree.at? names = some sub ∧
    start = if sub.isDirectory then names else names.dropLast
  last_le : last ≤ start.length
  no_repository : ∀ k < last, files.tree.at? (start.rdrop k ++ [".git"]) = none
  repository : last = start.length ∨ (files.tree.at? (start.rdrop last ++ [".git"])).isSome = true

/-- The project file of the first directory of a range that has one. -/
def IsNearestFile (tree : FileTree) (start : List String) (last : Nat) (file : Path) : Prop :=
  ∃ k ≤ last, ∃ name, IsProjectFile tree (start.rdrop k) name ∧
    file = absolute (start.rdrop k ++ [name]) ∧
    ∀ j < k, ∀ other, ¬IsProjectFile tree (start.rdrop j) other

/-- The user's own file, or else the standard settings. -/
def fallback (files : FileSystem) : Option Path → ConfigSource
  | some directory =>
    if files.isFile (directory.join ⟨"config.toml"⟩) then user (directory.join ⟨"config.toml"⟩)
    else standard
  | none => standard

/-- Files come or go outside of a directory: nothing changes below it, and no directory goes. -/
structure SameBelow (directory : List String) (tree' tree : FileTree) : Prop where
  at?_eq : tree'.at? directory = tree.at? directory
  hasDirectories : tree'.HasDirectories tree

/-- The source of the configuration for a target, by the directories that are searched. -/
structure IsResolved (files : FileSystem) (userDirectory : Option Path) (target : Path)
    (start : List String) (last : Nat) : Prop where
  /-- A file that is asked for is taken whatever else there is. -/
  asked (file : Path) : resolve files userDirectory (some file) target = .named file
  /-- Or else the project file of the first directory that has one is taken. -/
  nearest (file : Path) : resolve files userDirectory none target = .project file ↔
    IsNearestFile files.tree start last file
  /-- Without any, it is the user's own file or the standard settings. -/
  otherwise (h : ∀ k ≤ last, ∀ name, ¬IsProjectFile files.tree (start.rdrop k) name) :
    resolve files userDirectory none target = fallback files userDirectory
  /-- Files above the directory that holds the repository do not matter, the user's own apart. -/
  above (hrepository : (files.tree.at? (start.rdrop last ++ [".git"])).isSome = true)
    (tree' : FileTree) (hsame : SameBelow (start.rdrop last) tree' files.tree)
    (huser : ∀ directory, userDirectory = some directory →
      { files with tree := tree' }.isFile (directory.join ⟨"config.toml"⟩) =
        files.isFile (directory.join ⟨"config.toml"⟩)) :
    resolve { files with tree := tree' } userDirectory none target =
      resolve files userDirectory none target

section Directory

variable (h : ∀ name ∈ directory, IsName name)
include h

theorem forall_mem_concat (hname : IsName name) : ∀ other ∈ directory ++ [name], IsName other := by
  intro other hother
  rcases List.mem_append.mp hother with hother | hother
  · exact h other hother
  · exact List.mem_singleton.mp hother ▸ hname

theorem isFile_join_iff (files : FileSystem) (hname : IsName name) :
    files.isFile ((absolute directory).join ⟨name⟩) = true ↔
      HoldsFile files.tree directory name := by
  rw [join_absolute h hname, FileSystem.isFile, node?_absolute_concat (forall_mem_concat h hname),
    HoldsFile]
  cases files.tree.at? (directory ++ [name]) with
  | none => simp
  | some sub => cases sub <;> simp [FileTree.isDirectory]

theorem projectFileIn?_eq_some_iff : projectFileIn? files (absolute directory) = some file ↔
    ∃ name, IsProjectFile files.tree directory name ∧ file = absolute (directory ++ [name]) := by
  have hplain : IsName "cxxlint.toml" := ⟨by decide, by decide⟩
  have hhidden : IsName ".cxxlint.toml" := ⟨by decide, by decide⟩
  have hjoin := join_absolute h hplain
  have hjoin' := join_absolute h hhidden
  have hplain := isFile_join_iff h files hplain
  have hhidden := isFile_join_iff h files hhidden
  rw [projectFileIn?, projectNames, List.map_cons, List.map_cons, List.map_nil]
  constructor
  · intro hfound
    rw [List.find?_cons] at hfound
    split at hfound
    next hisFile =>
      cases hfound
      exact ⟨_, .plain (hplain.mp hisFile), hjoin⟩
    next hisFile =>
      rw [List.find?_cons] at hfound
      split at hfound
      next hisFile' =>
        cases hfound
        refine ⟨_, .hidden (hhidden.mp hisFile') fun hholds => ?_, hjoin'⟩
        rw [hplain.mpr hholds] at hisFile
        cases hisFile
      next => cases hfound
  · rintro ⟨name, hname, rfl⟩
    cases hname with
    | plain hholds => rw [List.find?_cons_of_pos (hplain.mpr hholds), hjoin]
    | hidden hholds hother =>
      rw [List.find?_cons_of_neg (hplain.not.mpr hother),
        List.find?_cons_of_pos (hhidden.mpr hholds), hjoin']

theorem holdsRepository_absolute : holdsRepository files (absolute directory) =
    (files.tree.at? (directory ++ [".git"])).isSome := by
  have hgit : IsName ".git" := ⟨by decide, by decide⟩
  rw [holdsRepository, join_absolute h hgit, contains,
    node?_absolute_concat (forall_mem_concat h hgit)]

end Directory

/-- The nearest project file is in the first directory that has one, if no directory in front of it
holds a repository. -/
theorem nearestProjectFile?_eq_some_iff {directories : List Path} :
    nearestProjectFile? files directories = some file ↔
      ∃ (k : Nat) (directory : Path), directories[k]? = some directory ∧
        projectFileIn? files directory = some file ∧
        ∀ j < k, ∀ around, directories[j]? = some around →
          projectFileIn? files around = none ∧ holdsRepository files around = false := by
  induction directories with
  | nil => simp [nearestProjectFile?]
  | cons directory directories ih =>
    rw [nearestProjectFile?]
    constructor
    · intro hnearest
      split at hnearest
      next hfile =>
        cases hnearest
        exact ⟨0, directory, rfl, hfile, fun j hj => absurd hj j.not_lt_zero⟩
      next hnone =>
        split_ifs at hnearest with hrepository
        obtain ⟨k, found, hk, hfound, hbefore⟩ := ih.mp hnearest
        refine ⟨k + 1, found, hk, hfound, ?_⟩
        rintro (_ | j) hj around haround
        · cases haround
          exact ⟨hnone, Bool.not_eq_true _ ▸ hrepository⟩
        · exact hbefore j (by omega) around haround
    · rintro ⟨_ | k, found, hk, hfound, hbefore⟩
      · cases hk
        rw [hfound]
      · obtain ⟨hnone, hrepository⟩ := hbefore 0 k.succ_pos directory rfl
        rw [hnone, hrepository]
        exact ih.mpr ⟨k, found, hk, hfound, fun j hj => hbefore (j + 1) (by omega)⟩

namespace SearchRange

variable (h : SearchRange files target start last)
  (hworking : ∀ name ∈ files.workingDirectory, IsName name)
include h hworking

theorem isName_of_mem_rdrop (k : Nat) : ∀ name ∈ start.rdrop k, IsName name := by
  obtain ⟨names, sub, hlocate, -, hstart⟩ := h.locate_target
  intro name hname
  apply isName_of_locate hworking hlocate
  have hmem : name ∈ start := List.take_subset _ _ hname
  rw [hstart] at hmem
  split at hmem
  · exact hmem
  · exact List.dropLast_subset _ hmem

/-- The search starts in the first directory of the range. -/
theorem searchStart_eq : searchStart files target = absolute start := by
  obtain ⟨names, sub, hlocate, hsub, hstart⟩ := h.locate_target
  have hnames := isName_of_locate hworking hlocate
  have hcanonical : (files.canonical? target).getD target = absolute names := by
    rw [canonical?, hlocate]
    rfl
  have hdirectory : files.isDirectory (absolute names) = sub.isDirectory := by
    rw [isDirectory_absolute hnames, hsub, Option.any_some]
  rw [searchStart]
  simp only [hcanonical, hdirectory]
  cases sub with
  | directory entries => exact congrArg absolute hstart.symm
  | file content =>
    obtain ⟨front, name, rfl⟩ := exists_concat_of_locate hlocate hsub
    have htext : (absolute front).text.isEmpty = false := by
      rw [← Bool.not_eq_true, String.isEmpty_iff]
      exact text_ne_of_isAbsolute (isAbsolute_absolute front)
    rw [FileTree.isDirectory, if_neg Bool.false_ne_true, List.dropLast_concat] at hstart
    simp only [FileTree.isDirectory, parent?_absolute_concat hnames, htext, hstart,
      Bool.false_eq_true, if_false]

/-- The search finds the project file of the first directory of the range that has one. -/
theorem nearestProjectFile?_eq_some_iff :
    nearestProjectFile? files (searchStart files target).ancestors = some file ↔
      IsNearestFile files.tree start last file := by
  have hnames := h.isName_of_mem_rdrop hworking
  have hlength := h.last_le
  have hancestors (k : Nat) (around : Path) :
      (searchStart files target).ancestors[k]? = some around ↔
      k ≤ start.length ∧ absolute (start.rdrop k) = around := by
    rw [h.searchStart_eq hworking, ancestors_absolute (List.rdrop_zero (l := start) ▸ hnames 0),
      List.getElem?_map, Option.map_eq_some_iff]
    constructor
    · rintro ⟨found, hfound, rfl⟩
      obtain ⟨hlt, rfl⟩ := List.getElem?_eq_some_iff.mp hfound
      rw [List.length_range] at hlt
      exact ⟨Nat.le_of_lt_succ hlt, by rw [List.getElem_range]⟩
    · rintro ⟨hle, rfl⟩
      exact ⟨k, List.getElem?_range (Nat.lt_succ_of_le hle), rfl⟩
  have hproject (k : Nat) : projectFileIn? files (absolute (start.rdrop k)) = none ↔
      ∀ other, ¬IsProjectFile files.tree (start.rdrop k) other := by
    simp only [Option.eq_none_iff_forall_ne_some, ne_eq, projectFileIn?_eq_some_iff (hnames k)]
    exact ⟨fun hnone other hother => hnone _ ⟨other, hother, rfl⟩,
      fun hnone _ ⟨other, hother, _⟩ => hnone other hother⟩
  rw [ConfigSource.nearestProjectFile?_eq_some_iff]
  constructor
  · rintro ⟨k, around, hk, hfile, hbefore⟩
    obtain ⟨hle, rfl⟩ := (hancestors k around).mp hk
    obtain ⟨name, hname, hfile⟩ := (projectFileIn?_eq_some_iff (hnames k)).mp hfile
    have hfront {j : Nat} (hj : j < k) := hbefore j hj _ ((hancestors j _).mpr ⟨by omega, rfl⟩)
    refine ⟨k, ?_, name, hname, hfile, fun j hj => (hproject j).mp (hfront hj).1⟩
    -- Nothing behind the repository is looked at.
    by_contra hlast
    rw [Nat.not_le] at hlast
    have hrepository := (hfront hlast).2
    rw [holdsRepository_absolute (hnames last)] at hrepository
    rcases h.repository with rfl | hholds
    · omega
    · rw [hholds] at hrepository
      cases hrepository
  · rintro ⟨k, hk, name, hname, rfl, hbefore⟩
    refine ⟨k, _, (hancestors k _).mpr ⟨by omega, rfl⟩,
      (projectFileIn?_eq_some_iff (hnames k)).mpr ⟨name, hname, rfl⟩, ?_⟩
    intro j hj around haround
    obtain ⟨-, rfl⟩ := (hancestors j around).mp haround
    refine ⟨(hproject j).mpr (hbefore j hj), ?_⟩
    rw [holdsRepository_absolute (hnames j), h.no_repository j (by omega)]
    rfl

end SearchRange

section Change

theorem SameBelow.at?_append (h : SameBelow directory tree' tree) (names : List String) :
    tree'.at? (directory ++ names) = tree.at? (directory ++ names) := by
  rw [FileTree.at?_append, FileTree.at?_append, h.at?_eq]

theorem SameBelow.isProjectFile_iff (h : SameBelow directory tree' tree) (names : List String) :
    IsProjectFile tree' (directory ++ names) name ↔
      IsProjectFile tree (directory ++ names) name := by
  have hholds (name : String) :
      HoldsFile tree' (directory ++ names) name ↔ HoldsFile tree (directory ++ names) name := by
    rw [HoldsFile, HoldsFile, List.append_assoc, h.at?_append]
  constructor
  · rintro (⟨hfile⟩ | ⟨hfile, hplain⟩)
    · exact .plain ((hholds _).mp hfile)
    · exact .hidden ((hholds _).mp hfile) ((hholds _).not.mp hplain)
  · rintro (⟨hfile⟩ | ⟨hfile, hplain⟩)
    · exact .plain ((hholds _).mpr hfile)
    · exact .hidden ((hholds _).mpr hfile) ((hholds _).not.mpr hplain)

/-- The directories of the range lie in the last one. -/
theorem exists_rdrop_eq_append (start : List String) {k : Nat} (hk : k ≤ last) :
    ∃ names, start.rdrop k = start.rdrop last ++ names := by
  have hle : start.length - last ≤ start.length - k := Nat.sub_le_sub_left hk start.length
  obtain ⟨names, hnames⟩ := List.take_prefix_take_left (l := start) hle
  exact ⟨names, hnames.symm⟩

theorem SameBelow.isNearestFile_iff (h : SameBelow (start.rdrop last) tree' tree) :
    IsNearestFile tree' start last file ↔ IsNearestFile tree start last file := by
  have hproject {k : Nat} (hk : k ≤ last) (name : String) :
      IsProjectFile tree' (start.rdrop k) name ↔ IsProjectFile tree (start.rdrop k) name := by
    obtain ⟨names, hnames⟩ := exists_rdrop_eq_append start hk
    rw [hnames]
    exact h.isProjectFile_iff names
  constructor
  · rintro ⟨k, hk, name, hname, hfile, hbefore⟩
    exact ⟨k, hk, name, (hproject hk name).mp hname, hfile, fun j hj other =>
      (hproject (hj.le.trans hk) other).not.mp (hbefore j hj other)⟩
  · rintro ⟨k, hk, name, hname, hfile, hbefore⟩
    exact ⟨k, hk, name, (hproject hk name).mpr hname, hfile, fun j hj other =>
      (hproject (hj.le.trans hk) other).not.mpr (hbefore j hj other)⟩

/-- The range stays the same as long as nothing changes below its last directory. -/
theorem SearchRange.of_sameBelow (h : SearchRange files target start last)
    (hrepository : (files.tree.at? (start.rdrop last ++ [".git"])).isSome = true)
    (hsame : SameBelow (start.rdrop last) tree' files.tree) :
    SearchRange { files with tree := tree' } target start last where
  locate_target := by
    obtain ⟨names, sub, hlocate, hsub, hstart⟩ := h.locate_target
    have hprefix : start.rdrop last <+: names := by
      refine (List.take_prefix _ _).trans ?_
      rw [hstart]
      split
      · exact List.prefix_rfl
      · exact List.dropLast_prefix _
    obtain ⟨behind, hbehind⟩ := hprefix
    have hnames : tree'.at? names = files.tree.at? names := hbehind ▸ hsame.at?_append behind
    refine ⟨names, sub, ?_, hnames.trans hsub, hstart⟩
    exact locate_mono hsame.hasDirectories hnames (by rw [hsub]; rfl) hlocate
  last_le := h.last_le
  no_repository k hk := by
    obtain ⟨names, hnames⟩ := exists_rdrop_eq_append start hk.le
    have hnone := h.no_repository k hk
    rw [hnames, List.append_assoc] at hnone ⊢
    rw [hsame.at?_append, hnone]
  repository := .inr (by rw [hsame.at?_append, hrepository])

end Change

theorem exists_searchRange (htarget : files.contains target = true) :
    ∃ start last, SearchRange files target start last := by
  rw [contains, node?] at htarget
  cases hlocate : files.locate target with
  | error failure =>
    rw [hlocate] at htarget
    cases htarget
  | ok names =>
    rw [hlocate] at htarget
    obtain ⟨sub, hsub⟩ := Option.isSome_iff_exists.mp htarget
    obtain ⟨start, hstart⟩ :
        ∃ start, start = if sub.isDirectory then names else names.dropLast := ⟨_, rfl⟩
    have hlast : ∃ k, k = start.length ∨
        (files.tree.at? (start.rdrop k ++ [".git"])).isSome = true := ⟨start.length, .inl rfl⟩
    refine ⟨start, Nat.find hlast, ⟨names, sub, hlocate, hsub, hstart⟩, ?_, ?_, Nat.find_spec hlast⟩
    · exact Nat.find_min' hlast (.inl rfl)
    · intro k hk
      have hnot := Nat.find_min hlast hk
      rw [not_or, Option.isSome_iff_ne_none, not_not] at hnot
      exact hnot.2

/-- The answer when no file is asked for. -/
theorem resolve_none : resolve files userDirectory none target =
    (nearestProjectFile? files (searchStart files target).ancestors).elim
      (fallback files userDirectory) project := by
  unfold resolve
  dsimp only
  cases nearestProjectFile? files (searchStart files target).ancestors with
  | some file => rfl
  | none =>
    cases userDirectory with
    | none => rfl
    | some directory =>
      rw [Option.map_some, fallback, Option.elim_none]
      cases hfile : files.isFile (directory.join ⟨"config.toml"⟩) with
      | true =>
        rw [Option.filter_some_pos hfile]
        rfl
      | false =>
        rw [Option.filter_some_neg hfile]
        rfl

theorem fallback_ne_project (files : FileSystem) (userDirectory : Option Path) (file : Path) :
    fallback files userDirectory ≠ project file := by
  cases userDirectory with
  | none => exact nofun
  | some directory =>
    rw [fallback]
    split <;> exact nofun

namespace SearchRange

variable (h : SearchRange files target start last)
  (hworking : ∀ name ∈ files.workingDirectory, IsName name)
include h hworking

theorem resolve_eq_project_iff (userDirectory : Option Path) (file : Path) :
    resolve files userDirectory none target = .project file ↔
      IsNearestFile files.tree start last file := by
  rw [resolve_none, ← h.nearestProjectFile?_eq_some_iff hworking]
  cases nearestProjectFile? files (searchStart files target).ancestors with
  | some found => rw [Option.elim_some, project.injEq, Option.some.injEq]
  | none => exact iff_of_false (fallback_ne_project files userDirectory file) nofun

/-- The search finds the same project file as long as nothing changes below the last directory. -/
theorem nearestProjectFile?_of_sameBelow
    (hrepository : (files.tree.at? (start.rdrop last ++ [".git"])).isSome = true)
    (hsame : SameBelow (start.rdrop last) tree' files.tree) :
    nearestProjectFile? { files with tree := tree' }
        (searchStart { files with tree := tree' } target).ancestors =
      nearestProjectFile? files (searchStart files target).ancestors := by
  apply Option.ext
  intro file
  rw [(h.of_sameBelow hrepository hsame).nearestProjectFile?_eq_some_iff hworking,
    h.nearestProjectFile?_eq_some_iff hworking, hsame.isNearestFile_iff]

theorem resolve_eq_fallback
    (hnone : ∀ k ≤ last, ∀ name, ¬IsProjectFile files.tree (start.rdrop k) name) :
    resolve files userDirectory none target = fallback files userDirectory := by
  have hnearest : nearestProjectFile? files (searchStart files target).ancestors = none := by
    rw [Option.eq_none_iff_forall_ne_some]
    intro file hfile
    obtain ⟨k, hk, name, hname, -⟩ := (h.nearestProjectFile?_eq_some_iff hworking).mp hfile
    exact hnone k hk name hname
  rw [resolve_none, hnearest, Option.elim_none]

end SearchRange

/-- For a target that exists, the search goes from its directory outwards up to the first one that holds
a repository, and takes the nearest project file. -/
theorem exists_isResolved (hworking : ∀ name ∈ files.workingDirectory, IsName name)
    (htarget : files.contains target = true) (userDirectory : Option Path) :
    ∃ start last, SearchRange files target start last ∧
      IsResolved files userDirectory target start last := by
  obtain ⟨start, last, hrange⟩ := exists_searchRange htarget
  refine ⟨start, last, hrange, ?_⟩
  refine ⟨fun _ => rfl, hrange.resolve_eq_project_iff hworking userDirectory,
    hrange.resolve_eq_fallback hworking, ?_⟩
  intro hrepository tree' hsame huser
  have hfallback :
      fallback { files with tree := tree' } userDirectory = fallback files userDirectory := by
    cases userDirectory with
    | none => rfl
    | some directory => rw [fallback, fallback, huser directory rfl]
  rw [resolve_none, resolve_none, hfallback,
    hrange.nearestProjectFile?_of_sameBelow hworking hrepository hsame]

theorem exists_isResolved_checkout :
    let source : FileTree := .directory [("m.cpp", .file [])]
    let checkout : FileTree :=
      .directory [(".git", .directory []), ("cxxlint.toml", .file []), ("src", source)]
    let files : FileSystem :=
      { tree := .directory [("checkout", checkout), ("cxxlint.toml", .file [])]
        workingDirectory := ["checkout"] }
    (∀ name ∈ files.workingDirectory, IsName name) ∧ files.contains ⟨"src/m.cpp"⟩ = true ∧
      ∃ start last, SearchRange files ⟨"src/m.cpp"⟩ start last ∧
        IsResolved files (some ⟨"/"⟩) ⟨"src/m.cpp"⟩ start last := by
  intro source checkout files
  have hworking : ∀ name ∈ files.workingDirectory, IsName name := by
    intro name hname
    rw [List.mem_singleton.mp hname]
    exact ⟨by decide, by decide⟩
  have htarget : files.contains ⟨"src/m.cpp"⟩ = true := by decide +kernel
  exact ⟨hworking, htarget, exists_isResolved hworking htarget (some ⟨"/"⟩)⟩

/-- The user's own file may lie above the repository, where it is not found by the search. -/
theorem resolve_user_above :
    let checkout : FileTree := .directory [(".git", .directory [])]
    let files : FileSystem := { tree := .directory [("checkout", checkout)] }
    let tree' : FileTree := .directory [("checkout", checkout), ("config.toml", .file [])]
    SearchRange files ⟨"/checkout"⟩ ["checkout"] 0 ∧ SameBelow ["checkout"] tree' files.tree ∧
      resolve files (some ⟨"/"⟩) none ⟨"/checkout"⟩ = standard ∧
      resolve { files with tree := tree' } (some ⟨"/"⟩) none ⟨"/checkout"⟩ =
        user ⟨"/config.toml"⟩ := by
  intro checkout files tree'
  have hdirectories : tree'.HasDirectories files.tree := by
    rintro (_ | ⟨name, names⟩) entries hentries
    · exact ⟨_, rfl⟩
    · by_cases hname : name = "checkout"
      · subst hname
        exact ⟨entries, hentries⟩
      · have hnone : files.tree.child? name = none := by
          rw [FileTree.child?, FileTree.entries, List.lookup_cons, beq_eq_false_iff_ne.mpr hname]
          rfl
        rw [FileTree.at?, hnone] at hentries
        cases hentries
  have hrange : SearchRange files ⟨"/checkout"⟩ ["checkout"] 0 :=
    ⟨⟨["checkout"], checkout, by decide +kernel, rfl, rfl⟩, by decide,
      fun k hk => absurd hk k.not_lt_zero, .inr rfl⟩
  exact ⟨hrange, ⟨rfl, hdirectories⟩, by decide +kernel, by decide +kernel⟩

end ConfigSource
end BracketLint
