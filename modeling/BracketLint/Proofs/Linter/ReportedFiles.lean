import BracketLint.Proofs.FileTree
import BracketLint.Proofs.Linter.Batches
import BracketLint.Proofs.Linter.Excludes

/-!
The file that a violation names. A report shows the path of a file from the root on. Below a directory
this path is not empty, ends in the name of the file, and leads from the root to the file again. When
the root is the file itself, nothing is left of the path, and the report does not say which file it
means.
-/

namespace BracketLint

namespace FileSystem

/-- A path as reports show it identifies the file at `path`: it is not empty, its last component is the
name of the file, and from the root, which is a directory, it leads to the file. -/
structure Identifies (files : FileSystem) (root path file : Path) : Prop where
  isDirectory : files.isDirectory root = true
  text_ne : file.text ≠ ""
  fileName? : ∃ names name, files.locate path = .ok (names ++ [name]) ∧ file.fileName? = some name
  locate_join : files.locate (root.join file) = files.locate path

/-- The path of a file with components behind those of an absolute root identifies it. -/
theorem exists_identifies {files : FileSystem} {root path : Path} {behind : List Path.Component}
    {content : Bytes} (hroot : root.isAbsolute = true)
    (hpath : path.components = root.components ++ behind) (hbehind : behind ≠ [])
    (hread : files.read path = .ok content) :
    ∃ file, path.relativeTo? root = some file ∧ files.Identifies root path file := by
  obtain ⟨file, hrelative, htext, habsolute, hfile, hjoin, hlast⟩ :=
    Path.exists_relativeTo?_of_ne_nil hroot hpath hbehind
  obtain ⟨names, hlocate, hcontent⟩ := exists_locate_of_read hread
  have hfollow := follow_of_locate hlocate
  have hstep (c : Path.Component) (hc : c ∈ behind) : c = .parent ∨ ∃ name, c = .normal name := by
    apply Path.eq_parent_or_normal_of_mem_names (p := path)
    have hnames : path.components = .root :: path.names := by
      apply Path.components_of_isAbsolute
      apply Path.isAbsolute_of_root_mem
      rw [hpath, Path.components_of_isAbsolute hroot]
      exact List.mem_cons_self
    rw [hpath, Path.components_of_isAbsolute hroot, List.cons_append, List.cons.injEq] at hnames
    rw [← hnames.2]
    exact List.mem_append_right _ hc
  refine ⟨file, hrelative, ?_, htext, ?_, ?_⟩
  · -- The first step behind the root is taken from it.
    obtain ⟨first, steps, rfl⟩ := List.exists_cons_of_ne_nil hbehind
    rw [hpath, follow_append] at hfollow
    cases hfront : follow files.tree files.workingDirectory root.components with
    | error failure =>
      rw [hfront] at hfollow
      cases hfollow
    | ok front =>
      rw [hfront] at hfollow
      obtain ⟨entries, hentries⟩ :=
        exists_directory_of_follow (hstep first List.mem_cons_self) hfollow
      rw [isDirectory, node?, locate_of_follow (text_ne_of_isAbsolute hroot) hfront hentries]
      simp only [hentries]
      rfl
  · obtain ⟨steps, last, rfl⟩ := List.eq_nil_or_concat'  behind |>.resolve_left hbehind
    rw [hpath, ← List.append_assoc] at hfollow
    obtain ⟨name, hname, hnames⟩ := getLast?_of_follow
      (hstep last (List.mem_append_right _ List.mem_cons_self)) hfollow hcontent
    obtain ⟨front, rfl⟩ := List.getLast?_eq_some_iff.mp hnames
    refine ⟨front, name, hlocate, ?_⟩
    rw [Path.fileName?, hfile, hname, List.getLast?_concat]
  · rw [locate_of_not_isSkipped (text_ne_of_isAbsolute (Path.isAbsolute_join hroot habsolute)) hlast,
      hjoin, hfollow, hlocate]

end FileSystem

namespace Ignore

section

variable {respectGit : Bool} {user : UserFile}

theorem mem_filesInEntries {layers : List Layer} {names : List String} {path found : Path}
    {entries : List (String × FileTree)}
    (h : found ∈ filesInEntries respectGit user layers names path entries) :
    ∃ entry ∈ entries,
      found ∈ filesIn respectGit user layers (names ++ [entry.1]) (path.join ⟨entry.1⟩) entry.2 := by
  induction entries with
  | nil =>
    rw [filesInEntries] at h
    cases h
  | cons entry entries ih =>
    obtain ⟨name, tree⟩ := entry
    rw [filesInEntries, List.mem_append] at h
    rcases h with h | h
    · split at h
      · cases h
      · exact ⟨(name, tree), List.mem_cons_self, h⟩
    · obtain ⟨entry, hentry, hfound⟩ := ih h
      exact ⟨entry, List.mem_cons_of_mem _ hentry, hfound⟩

/-- A walk stays below the path that it starts from. -/
theorem prefix_of_mem_filesIn {tree : FileTree} (htree : tree.HasPlainNames) {layers : List Layer}
    {names : List String} {path found : Path} (hpath : path.isAbsolute = true)
    (h : found ∈ filesIn respectGit user layers names path tree) :
    path.components <+: found.components := by
  induction htree generalizing layers names path with
  | file content =>
    rw [filesIn, List.mem_singleton] at h
    exact h ▸ List.prefix_rfl
  | directory hnames _ ih =>
    rw [filesIn] at h
    obtain ⟨⟨name, sub⟩, hentry, hfound⟩ := mem_filesInEntries h
    have hname : Path.isAbsolute ⟨name⟩ = false := by
      rw [Path.isAbsolute, beq_eq_false_iff_ne]
      intro hslash
      exact hnames (name, sub) hentry (List.mem_of_head? hslash)
    have hbelow := ih (name, sub) hentry (Path.isAbsolute_join hpath hname) hfound
    refine List.IsPrefix.trans ⟨Path.names ⟨name⟩, ?_⟩ hbelow
    rw [Path.components_of_isAbsolute hpath,
      Path.components_of_isAbsolute (Path.isAbsolute_join hpath hname), Path.names_join hpath hname]
    rfl

end

/-- The files that a walk finds have the components of its root in front. -/
theorem prefix_of_walk? {respectGit : Bool} {user : File} {files : FileSystem} {root : Path}
    {paths : List Path} (hroot : root.isAbsolute = true) (htree : files.tree.HasPlainNames)
    (h : walk? respectGit user files root = some paths) {path : Path} (hpath : path ∈ paths) :
    root.components <+: path.components := by
  unfold walk? at h
  split at h
  · cases h
  next names hnames =>
    split at h
    · cases h
    · cases h
      exact List.mem_singleton.mp hpath ▸ List.prefix_rfl
    next entries hentries =>
      dsimp only at h
      split at h
      · cases h
      · cases h
        exact prefix_of_mem_filesIn (htree.at? hentries) hroot hpath

end Ignore

namespace Linter

variable {config : Config} {rules : List Rule} {files : FileSystem} {root : Option Path}
  {excludes : List String} {failOnReadError : Bool} {linter : Linter}

/-- Every root is taken from the working directory on. -/
theorem isAbsolute_root_of_ofConfig
    (h : ofConfig config rules files.here root excludes failOnReadError = .ok linter) :
    linter.root.isAbsolute = true := by
  unfold ofConfig at h
  cases hglobs : (excludeTexts excludes config).mapM Glob.parse with
  | error fault =>
    rw [hglobs] at h
    cases h
  | ok globs =>
    rw [hglobs] at h
    cases h
    cases hroot : (root.getD config.analyzer.root).isAbsolute with
    | true =>
      rw [Path.join, hroot]
      exact hroot
    | false => exact Path.isAbsolute_join (FileSystem.isAbsolute_here files) hroot

/-- Every violation of a report was found in a file that could be read. -/
theorem exists_of_mem_reportOnAll {read : Path → Except ReadFailure Bytes} {paths : List Path}
    {report : Report} (h : linter.reportOnAll read paths = .ok report) {v : Violation}
    (hv : v ∈ report.violations) :
    ∃ path ∈ paths, ∃ content, read path = .ok content ∧ v ∈ linter.findings path content := by
  unfold reportOnAll at h
  cases hreports : paths.mapM (linter.reportOn read) with
  | error failure =>
    rw [hreports] at h
    cases h
  | ok reports =>
    rw [hreports] at h
    cases h
    change v ∈ (reports.foldl Report.append {}).violations.mergeSort Report.comesBefore at hv
    rw [List.mem_mergeSort, Report.foldl_append, List.nil_append] at hv
    obtain ⟨single, hsingle, hv⟩ := List.mem_flatMap.mp hv
    obtain ⟨path, hpath, hreport⟩ := Glob.exists_of_mem_mapM hreports hsingle
    refine ⟨path, hpath, ?_⟩
    unfold reportOn at hreport
    split at hreport
    next content hcontent =>
      cases hreport
      exact ⟨content, hcontent, hv⟩
    next =>
      split at hreport
      · cases hreport
      · cases hreport
        cases hv

/-- Every violation of a report belongs to a file below the root that was found and read. Below a root
that is a directory its file is identified; where the root is the file, the reported path is empty. -/
theorem location_file_of_findings {user : Ignore.File}
    (hlinter : ofConfig config rules files.here root excludes failOnReadError = .ok linter)
    (htree : files.tree.HasPlainNames) :
    (∀ report, linter.report user files = .ok report → ∀ v ∈ report.violations,
      ∃ paths path content, linter.sources? user files = some paths ∧ path ∈ paths ∧
        linter.root.components <+: path.components ∧ files.read path = .ok content ∧
        v ∈ linter.findings path content) ∧
    ∀ path content, linter.root.components <+: path.components →
      files.read path = .ok content → ∀ v ∈ linter.findings path content,
        if path.components = linter.root.components then v.location.file = ⟨""⟩
        else files.Identifies linter.root path v.location.file := by
  have hroot := isAbsolute_root_of_ofConfig hlinter
  constructor
  · intro report hreport v hv
    unfold Linter.report at hreport
    cases hsources : linter.sources? user files with
    | none =>
      rw [hsources] at hreport
      cases hreport
    | some paths =>
      rw [hsources] at hreport
      obtain ⟨path, hpath, content, hread, hv⟩ := exists_of_mem_reportOnAll hreport hv
      refine ⟨paths, path, content, rfl, hpath, ?_, hread, hv⟩
      obtain ⟨found, hfound, rfl⟩ := Option.map_eq_some_iff.mp hsources
      have hmem := (List.mem_filter.mp (List.mem_mergeSort.mp hpath)).1
      exact Ignore.prefix_of_walk? hroot htree hfound hmem
  · intro path content hprefix hread v hv
    obtain ⟨behind, hbehind⟩ := hprefix
    rw [file_of_mem_findings hv, relative]
    split
    next heq => rw [Path.relativeTo?_of_components_eq hroot heq, Option.getD_some]
    next hne =>
      have hsteps : behind ≠ [] := by
        rintro rfl
        exact hne (hbehind.symm.trans (List.append_nil _))
      obtain ⟨file, hrelative, hidentifies⟩ :=
        FileSystem.exists_identifies hroot hbehind.symm hsteps hread
      rwa [hrelative, Option.getD_some]

/-- A file system with one file, which holds a tab. -/
def tabbed : FileSystem where
  tree := .directory [("src", .directory [("m.cpp", .file [9])])]

theorem hasPlainNames_tabbed : tabbed.tree.HasPlainNames := by
  refine .directory (by decide) ?_
  intro entry hentry
  cases List.mem_singleton.mp hentry
  refine .directory (by decide) ?_
  intro entry hentry
  cases List.mem_singleton.mp hentry
  exact .file [9]

/-- The linter for a root that looks for tabs. -/
def forTabs (root : Path) : Linter := { standard with root, rules := [.sourceHygiene true] }

theorem ofConfig_forTabs (here root : Path) :
    ofConfig {} [.sourceHygiene true] here (some root) [] false = .ok (forTabs (here.join root)) := by
  have hglobs : (excludeTexts [] {}).mapM Glob.parse = .ok (standardDirectories.map Glob.below) :=
    mapM_parse_standardExcludes
  rw [ofConfig, hglobs]
  rfl

theorem location_file_of_findings_src :
    ofConfig {} [.sourceHygiene true] tabbed.here (some ⟨"src"⟩) [] false =
        .ok (forTabs ⟨"/src"⟩) ∧
      tabbed.tree.HasPlainNames ∧ tabbed.read ⟨"/src/m.cpp"⟩ = .ok [9] ∧
      ∃ v ∈ (forTabs ⟨"/src"⟩).findings ⟨"/src/m.cpp"⟩ [9],
        tabbed.Identifies ⟨"/src"⟩ ⟨"/src/m.cpp"⟩ v.location.file := by
  have hlinter : ofConfig {} [.sourceHygiene true] tabbed.here (some ⟨"src"⟩) [] false =
      .ok (forTabs ⟨"/src"⟩) := ofConfig_forTabs tabbed.here ⟨"src"⟩
  have hread : tabbed.read ⟨"/src/m.cpp"⟩ = .ok [9] := by decide +kernel
  have hfindings : (forTabs ⟨"/src"⟩).findings ⟨"/src/m.cpp"⟩ [9] ≠ [] := by decide +kernel
  obtain ⟨v, hv⟩ := List.exists_mem_of_ne_nil _ hfindings
  have hfile := (@location_file_of_findings _ _ _ _ _ _ _ {} hlinter hasPlainNames_tabbed).2
    ⟨"/src/m.cpp"⟩ [9] (by decide +kernel) hread v hv
  rw [if_neg (by decide +kernel)] at hfile
  exact ⟨hlinter, hasPlainNames_tabbed, hread, v, hv, hfile⟩

/-- The report on a root that is a file does not say which file it means. -/
theorem location_file_of_findings_root :
    ofConfig {} [.sourceHygiene true] tabbed.here (some ⟨"src/m.cpp"⟩) [] false =
        .ok (forTabs ⟨"/src/m.cpp"⟩) ∧
      (forTabs ⟨"/src/m.cpp"⟩).sources? {} tabbed = some [⟨"/src/m.cpp"⟩] ∧
      tabbed.read ⟨"/src/m.cpp"⟩ = .ok [9] ∧
      ((forTabs ⟨"/src/m.cpp"⟩).findings ⟨"/src/m.cpp"⟩ [9]).map (·.location.file) = [⟨""⟩] :=
  ⟨ofConfig_forTabs tabbed.here ⟨"src/m.cpp"⟩, by decide +kernel, by decide +kernel,
    by decide +kernel⟩
end Linter
end BracketLint
