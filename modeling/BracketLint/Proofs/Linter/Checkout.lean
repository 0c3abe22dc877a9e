import BracketLint.Linter
import BracketLint.Proofs.Path

/-!
Where a tree is checked out. A rule sees the path of a file as written from the root on, and its
role. The role is read off the whole path, so it is all that what lies above the root can change.
-/

namespace BracketLint

namespace FileKind

/-- Whether a part of a path has a name that makes all files below it test drivers. -/
def liesInTests (p : Path) : Bool :=
  p.components.any fun c => c == .normal "tests" || c == .normal "test"

theorem liesInTests_eq_any_names (p : Path) :
    liesInTests p = p.names.any fun c => c == .normal "tests" || c == .normal "test" := by
  have hstart : (p.start?.toList.any fun c => c == .normal "tests" || c == .normal "test") = false := by
    unfold Path.start?
    split
    · rfl
    · split <;> rfl
  rw [liesInTests, Path.components, ← Path.names, List.any_append, hstart, Bool.false_or]

section Join

variable {root path : Path} (hroot : root.isAbsolute = true) (hpath : path.isAbsolute = false)
include hroot hpath

theorem liesInTests_join : liesInTests (root.join path) = (liesInTests root || liesInTests path) := by
  rw [liesInTests_eq_any_names, Path.names_join hroot hpath, List.any_append,
    ← liesInTests_eq_any_names, ← liesInTests_eq_any_names]

/-- A file below a root has the role that its path gives it, unless the root lies in tests. -/
theorem ofPath_join (hfile : path.fileName?.isSome = true) :
    ofPath (root.join path) = if liesInTests root then testDriver else ofPath path := by
  have hname := Path.fileName?_join hroot hpath hfile
  have hextension : (root.join path).extension? = path.extension? := by
    rw [Path.extension?, hname, Path.extension?]
  have hopen (p : Path) : ofPath p =
      if liesInTests p then testDriver
      else if p.fileName?.any isTestName then testDriver
      else if p.extension?.any headerExtensions.contains then header
      else implementation := rfl
  rw [hopen (root.join path), hopen path, liesInTests_join hroot hpath, hname, hextension]
  cases liesInTests root <;> rfl

end Join

end FileKind

/-- Two views of one file that may differ in its whole path. -/
structure FileContext.Agrees (file file' : FileContext) : Prop where
  relative : file.relative = file'.relative
  kind : file.kind = file'.kind
  content : file.content = file'.content

/-- No rule reads the whole path of a file. -/
theorem Rule.check_agrees (rule : Rule) (analysis : Analysis) {file file' : FileContext}
    (h : file.Agrees file') : rule.check file analysis = rule.check file' analysis := by
  obtain ⟨path, relative, kind, content⟩ := file
  obtain ⟨path', relative', kind', content'⟩ := file'
  cases h.relative
  cases h.kind
  cases h.content
  cases rule <;> rfl

namespace Linter

/-- What the rules report about a file depends on its path from the root on, its role and its
content. -/
theorem findings_congr {linter linter' : Linter} {path path' : Path} (content : Bytes)
    (hrules : linter.rules = linter'.rules) (hconfig : linter.config = linter'.config)
    (hrelative : (path.relativeTo? linter.root).getD path =
      (path'.relativeTo? linter'.root).getD path')
    (hkind : FileKind.ofPath path = FileKind.ofPath path') :
    linter.findings path content = linter'.findings path' content := by
  have hfile : (FileContext.ofFile path linter.root content.repaired).Agrees
      (FileContext.ofFile path' linter'.root content.repaired) := ⟨hrelative, hkind, rfl⟩
  unfold findings
  simp only [hrules, hconfig, hfile.kind]
  apply List.flatMap_congr
  intro rule hrule
  unfold findingsOf
  rw [hconfig, rule.check_agrees _ hfile]

/-- The same file below two roots is reported on alike, if both roots lie in tests or none does, or
if the path itself makes the file a test driver. -/
theorem findings_join (linter : Linter) {root root' path : Path} (content : Bytes)
    (hroot : root.isAbsolute = true) (hroot' : root'.isAbsolute = true)
    (hpath : path.isAbsolute = false) (hfile : path.fileName?.isSome = true)
    (htests : FileKind.ofPath path = .testDriver ∨
      FileKind.liesInTests root = FileKind.liesInTests root') :
    { linter with root := root }.findings (root.join path) content =
      { linter with root := root' }.findings (root'.join path) content := by
  have hrelative : ((root.join path).relativeTo? root).getD (root.join path) =
      ((root'.join path).relativeTo? root').getD (root'.join path) := by
    rw [Path.relativeTo?_join hroot hpath, Path.relativeTo?_join hroot' hpath]
    rfl
  have hkind : FileKind.ofPath (root.join path) = FileKind.ofPath (root'.join path) := by
    rw [FileKind.ofPath_join hroot hpath hfile, FileKind.ofPath_join hroot' hpath hfile]
    rcases htests with htest | hroots
    · rw [htest, ite_self, ite_self]
    · rw [hroots]
  exact findings_congr content rfl rfl hrelative hkind

theorem findings_join_moved :
    let linter : Linter :=
      { root := ⟨"/"⟩, rules := [.sourceHygiene true], excludes := [], config := {} }
    Path.isAbsolute ⟨"/a"⟩ = true ∧ Path.isAbsolute ⟨"/b/"⟩ = true ∧
      { linter with root := ⟨"/a"⟩ }.findings (Path.join ⟨"/a"⟩ ⟨"src/m.cpp"⟩) [9] =
        { linter with root := ⟨"/b/"⟩ }.findings (Path.join ⟨"/b/"⟩ ⟨"src/m.cpp"⟩) [9] :=
  ⟨by decide +kernel, by decide +kernel,
    findings_join _ [9] (by decide +kernel) (by decide +kernel) (by decide +kernel)
      (by decide +kernel) (.inr (by decide +kernel))⟩

/-- A tab in a tree that is checked out below tests is not reported, where the rule leaves test
drivers alone. -/
theorem findings_join_ne_in_tests :
    let linter : Linter :=
      { root := ⟨"/"⟩, rules := [.sourceHygiene true], excludes := [], config := {} }
    { linter with root := ⟨"/a"⟩ }.findings (Path.join ⟨"/a"⟩ ⟨"m.cpp"⟩) [9] ≠
      { linter with root := ⟨"/tests"⟩ }.findings (Path.join ⟨"/tests"⟩ ⟨"m.cpp"⟩) [9] := by
  decide +kernel

end Linter
end BracketLint
