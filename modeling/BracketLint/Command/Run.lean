import BracketLint.Command
import BracketLint.ConfigSource
import BracketLint.Ignore.Settings
import BracketLint.Linter

/-!
What the program does when it is called: its exit status, what it prints, and the files it writes.
-/

namespace BracketLint

/-- The surroundings of a call: the file system, the user's home, and the directory that holds the
user's configuration if it is not below the home. -/
structure Environment where
  files : FileSystem
  home : Option Path := none
  configDirectory : Option Path := none

/-- What a call comes to. -/
structure Outcome where
  status : Nat := 0
  output : String := ""
  errors : String := ""
  written : List (Path × String) := []
  deriving DecidableEq, Repr

namespace Environment

/-- The directory with the user's configuration. -/
def userDirectory? (environment : Environment) : Option Path :=
  environment.configDirectory.or (environment.home.map fun home => home.join ⟨".cxxlint"⟩)

/-- The files with the user's settings of Git, the preferred one first. -/
def settingsFiles (home : Path) : List Path :=
  [home.join ⟨".gitconfig"⟩, home.join ⟨".config/git/config"⟩]

/-- The path of the ignore file that the user keeps for all repositories: the one that settings name,
or the usual one. -/
def userIgnorePath (environment : Environment) (home : Path) : Path :=
  let named := (settingsFiles home).findSome? fun file =>
    match environment.files.read file with
    | .ok settings => Ignore.Settings.excludesFile? home settings
    | .error _ => none
  named.getD (home.join ⟨".config/git/ignore"⟩)

/-- The ignore file that the user keeps for all repositories. -/
def userIgnoreFile (environment : Environment) : Ignore.File :=
  match environment.home.map fun home => environment.files.read (environment.userIgnorePath home) with
  | some (.ok content) => .ofContent content
  | _ => {}

/-- The source of the configuration for a path. -/
def configSource (environment : Environment) (asked : Option Path) (target : Path) : ConfigSource :=
  ConfigSource.resolve environment.files environment.userDirectory? asked target

end Environment

namespace Outcome

open Text (line)

/-- A call that fails, with a message and what lies behind it. -/
def failure (message : String) (cause : Option String) : Outcome where
  status := 1
  errors := line ("Error: " ++ message) ++
    match cause with
    | some cause => line "" ++ line "Caused by:" ++ line ("    " ++ cause)
    | none => ""

/-- The failure to read a configuration. -/
def badConfig (source : ConfigSource) : Outcome :=
  failure ("Failed to load config: " ++ (source.file?.map (·.text)).getD "") none

end Outcome

namespace Command

open Text (line)

/-- The first lines of the text about the program. -/
def usage : String := line "Usage: cxxlint [OPTIONS] <COMMAND>"

/-- The text about the program. -/
def help : String :=
  line "Structural linter for C++ sources" ++ line "" ++ usage ++ line "" ++ line "Commands:" ++
    line "  check       Run lint checks" ++ line "  list-rules  List available rules" ++
    line "  init        Initialize configuration file" ++
    line "  tree        Print the classified bracket groups of one file"

/-- The name and the version of the program. -/
def version : String := line "cxxlint 0.3.0"

/-- The rules that a list of names asks for, or those of the configuration. -/
def rulesFor (config : Config) : Option String → List Rule
  | some names => (Text.namesBetweenCommas names.toList).filterMap config.ruleNamed?
  | none => config.selectedRules

/-- Checks the files below a path. The call fails when a violation reaches the threshold. -/
def runCheck (environment : Environment) (source : ConfigSource) (path : Path)
    (format : ReportFormat) (rules : Option String) (excludes : List String) : Outcome :=
  let files := environment.files
  match source.load? files with
  | none => .badConfig source
  | some config =>
    match Linter.ofConfig config (rulesFor config rules) files.here (some path) excludes false with
    | .error fault => .failure "Failed to build analyzer" (some fault.message)
    | .ok linter =>
      match linter.report environment.userIgnoreFile files with
      | .error failure => .failure "Analysis failed" (some failure.message)
      | .ok report =>
        { status := if report.reaches config.failThreshold then 1 else 0
          output := report.render format files linter.root }

/-- A text filled up with blanks to some width. -/
def padded (width : Nat) (text : String) : String :=
  text ++ String.ofList (List.replicate (width - text.length) ' ')

/-- A row of the table of rules. -/
def row (code name description : String) : String :=
  line (padded 10 code ++ " " ++ padded 25 name ++ " " ++ description)

/-- The table of rules, and what can be done with them. -/
def ruleTable : String :=
  line "Available rules:" ++ line "" ++ row "Code" "Name" "Description" ++
    line (String.ofList (List.replicate 80 '-')) ++
    String.join (Rule.all.map fun rule => row rule.code rule.name rule.description) ++ line "" ++
    line "Presets:" ++
    line "  recommended  - CX001, CX002, CX003, CX004 (default)" ++
    line "  strict       - All rules, routine-length 80, nesting-depth 4" ++
    line "  minimal      - CX001 only (for gradual adoption)" ++ line "" ++
    line "Use --rules to filter specific rules, e.g.:" ++
    line "  cxxlint check --rules bracket-structure,routine-length" ++
    line "  cxxlint check --rules CX001,CX005"

/-- The file that a new configuration is written to. -/
def configFile : Path := ⟨"cxxlint.toml"⟩

/-- The text of a new configuration. -/
def newConfig : String := String.join <| List.map line <|
  ["# cxxlint configuration",
    "",
    "# Rule set: \"recommended\", \"strict\" or \"minimal\"",
    "preset = \"recommended\"",
    "",
    "# Lowest severity that makes `cxxlint check` exit with status 1",
    "fail_on = \"error\"",
    "",
    "[analyzer]",
    "# Root directory to analyze (default: current directory)",
    "# root = \"./src\"",
    "",
    "# Glob patterns to exclude from analysis",
    "exclude = [",
    "    \"**/build/**\",",
    "    \"**/third_party/**\",",
    "]",
    "",
    "# File extensions treated as C++ sources",
    "extensions = [\"h\", \"hh\", \"hpp\", \"hxx\", \"inl\", \"c\", \"cc\", \"cpp\", \"cxx\"]",
    "",
    "# Respect .gitignore files",
    "respect_gitignore = true",
    "",
    "[scrub]",
    "# Lines longer than this are reported by source-hygiene",
    "max_line_length = 79",
    "",
    "# Extra leading words that mark a wrapped assertion macro",
    "# assert_markers = [\"MY_ASSERT\"]",
    "",
    "# Rule configurations",
    "# Each rule can be enabled/disabled and have its severity overridden",
    "",
    "[rules.routine-length]",
    "enabled = true",
    "# severity = \"error\"  # Override default severity",
    "max_lines = 150",
    "allow_in_tests = true",
    "",
    "# [rules.nesting-depth]",
    "# enabled = true",
    "# max_depth = 5",
    "",
    "# [rules.strange-context]",
    "# ignore_macros = [\"BEGIN_MESSAGE_MAP\"]"]

/-- Writes a new configuration, over another one only if it is forced to. -/
def runInit (files : FileSystem) (force : Bool) : Outcome :=
  if files.contains configFile && !force then
    .failure ("Configuration file already exists at " ++ configFile.text ++
      ". Use --force to overwrite.") none
  else if files.isDirectory configFile then
    .failure ("Failed to write " ++ configFile.text) (some ReadFailure.isDirectory.message)
  else
    { output := line ("Created " ++ configFile.text) ++ line "" ++ line "Next steps:" ++
        line "  1. Edit cxxlint.toml to configure rules" ++ line "  2. Run: cxxlint check"
      written := [(configFile, newConfig)] }

/-- A diagnostic about a file, on one line. -/
def diagnosticLine (file : Path) (d : Diagnostic) : String :=
  line (file.text ++ ":" ++ d.place.render ++ ": " ++ d.severity.name ++ " (" ++ d.stage.name ++
    "): " ++ d.message)

/-- Prints the bracket groups of a file, and what was found on the way. -/
def runTree (files : FileSystem) (source : ConfigSource) (file : Path) : Outcome :=
  match source.load? files with
  | none => .badConfig source
  | some config =>
    match files.read file with
    | .error failure =>
      .failure ("Failed to analyze " ++ file.text) (some (LintFailure.read file failure).message)
    | .ok content =>
      let analysis := Analysis.ofSource content.repaired (FileKind.ofPath file) config.scrub
      { output := analysis.render
        errors := String.join (analysis.diagnostics.map (diagnosticLine file)) }

/-- What an invocation comes to. The configuration belongs to the checked path. -/
def run (environment : Environment) (invocation : Invocation) : Outcome :=
  let source := environment.configSource invocation.config
  match invocation.command with
  | .check path format rules excludes =>
    runCheck environment (source path) path format rules excludes
  | .listRules => { output := ruleTable }
  | .init force => runInit environment.files force
  | .tree file => runTree environment.files (source file) file

/-- What a command line comes to. -/
def call (environment : Environment) (arguments : List String) : Outcome :=
  match parse arguments with
  | .ok invocation => run environment invocation
  | .error .help => { output := help }
  | .error .version => { output := version }
  | .error .misuse => { status := 2, errors := usage }

end Command
end BracketLint
