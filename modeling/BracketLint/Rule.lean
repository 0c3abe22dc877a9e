import BracketLint.Analysis
import BracketLint.FileContext

/-!
The rules. Each rule reads an analysed file and reports violations; some have limits and words that a
configuration can set.
-/

namespace BracketLint

/-- One of the five built-in rules, with its settings. A statement about every rule, or about every
list of rules, is about these five; rules that another program may add are not among them. -/
inductive Rule
  /-- Brackets that fit nowhere. -/
  | bracketStructure
  /-- Groups whose role could not be decided, those behind some words aside. -/
  | strangeContext (allowInTests : Bool) (ignoredWords : List String)
  /-- What the scrubbing found. -/
  | sourceHygiene (allowInTests : Bool)
  /-- The lines of a routine's body. -/
  | routineLength (maxLines : Nat) (allowInTests : Bool) (severity : Severity)
  /-- The nesting of blocks in a routine. -/
  | nestingDepth (maxDepth : Nat) (allowInTests : Bool) (severity : Severity)
  deriving DecidableEq, Repr

namespace Rule

/-- The name of a rule. -/
def name : Rule → String
  | bracketStructure => "bracket-structure"
  | strangeContext .. => "strange-context"
  | sourceHygiene .. => "source-hygiene"
  | routineLength .. => "routine-length"
  | nestingDepth .. => "nesting-depth"

/-- The code of a rule. -/
def code : Rule → String
  | bracketStructure => "CX001"
  | strangeContext .. => "CX002"
  | sourceHygiene .. => "CX003"
  | routineLength .. => "CX004"
  | nestingDepth .. => "CX005"

/-- What a rule does, in a few words. -/
def description : Rule → String
  | bracketStructure => "Reports unmatched, mismatched and unclosed brackets"
  | strangeContext .. => "Reports brackets in a context the classifier does not recognize"
  | sourceHygiene .. => "Reports tabs, long lines, unterminated literals and comments"
  | routineLength .. => "Limits the number of lines in a routine body"
  | nestingDepth .. => "Limits nesting of code blocks inside a routine"

/-- The severity of a rule, if nothing else is configured. -/
def severity : Rule → Severity
  | bracketStructure => .error
  | strangeContext .. | sourceHygiene .. => .warning
  | routineLength _ _ severity | nestingDepth _ _ severity => severity

/-- Whether a directive that allows breaking the rule has to give a reason. -/
def requiresReason (rule : Rule) : Bool := rule.severity == .error

/-- Whether a rule leaves test drivers alone. -/
def allowsInTests : Rule → Bool
  | bracketStructure => false
  | strangeContext allow _ | sourceHygiene allow | routineLength _ allow _
  | nestingDepth _ allow _ => allow

/-- The rules with their usual settings. -/
def all : List Rule :=
  [bracketStructure, strangeContext false [], sourceHygiene false,
    routineLength 150 true .warning, nestingDepth 5 false .warning]

/-- The violation that a diagnostic is. -/
def ofDiagnostic (rule : Rule) (file : FileContext) (d : Diagnostic) : Violation where
  code := rule.code
  rule := rule.name
  severity := d.severity
  location := file.location d.place
  message := d.message

/-- The diagnostics of a stage. -/
def stageDiagnostics (stage : Stage) (analysis : Analysis) : List Diagnostic :=
  analysis.diagnostics.filter (·.stage == stage)

/-- Whether a diagnostic is about a group that opens right at it behind one of some words. -/
def isIgnored (words : List String) (analysis : Analysis) (d : Diagnostic) : Bool :=
  !words.isEmpty &&
    (analysis.tree.group? (analysis.tree.groupAt d.place)).any fun group =>
      group.opened == d.place && words.contains group.word.text

/-- Whether a group lies inside the body of a routine. -/
def isInsideRoutine (analysis : Analysis) (id : Nat) : Bool :=
  (analysis.tree.ancestors id).any fun outer => analysis.kind outer == .routineBody

/-- The name of the routine with a body: the word in front of the last group side by side with the
body that closes before it, if that group is in parentheses. -/
def routineName? (analysis : Analysis) (id : Nat) : Option String := do
  let body ← analysis.tree.group? id
  let parent ← body.parent
  -- Groups that open behind the body do not close before it.
  let before ← (analysis.tree.children parent).reverse.find? fun sibling =>
    (analysis.tree.group? sibling).any fun group => group.closed < body.opened
  let parameters ← analysis.tree.group? before
  if parameters.shape == .paren && parameters.word.text != "" then some parameters.word.text
  else none

/-- The report about a routine's body, if it has too many lines. -/
def longRoutine? (maxLines : Nat) (severity : Severity) (rule : Rule) (file : FileContext)
    (analysis : Analysis) (id : Nat) : Option Violation := do
  let group ← analysis.tree.group? id
  if analysis.kind id != .routineBody || isInsideRoutine analysis id then none
  else if group.lineSpan ≤ maxLines then none
  else
    let subject := match routineName? analysis id with
      | some name => "Routine `" ++ name ++ "`"
      | none => "Routine body"
    some {
      code := rule.code
      rule := rule.name
      severity
      location := file.location group.opened
      message := subject ++ " has " ++ toString group.lineSpan ++ " lines (max: " ++
        toString maxLines ++ ")"
      suggestion := some "Extract helper routines for the independent steps"
      labels := [⟨file.location group.closed, "body ends here"⟩] }

/-- The number of blocks from the given groups up to the first body of a routine; nothing when there
is none among them. -/
def codeDepthIn (analysis : Analysis) (depth : Nat) : List Nat → Option Nat
  | [] => none
  | id :: outer =>
    match analysis.kind id with
    | .routineBody => some depth
    | .codeBody => codeDepthIn analysis (depth + 1) outer
    | _ => codeDepthIn analysis depth outer

/-- The number of blocks from a group outwards to its routine, itself included; nothing outside of
routines. -/
def codeDepth? (analysis : Analysis) (id : Nat) : Option Nat :=
  codeDepthIn analysis 0 (id :: analysis.tree.ancestors id)

/-- The report about a block, if it is the first one behind the limit. -/
def deepBlock? (maxDepth : Nat) (severity : Severity) (rule : Rule) (file : FileContext)
    (analysis : Analysis) (id : Nat) : Option Violation := do
  let group ← analysis.tree.group? id
  if analysis.kind id != .codeBody then none
  else
    let depth ← codeDepth? analysis id
    -- Blocks inside of a reported one are deeper still and not reported again.
    if depth != maxDepth + 1 then none
    else some {
      code := rule.code
      rule := rule.name
      severity
      location := file.location group.opened
      message := "Code block is nested " ++ toString depth ++ " levels deep (max: " ++
        toString maxDepth ++ ")"
      suggestion := some "Return early or move the inner block into its own routine" }

/-- The violations of a rule in a file that it does not leave alone. -/
def violations (rule : Rule) (file : FileContext) (analysis : Analysis) : List Violation :=
  match rule with
  | bracketStructure => (stageDiagnostics .build analysis).map (ofDiagnostic rule file)
  | strangeContext _ words =>
    ((stageDiagnostics .classify analysis).filter (!isIgnored words analysis ·)).map
      (ofDiagnostic rule file)
  | sourceHygiene _ => (stageDiagnostics .scrub analysis).map (ofDiagnostic rule file)
  | routineLength maxLines _ severity =>
    analysis.tree.walk.filterMap (longRoutine? maxLines severity rule file analysis)
  | nestingDepth maxDepth _ severity =>
    analysis.tree.walk.filterMap (deepBlock? maxDepth severity rule file analysis)

/-- The violations of a rule in a file. -/
def check (rule : Rule) (file : FileContext) (analysis : Analysis) : List Violation :=
  if rule.allowsInTests && file.kind.isTest then [] else rule.violations file analysis

/-- The rule with another limit of lines, if it has one. -/
def withMaxLines (limit : Nat) : Rule → Rule
  | routineLength _ allow severity => routineLength limit allow severity
  | rule => rule

/-- The rule with another limit of depth, if it has one. -/
def withMaxDepth (limit : Nat) : Rule → Rule
  | nestingDepth _ allow severity => nestingDepth limit allow severity
  | rule => rule

/-- The rule with other words to ignore, if it has some. -/
def withIgnoredWords (words : List String) : Rule → Rule
  | strangeContext allow _ => strangeContext allow words
  | rule => rule

/-- The rule with another treatment of test drivers, if it has one. -/
def withAllowInTests (allow : Bool) : Rule → Rule
  | bracketStructure => bracketStructure
  | strangeContext _ words => strangeContext allow words
  | sourceHygiene _ => sourceHygiene allow
  | routineLength limit _ severity => routineLength limit allow severity
  | nestingDepth limit _ severity => nestingDepth limit allow severity

/-- The rule with another severity, if it has one of its own. -/
def withSeverity (severity : Severity) : Rule → Rule
  | routineLength limit allow _ => routineLength limit allow severity
  | nestingDepth limit allow _ => nestingDepth limit allow severity
  | rule => rule

end Rule
end BracketLint
