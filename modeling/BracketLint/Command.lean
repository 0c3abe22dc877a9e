import BracketLint.Path
import BracketLint.Report.Text

/-!
Commands of the program, and how the arguments on a command line are read as one. Switches start with
one dash and a letter or with two dashes and a name; other arguments are operands.
-/

namespace BracketLint

/-- What the program can be asked to do. -/
inductive Command
  | check (path : Path) (format : ReportFormat) (rules : Option String) (excludes : List String)
  | listRules
  | init (force : Bool)
  | tree (file : Path)
  deriving DecidableEq, Repr

/-- A command together with the switches that all commands share. -/
structure Invocation where
  command : Command
  config : Option Path := none
  verbose : Bool := false
  deriving DecidableEq, Repr

namespace Command

/-- What a switch is followed by. Help and version end the reading of arguments. -/
inductive SwitchKind
  | flag
  | path
  | format
  | text
  | help
  | version
  deriving DecidableEq, Repr

/-- A switch that a command knows. -/
structure Switch where
  name : String
  letter : Option Char := none
  kind : SwitchKind := .flag
  repeats : Bool := false
  deriving DecidableEq, Repr

/-- Why arguments name nothing to do: they ask about the program, or they are wrong. -/
inductive Stop
  | help
  | version
  | misuse
  deriving DecidableEq, Repr

/-- The arguments of a command: values of its switches in their order, and its operands. -/
structure Arguments where
  values : List (String × String) := []
  operands : List String := []
  deriving DecidableEq, Repr

namespace Arguments

/-- The value of a switch. -/
def value? (arguments : Arguments) (name : String) : Option String := arguments.values.lookup name

/-- All values of a switch. -/
def all (arguments : Arguments) (name : String) : List String :=
  (arguments.values.filter fun value => value.1 == name).map (·.2)

/-- Whether a value fits a switch. -/
def fits : SwitchKind → String → Bool
  | .path, value => value != ""
  | .format, value => (ReportFormat.ofName? value).isSome
  | _, _ => true

/-- Adds a switch with its value. Most switches stand once only. -/
def addSwitch (arguments : Arguments) (switch : Switch) (value : String) : Except Stop Arguments :=
  match switch.kind with
  | .help => .error .help
  | .version => .error .version
  | kind =>
    if fits kind value && (switch.repeats || (arguments.value? switch.name).isNone) then
      .ok { arguments with values := arguments.values ++ [(switch.name, value)] }
    else .error .misuse

/-- Adds an operand; a command takes `limit` of them, and none may be empty. -/
def addOperand (limit : Nat) (arguments : Arguments) (operand : String) : Except Stop Arguments :=
  if operand != "" && arguments.operands.length < limit then
    .ok { arguments with operands := arguments.operands ++ [operand] }
  else .error .misuse

end Arguments

/-- Whether a switch is followed by a value. -/
def Switch.takesValue (switch : Switch) : Bool :=
  switch.kind == .path || switch.kind == .format || switch.kind == .text

/-- What an argument turns out to be. -/
inductive Step
  | operand
  | complete (arguments : Arguments)
  | needsValue (switch : Switch) (arguments : Arguments)

/-- Reads the letters behind one dash. What follows the letter of a switch with a value is the value,
behind an equal sign or not. -/
def readLetters (known : List Switch) (arguments : Arguments) : List Char → Except Stop Step
  | [] => .ok (.complete arguments)
  | letter :: rest =>
    match known.find? (·.letter == some letter) with
    | none => .error .misuse
    | some switch =>
      if switch.takesValue then
        match rest with
        | [] => .ok (.needsValue switch arguments)
        | '=' :: value => (arguments.addSwitch switch (String.ofList value)).map .complete
        | value => (arguments.addSwitch switch (String.ofList value)).map .complete
      else
        match arguments.addSwitch switch "" with
        | .ok arguments => readLetters known arguments rest
        | .error stop => .error stop

/-- Reads the text behind two dashes: a name, and perhaps a value behind an equal sign. -/
def readName (known : List Switch) (arguments : Arguments) (text : List Char) : Except Stop Step :=
  match known.find? fun switch => switch.name == String.ofList (text.takeWhile (· != '=')) with
  | none => .error .misuse
  | some switch =>
    match text.dropWhile (· != '=') with
    | [] =>
      if switch.takesValue then .ok (.needsValue switch arguments)
      else (arguments.addSwitch switch "").map .complete
    | _ :: value =>
      if switch.takesValue then
        (arguments.addSwitch switch (String.ofList value)).map .complete
      else .error .misuse

/-- Reads one argument. A dash alone is an operand. -/
def readArgument (known : List Switch) (arguments : Arguments) (text : List Char) :
    Except Stop Step :=
  match text with
  | '-' :: '-' :: name => readName known arguments name
  | '-' :: letter :: letters => readLetters known arguments (letter :: letters)
  | _ => .ok .operand

/-- Whether an argument cannot be a value because it looks like a switch. -/
def isDashed (argument : String) : Bool :=
  match argument.toList with
  | '-' :: _ :: _ => true
  | _ => false

/-- Reads arguments up to the name of a command. -/
def readCommand (known : List Switch) (arguments : Arguments) :
    List String → Except Stop (Arguments × List String)
  | [] => .ok (arguments, [])
  | "--" :: _ => .error .misuse
  | argument :: rest =>
    match readArgument known arguments argument.toList with
    | .error stop => .error stop
    | .ok .operand => .ok (arguments, argument :: rest)
    | .ok (.complete arguments) => readCommand known arguments rest
    | .ok (.needsValue switch arguments) =>
      match rest with
      | [] => .error .misuse
      | value :: rest =>
        if isDashed value then .error .misuse
        else
          match arguments.addSwitch switch value with
          | .ok arguments => readCommand known arguments rest
          | .error stop => .error stop

/-- Reads the arguments behind the name of a command. Behind two dashes alone, all are operands. -/
def readAll (known : List Switch) (limit : Nat) (arguments : Arguments) :
    List String → Except Stop Arguments
  | [] => .ok arguments
  | "--" :: operands => operands.foldlM (Arguments.addOperand limit) arguments
  | argument :: rest =>
    match readArgument known arguments argument.toList with
    | .error stop => .error stop
    | .ok .operand =>
      match arguments.addOperand limit argument with
      | .ok arguments => readAll known limit arguments rest
      | .error stop => .error stop
    | .ok (.complete arguments) => readAll known limit arguments rest
    | .ok (.needsValue switch arguments) =>
      match rest with
      | [] => .error .misuse
      | value :: rest =>
        if isDashed value then .error .misuse
        else
          match arguments.addSwitch switch value with
          | .ok arguments => readAll known limit arguments rest
          | .error stop => .error stop

/-- The switches of all commands. -/
def shared : List Switch :=
  [{ name := "verbose", letter := some 'v' }, { name := "config", letter := some 'c', kind := .path },
    { name := "help", letter := some 'h', kind := .help }]

/-- The switches in front of a command. -/
def leading : List Switch :=
  { name := "version", letter := some 'V', kind := .version } :: shared

/-- The switches of the command that checks files. -/
def forCheck : List Switch :=
  [{ name := "format", letter := some 'f', kind := .format }, { name := "rules", kind := .text },
    { name := "exclude", letter := some 'e', kind := .text, repeats := true }] ++ shared

/-- A command with the switches that stand in front of it and behind its name; those behind it
count. -/
def invocation (before behind : Arguments) (command : Command) : Invocation where
  command := command
  config := ((behind.value? "config").or (before.value? "config")).map Path.mk
  verbose := (before.value? "verbose").isSome || (behind.value? "verbose").isSome

/-- The command that checks the files below an operand, or below the working directory. -/
def checkOf (arguments : Arguments) : Command :=
  .check ⟨arguments.operands.head?.getD "."⟩
    (((arguments.value? "format").bind ReportFormat.ofName?).getD .text)
    (arguments.value? "rules") (arguments.all "exclude")

/-- The names of commands. -/
def names : List String := ["check", "list-rules", "init", "tree", "help"]

/-- Whether words behind `help` name a command to explain. -/
def isTopic (words : List String) : Bool := words.length == 1 && words.all names.contains

/-- The invocation that the arguments on a command line name. -/
def parse (line : List String) : Except Stop Invocation := do
  let (before, rest) ← readCommand leading {} line
  match rest with
  | "check" :: rest =>
    let behind ← readAll forCheck 1 {} rest
    return invocation before behind (checkOf behind)
  | "list-rules" :: rest =>
    let behind ← readAll shared 0 {} rest
    return invocation before behind .listRules
  | "init" :: rest =>
    let behind ← readAll ({ name := "force" } :: shared) 0 {} rest
    return invocation before behind (.init (behind.value? "force").isSome)
  | "tree" :: rest =>
    let behind ← readAll shared 1 {} rest
    match behind.operands with
    | [file] => return invocation before behind (.tree ⟨file⟩)
    | _ => throw .misuse
  | "help" :: topics => throw (if topics.isEmpty || isTopic topics then .help else .misuse)
  | _ => throw .misuse

end Command
end BracketLint
