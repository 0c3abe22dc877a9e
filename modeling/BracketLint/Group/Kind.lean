/-!
The roles that bracket groups play in a program.
-/

namespace BracketLint

/-- Roles of bracket groups. -/
inductive GroupKind
  /-- The whole file. -/
  | file
  /-- The condition of `if`, `while` or `for`. -/
  | condition
  /-- The condition of `switch`. -/
  | switchParens
  /-- The parameter of `catch`. -/
  | catchParens
  /-- The body of an `asm` statement. -/
  | asmBody
  /-- A `throw(...)` or `noexcept(...)` specification. -/
  | throwParens
  /-- A part of an expression in parentheses. -/
  | expressionParens
  /-- A member in the initializer list of a constructor. -/
  | constructorClause
  /-- The parameter list of a routine. -/
  | routineDeclaration
  /-- The argument list of a call. -/
  | routineCall
  /-- A brace initializer. -/
  | initializer
  /-- The body of a class, structure or union. -/
  | classBody
  /-- A block inside a routine. -/
  | codeBody
  /-- The body of a namespace or of an `extern "C"` block. -/
  | namespaceBody
  /-- A list of enumerators. -/
  | enumBody
  /-- The body of a routine or lambda. -/
  | routineBody
  /-- No rule fits. -/
  | unknown
  deriving DecidableEq, Repr, Inhabited

namespace GroupKind

/-- The name of a role in dumps. -/
def name : GroupKind → String
  | file => "FILE"
  | condition => "IF_WHILE_FOR"
  | switchParens => "SWITCH_PARENS"
  | catchParens => "CATCH_PARENS"
  | asmBody => "ASM"
  | throwParens => "THROW_PARENS"
  | expressionParens => "EXPRESSION_PARENS"
  | constructorClause => "CTOR_CLAUSE"
  | routineDeclaration => "ROUTINE_DECL"
  | routineCall => "ROUTINE_CALL"
  | initializer => "INIT_BRACES"
  | classBody => "CLASS"
  | codeBody => "CODE_BODY"
  | namespaceBody => "NAMESPACE"
  | enumBody => "ENUM"
  | routineBody => "ROUTINE_BODY"
  | unknown => "UNKNOWN"

/-- The groups that hold declarations. -/
def isDeclarationScope : GroupKind → Bool
  | file | namespaceBody | classBody | enumBody => true
  | _ => false

/-- The groups that hold statements. -/
def isExecutable : GroupKind → Bool
  | codeBody | routineBody => true
  | _ => false

end GroupKind
end BracketLint
