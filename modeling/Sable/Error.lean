import Sable.Token

/-!
# Errors

The causes for which an operation of the compiler fails, grouped by the part that detects
them. The wording of a cause is in its `message` and the place it points to in its `span`,
so that the operations only say what went wrong.
-/

namespace Sable

/-- What the grammar wants where another token stands. -/
inductive Expectation
  /-- One particular token. -/
  | token (kind : TokenKind)
  /-- The string literal that names an imported module. -/
  | importPath
  /-- The equals sign behind a list of assignment targets. -/
  | assignment
  deriving DecidableEq, Repr

/-- The wording of an expectation in messages. -/
def Expectation.text : Expectation → String
  | token kind => kind.text
  | importPath => "import path string"
  | assignment => "'='"

/-- The ways in which a source text fails to be a program. -/
inductive SyntaxError
  /-- A particular token was needed. -/
  | unexpectedToken (expected : Expectation) (got : TokenKind) (span : Span)
  /-- A name was needed. -/
  | expectedIdent (span : Span)
  /-- A type was needed. -/
  | expectedType (span : Span)
  /-- An expression was needed. -/
  | expectedExpr (span : Span)
  /-- A string literal does not end on its line. -/
  | unterminatedString (span : Span)
  /-- A number literal is out of range or has an exponent without digits. -/
  | invalidNumber (text : String) (span : Span)
  deriving DecidableEq, Repr

namespace SyntaxError

/-- The wording of a syntax error. -/
def message : SyntaxError → String
  | unexpectedToken expected got _ =>
    "Unexpected token: expected " ++ expected.text ++ ", got " ++ got.text
  | expectedIdent _ => "Expected identifier"
  | expectedType _ => "Expected type"
  | expectedExpr _ => "Expected expression"
  | unterminatedString _ => "Unterminated string literal"
  | invalidNumber text _ => "Invalid number literal: " ++ text

/-- The place that a syntax error points to. -/
def span : SyntaxError → Span
  | unexpectedToken _ _ span => span
  | expectedIdent span => span
  | expectedType span => span
  | expectedExpr span => span
  | unterminatedString span => span
  | invalidNumber _ span => span

end SyntaxError

/-- The reasons for which a scope refuses an import or does not know one. -/
inductive ImportError
  /-- The same module is already imported under the same alias. -/
  | alreadyImported (path : String)
  /-- The same module is already imported under another alias. -/
  | alreadyImportedAs (path aliasName : String)
  /-- The alias already stands for another module. -/
  | aliasInUse (aliasName path : String)
  /-- No import binds the alias. -/
  | notFound (aliasName : String)
  deriving DecidableEq, Repr

/-- The wording of an import error. -/
def ImportError.message : ImportError → String
  | alreadyImported path => "'" ++ path ++ "' already imported"
  | alreadyImportedAs path aliasName =>
    "'" ++ path ++ "' already imported with alias '" ++ aliasName ++ "'"
  | aliasInUse aliasName path =>
    "alias '" ++ aliasName ++ "' is already used by import '" ++ path ++
      "'. Use a different alias with 'as'"
  | notFound aliasName => "imported module '" ++ aliasName ++ "' not found"

/-- A name that its scope already declares. -/
structure DuplicateSymbol where
  /-- The name declared twice. -/
  name : String
  /-- Where the later declaration stands. -/
  span : Span
  deriving DecidableEq, Repr

/-- The wording of a duplicate declaration. -/
def DuplicateSymbol.message (e : DuplicateSymbol) : String :=
  "symbol '" ++ e.name ++ "' already declared in this scope"

/-- The ways in which a name in a type fails to mean a type. -/
inductive TypeError
  /-- The qualifier is the alias of no import. -/
  | moduleNotImported (module : String) (span : Span)
  /-- The imported module declares no such name. -/
  | notFoundInModule (name module : String) (span : Span)
  /-- No scope in reach declares the name. -/
  | notFound (name : String) (span : Span)
  /-- The name is declared, but not as a type. -/
  | notAType (name : String) (span : Span)
  deriving DecidableEq, Repr

namespace TypeError

/-- The wording of a type error. -/
def message : TypeError → String
  | moduleNotImported module _ => "module '" ++ module ++ "' is not imported"
  | notFoundInModule name module _ =>
    "type '" ++ name ++ "' not found in imported module '" ++ module ++ "'"
  | notFound name _ => "type '" ++ name ++ "' not found in symbol table"
  | notAType name _ => "'" ++ name ++ "' is not a type"

/-- The place that a type error points to. -/
def span : TypeError → Span
  | moduleNotImported _ span => span
  | notFoundInModule _ _ span => span
  | notFound _ span => span
  | notAType _ span => span

end TypeError

/-- The reasons for which an import names no module that can be loaded. -/
inductive LookupError
  /-- No candidate file exists. -/
  | moduleNotFound (path : String)
  /-- Remote imports are switched off. -/
  | notPermitted (path : String)
  /-- The remote module is not in the local cache. -/
  | notInstalled (path : String)
  deriving DecidableEq, Repr

/-- The wording of a failed lookup. -/
def LookupError.message : LookupError → String
  | moduleNotFound path => "module '" ++ path ++ "' not found"
  | notPermitted path =>
    "importing remote module '" ++ path ++ "' is not permitted (enable remote imports)"
  | notInstalled path => "remote module '" ++ path ++ "' is not installed"

/-- The reasons for which no text could be read from a path. -/
inductive ReadError
  /-- A source store held in memory has no such file. -/
  | noSuchFile (path : String)
  /-- A file system refused to hand out the text, for the reason it states. -/
  | failed (path reason : String)
  deriving DecidableEq, Repr

/-- The wording of a read error. -/
def ReadError.message : ReadError → String
  | noSuchFile path => "IO error: no such file: " ++ path
  | failed path reason => "IO error: failed to read " ++ path ++ ": " ++ reason

/-- The reasons for which a file yields no program. -/
inductive LoadError
  /-- The text could not be read. -/
  | read (cause : ReadError)
  /-- The text is not a program. -/
  | grammar (cause : SyntaxError)
  deriving DecidableEq, Repr

/-- The wording of a load error. -/
def LoadError.message : LoadError → String
  | read cause => cause.message
  | grammar cause => cause.message

/-- The place that a load error points to, if the text could be read at all. -/
def LoadError.span? : LoadError → Option Span
  | read _ => none
  | grammar cause => some cause.span

/-- A module key under which nothing is registered. -/
structure UnknownModule where
  /-- The key asked for. -/
  key : String
  deriving DecidableEq, Repr

/-- The wording of a request for an unknown module. -/
def UnknownModule.message (e : UnknownModule) : String :=
  "module '" ++ e.key ++ "' is not registered"

end Sable
