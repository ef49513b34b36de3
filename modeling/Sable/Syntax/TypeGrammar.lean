import Sable.Syntax.Cursor

/-!
# The grammar of types

Types nest, and every nested type stands behind a token of the outer one; so the number of
tokens bounds the depth, and the grammar is built up from the depth at which no token is left.
-/

namespace Sable.Parser

/-- Reads a field of a struct type, with an optional point in front of its name. -/
def fieldDecl (nested : Parser TypeExpr) : Parser FieldDecl := do
  let start ← look Cursor.here
  let _ ← accept (.punct .dot)
  let name ← ident
  expect (.punct .colon)
  let ty ← nested
  let span ← spanSince start
  pure (.mk name ty span)

/-- Reads what follows the bracket that opens an array type. -/
def arrayType (nested : Parser TypeExpr) (start : Span) : Parser TypeExpr := do
  expect (.punct .rbracket)
  let elem ← nested
  let span ← spanSince start
  pure (.array elem span)

/-- Reads what follows the word `struct` in a type, from at most `n` tokens. -/
def structType (n : Nat) (nested : Parser TypeExpr) (start : Span) : Parser TypeExpr := do
  expect (.punct .lbrace)
  let fields ← itemsUntil n (.punct .rbrace) (fieldDecl nested)
  let span ← spanSince start
  pure (.struct fields span)

/-- Reads what follows the word `fn` in a type, from at most `n` tokens. -/
def functionType (n : Nat) (nested : Parser TypeExpr) (start : Span) : Parser TypeExpr := do
  expect (.punct .lparen)
  let params ← itemsUntil n (.punct .rparen) nested
  let ret ← behind (.punct .arrow) nested
  let span ← spanSince start
  pure (.function params ret span)

/-- The type that a name stands for: a builtin one before a declared one. -/
def typeOfName (name : Ident) : TypeExpr :=
  match Primitive.ofName? name.name with
  | some p => .primitive p name.span
  | none => .named name

/-- Reads a type name, which may be qualified by the alias of a module. -/
def namedType (start : Span) : Parser TypeExpr := do
  let name ← ident
  match ← behind (.punct .colonColon) ident with
  | some member =>
    let span ← spanSince start
    pure (.qualified name member span)
  | none => pure (typeOfName name)

/-- Reads a type, given how to read the types nested in it from at most `n` tokens. -/
def typeStep (n : Nat) (nested : Parser TypeExpr) : Parser TypeExpr := do
  let start ← look Cursor.here
  match ← look Cursor.kind with
  | .punct .lbracket => do skip; arrayType nested start
  | .keyword .structKw => do skip; structType n nested start
  | .keyword .fnKw => do skip; functionType n nested start
  | .ident _ => namedType start
  | _ => fail .expectedType

/-- Reads a type from at most `n` tokens. -/
def typeWithin : Nat → Parser TypeExpr
  | 0 => fail .expectedType
  | n + 1 => typeStep n (typeWithin n)

end Sable.Parser
