import Sable.Error
import Sable.Syntax

/-!
# Reading a list of tokens

A cursor stands in front of the tokens that are still to be read. A parser takes a cursor and
answers with a result or a syntax error and with the cursor behind what it read; the cursor
is kept when the parser fails, so that another one can go on from there. No parser ever moves
past the end of the file.
-/

namespace Sable

/-- A place in a list of tokens. -/
structure Cursor where
  /-- The tokens still to be read, up to the end of the file. -/
  rest : List Token
  /-- Where the end of the file stands. -/
  eof : Span
  /-- Where the token read last stands. -/
  last : Span
  /-- The number of function literals met so far. -/
  literals : Nat

namespace Cursor

/-- The next token, which at the end of the tokens is the end of the file. -/
def current (c : Cursor) : Token := c.rest.head?.getD ⟨.eof, c.eof⟩

/-- The kind of the next token. -/
def kind (c : Cursor) : TokenKind := c.current.kind

/-- Where the next token stands. -/
def here (c : Cursor) : Span := c.current.span

/-- The kind of the token behind the next one. -/
def nextKind (c : Cursor) : TokenKind :=
  match c.rest with
  | _ :: t :: _ => t.kind
  | _ => .eof

/-- The cursor behind the next token; at the end of the file it stays where it is. -/
def advance (c : Cursor) : Cursor :=
  match c.rest with
  | [] => c
  | t :: rest => { c with rest := rest, last := t.span }

/-- Where the end of the file stands in a list of tokens that need not hold one. -/
def eofSpan (tokens : List Token) : Span :=
  match tokens.find? fun t => t.kind = .eof with
  | some t => t.span
  | none =>
    match tokens.getLast? with
    | some t => t.span.after
    | none => Span.nowhere

/-- The cursor in front of a list of tokens, of which what follows an end of file is not read. -/
def ofTokens (tokens : List Token) : Cursor :=
  let rest := tokens.takeWhile fun t => t.kind ≠ .eof
  let eof := eofSpan tokens
  ⟨rest, eof, ((rest.head?.map Token.span).getD eof), 0⟩

end Cursor

/-- A reader of tokens. -/
def Parser (α : Type) : Type := Cursor → Except SyntaxError α × Cursor

namespace Parser

/-- The parser that reads nothing and yields a value. -/
protected def pure {α : Type} (a : α) : Parser α := fun c => (.ok a, c)

/-- One parser behind another; the first error ends the reading. -/
protected def bind {α β : Type} (p : Parser α) (f : α → Parser β) : Parser β := fun c =>
  match p c with
  | (.ok a, d) => f a d
  | (.error e, d) => (.error e, d)

instance : Monad Parser where
  pure := Parser.pure
  bind := Parser.bind

/-- The parser that fails where it stands. -/
def fail {α : Type} (e : Span → SyntaxError) : Parser α := fun c => (.error (e c.here), c)

/-- What a function says of the cursor; nothing is read. -/
def look {α : Type} (f : Cursor → α) : Parser α := fun c => (.ok (f c), c)

/-- The number of tokens still to be read, which bounds every repetition. -/
def remaining : Parser Nat := look fun c => c.rest.length

/-- Reads the next token, whatever it is. -/
def skip : Parser Unit := fun c => (.ok (), c.advance)

/-- The error for a token that does not stand where the grammar wants something else. -/
def unexpected {α : Type} (expected : Expectation) : Parser α := fun c =>
  (.error (.unexpectedToken expected c.kind c.here), c)

/-- Reads a token of a given kind. -/
def expect (k : TokenKind) : Parser Unit := fun c =>
  if c.kind = k then skip c else unexpected (.token k) c

/-- Reads a token of a given kind if it is next, and says whether it was. -/
def accept (k : TokenKind) : Parser Bool := fun c =>
  if c.kind = k then (.ok true, c.advance) else (.ok false, c)

/-- The span from the start of `start` to the end of the token read last. -/
def spanSince (start : Span) : Parser Span := look fun c => start.merge c.last

/-- Reads a name. -/
def ident : Parser Ident := fun c =>
  match c.kind with
  | .ident name => (.ok ⟨name, c.here⟩, c.advance)
  | _ => fail .expectedIdent c

/-- Reads a value behind a mark if the mark is next. -/
def behind {α : Type} (mark : TokenKind) (p : Parser α) : Parser (Option α) := do
  if ← accept mark then
    let a ← p
    pure (some a)
  else pure none

/-- Reads at most `n` more items, a comma in front of each. -/
def moreItems {α : Type} (item : Parser α) : Nat → Parser (List α)
  | 0 => pure []
  | n + 1 => do
    if ← accept (.punct .comma) then
      let a ← item
      let as ← moreItems item n
      pure (a :: as)
    else pure []

/-- Reads one or more items with commas between them, all from at most `n + 1` tokens. -/
def items {α : Type} (n : Nat) (item : Parser α) : Parser (List α) := do
  let a ← item
  let as ← moreItems item n
  pure (a :: as)

/-- Reads at most `n` items up to a closing mark, which is left; a comma may follow each one. -/
def itemsBefore {α : Type} (close : TokenKind) (item : Parser α) : Nat → Parser (List α)
  | 0 => pure []
  | n + 1 => do
    let kind ← look Cursor.kind
    if kind = close ∨ kind = .eof then pure []
    else
      let a ← item
      if ← accept (.punct .comma) then
        let as ← itemsBefore close item n
        pure (a :: as)
      else pure [a]

/--
Reads items up to and with a closing mark, all from at most `n` tokens; a comma may follow each
item.
-/
def itemsUntil {α : Type} (n : Nat) (close : TokenKind) (item : Parser α) : Parser (List α) := do
  let as ← itemsBefore close item n
  expect close
  pure as

end Parser

end Sable
