import Sable.Span
import Sable.Number.Shortest

/-!
# Tokens

The words of a Sable source text: keywords, literals, punctuation, and a token for the end
of the file. A token knows how messages spell it and, for an operator, how tightly it
binds.
-/

namespace Sable

/-- The reserved words. -/
inductive Keyword
  | fnKw
  | letKw
  | constKw
  | typeKw
  | structKw
  | importKw
  | asKw
  | ifKw
  | elseKw
  | returnKw
  | trueKw
  | falseKw
  deriving DecidableEq, Repr

namespace Keyword

/-- Every reserved word once. -/
def all : List Keyword :=
  [fnKw, letKw, constKw, typeKw, structKw, importKw, asKw, ifKw, elseKw, returnKw, trueKw,
    falseKw]

/-- The spelling of a reserved word. -/
def text : Keyword → String
  | fnKw => "fn"
  | letKw => "let"
  | constKw => "const"
  | typeKw => "type"
  | structKw => "struct"
  | importKw => "import"
  | asKw => "as"
  | ifKw => "if"
  | elseKw => "else"
  | returnKw => "return"
  | trueKw => "true"
  | falseKw => "false"

/-- The reserved word of a given spelling. -/
def ofText? (word : String) : Option Keyword := all.find? fun k => k.text == word

theorem mem_all (k : Keyword) : k ∈ all := by cases k <;> decide

/-- A spelling belongs to exactly one reserved word. -/
theorem ofText?_eq_some_iff {word : String} {k : Keyword} :
    ofText? word = some k ↔ k.text = word := by
  constructor
  · intro h
    simpa using List.find?_some h
  · rintro rfl
    cases k <;> decide

end Keyword

/-- Delimiters and operators. -/
inductive Punct
  | lparen
  | rparen
  | lbrace
  | rbrace
  | lbracket
  | rbracket
  | comma
  | semicolon
  | colon
  | colonColon
  | colonEq
  | dot
  | arrow
  | eq
  | eqEq
  | ne
  | lt
  | le
  | gt
  | ge
  | plus
  | minus
  | star
  | slash
  | percent
  | andAnd
  | orOr
  | not
  deriving DecidableEq, Repr

namespace Punct

/-- The characters of a delimiter or operator. -/
def spelling : Punct → List Char
  | lparen => ['(']
  | rparen => [')']
  | lbrace => ['\x7b']
  | rbrace => ['\x7d']
  | lbracket => ['[']
  | rbracket => [']']
  | comma => [',']
  | semicolon => [';']
  | colon => [':']
  | colonColon => [':', ':']
  | colonEq => [':', '=']
  | dot => ['.']
  | arrow => ['-', '>']
  | eq => ['=']
  | eqEq => ['=', '=']
  | ne => ['!', '=']
  | lt => ['<']
  | le => ['<', '=']
  | gt => ['>']
  | ge => ['>', '=']
  | plus => ['+']
  | minus => ['-']
  | star => ['*']
  | slash => ['/']
  | percent => ['%']
  | andAnd => ['&', '&']
  | orOr => ['|', '|']
  | not => ['!']

/-- Every delimiter and operator once, the ones of two characters first. -/
def all : List Punct :=
  [colonColon, colonEq, arrow, eqEq, ne, le, ge, andAnd, orOr,
    lparen, rparen, lbrace, rbrace, lbracket, rbracket, comma, semicolon, colon, dot,
    eq, lt, gt, plus, minus, star, slash, percent, not]

/-- The spelling of a delimiter or operator in messages. -/
def text (p : Punct) : String := String.ofList p.spelling

theorem mem_all (p : Punct) : p ∈ all := by cases p <;> decide

theorem spelling_length_pos (p : Punct) : 0 < p.spelling.length := by cases p <;> decide

end Punct

/-- The operators that stand between two operands. -/
inductive BinaryOp
  | add
  | sub
  | mul
  | div
  | mod
  | eq
  | ne
  | lt
  | le
  | gt
  | ge
  | and
  | or
  deriving DecidableEq, Repr

/-- How tightly an operator binds: a higher level binds more tightly. -/
def BinaryOp.precedence : BinaryOp → Nat
  | or => 1
  | and => 2
  | eq | ne => 3
  | lt | le | gt | ge => 4
  | add | sub => 5
  | mul | div | mod => 6

/-- The punctuation that spells an operator. -/
def BinaryOp.punct : BinaryOp → Punct
  | add => .plus
  | sub => .minus
  | mul => .star
  | div => .slash
  | mod => .percent
  | eq => .eqEq
  | ne => .ne
  | lt => .lt
  | le => .le
  | gt => .gt
  | ge => .ge
  | and => .andAnd
  | or => .orOr

/-- The operator that a punctuation mark spells. -/
def Punct.binaryOp? : Punct → Option BinaryOp
  | plus => some .add
  | minus => some .sub
  | star => some .mul
  | slash => some .div
  | percent => some .mod
  | eqEq => some .eq
  | ne => some .ne
  | lt => some .lt
  | le => some .le
  | gt => some .gt
  | ge => some .ge
  | andAnd => some .and
  | orOr => some .or
  | _ => none

theorem Punct.binaryOp?_eq_some_iff {p : Punct} {op : BinaryOp} :
    p.binaryOp? = some op ↔ p = op.punct := by
  cases p <;> cases op <;> decide

/-- What a token is, apart from where it stands. -/
inductive TokenKind
  /-- A reserved word. -/
  | keyword (word : Keyword)
  /-- A name that is not reserved. -/
  | ident (name : String)
  /-- An integer literal, by its value. -/
  | int (value : Nat)
  /-- A floating-point literal, by the number it rounds to. -/
  | float (value : Binary64)
  /-- A string literal, by its decoded contents. -/
  | string (value : String)
  /-- A delimiter or operator. -/
  | punct (mark : Punct)
  /-- The end of the file. -/
  | eof
  /-- A character that starts no token. -/
  | unknown (char : Char)
  deriving DecidableEq, Repr

namespace TokenKind

/-- The spelling of a token in messages. -/
def text : TokenKind → String
  | keyword word => word.text
  | ident name => "identifier '" ++ name ++ "'"
  | int value => toString value
  | float value => value.toText
  | string value => "\"" ++ value ++ "\""
  | punct mark => mark.text
  | eof => "end of file"
  | unknown char => "'" ++ char.toString ++ "'"

/-- Whether the token is a reserved word. -/
def isKeyword : TokenKind → Bool
  | keyword _ => true
  | _ => false

/-- The operator that a token spells between two operands. -/
def binaryOp? : TokenKind → Option BinaryOp
  | punct mark => mark.binaryOp?
  | _ => none

/-- How tightly a token binds as an operator between two operands. -/
def precedence? (k : TokenKind) : Option Nat := k.binaryOp?.map BinaryOp.precedence

end TokenKind

/-- A token and the characters it was read from. -/
structure Token where
  /-- What the token is. -/
  kind : TokenKind
  /-- Where the token stands. -/
  span : Span
  deriving DecidableEq, Repr

end Sable
