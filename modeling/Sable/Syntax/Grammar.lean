import Sable.Syntax.TypeGrammar
import Sable.Token.Lexer

/-!
# The grammar of expressions and statements

Each construct is read by a parser that is given the parsers for what may be nested in it.
Every nested construct stands behind a token of the outer one; so the number of tokens bounds
the depth, and the grammar is built up from the depth at which no token is left. There, as at
the end of a file, every construct misses its first token. Repetitions take a token for every
item, so the same number bounds them.
-/

namespace Sable

/-- The parsers for the constructs that may be nested in others. -/
structure Grammar where
  /-- The number of tokens that the parsers are able to read. -/
  size : Nat
  /-- Reads an expression whose free operators bind at least as tightly as a level. -/
  operand : Nat → Parser Expr
  /-- Reads an expression without free operators between two operands. -/
  unary : Parser Expr
  /-- Reads a statement. -/
  statement : Parser Stmt
  /-- Reads a condition with all that follows its `else`. -/
  conditional : Parser Conditional

namespace Parser

/-! ### Blocks and functions -/

/-- Reads at most `n` statements and stray semicolons up to a closing token, which is left. -/
def statements (stmt : Parser Stmt) (close : TokenKind) : Nat → Parser (List Stmt)
  | 0 => pure []
  | n + 1 => do
    let kind ← look Cursor.kind
    if kind = close ∨ kind = .eof then pure []
    else if ← accept (.punct .semicolon) then statements stmt close n
    else
      let s ← stmt
      let ss ← statements stmt close n
      pure (s :: ss)

/-- Reads statements between braces. -/
def block (g : Grammar) : Parser Block := do
  let start ← look Cursor.here
  expect (.punct .lbrace)
  let stmts ← statements g.statement (.punct .rbrace) g.size
  expect (.punct .rbrace)
  let span ← spanSince start
  pure (.mk stmts span)

/-- Reads a parameter whose type has at most `n` tokens. -/
def param (n : Nat) : Parser Param := do
  let start ← look Cursor.here
  let name ← ident
  expect (.punct .colon)
  let ty ← typeWithin n
  let span ← spanSince start
  pure ⟨name, ty, span⟩

/-- Reads the parameters, the result type and the body of a function. -/
def functionRest (g : Grammar) (name : Ident) (start : Span) : Parser FunctionDef := do
  expect (.punct .lparen)
  let params ← itemsUntil g.size (.punct .rparen) (param g.size)
  let ret ← behind (.punct .arrow) (typeWithin g.size)
  let body ← block g
  let span ← spanSince start
  pure (.mk name params ret body span)

/-- The name that the function literal with a given number goes by. -/
def literalName (n : Nat) : String := "__fn_lit_" ++ toString n

/-- The number of the next function literal, which is used up. -/
def nextLiteral : Parser Nat := fun c => (.ok c.literals, { c with literals := c.literals + 1 })

/-! ### Expressions -/

/-- Reads one or more expressions with commas between them. -/
def expressions (g : Grammar) : Parser (List Expr) := items g.size (g.operand 0)

/-- Reads expressions up to and with a closing mark; there may be none. -/
def expressionsUntil (g : Grammar) (close : TokenKind) : Parser (List Expr) := do
  if ← accept close then pure []
  else
    let es ← expressions g
    expect close
    pure es

/-- Reads a written value. -/
def literal (value : Literal) (start : Span) : Parser Expr := do
  skip
  pure (.literal value start)

/-- Reads a name, which may be qualified by the alias of a module. -/
def nameExpr (start : Span) : Parser Expr := do
  let name ← ident
  match ← behind (.punct .colonColon) ident with
  | some member =>
    let span ← spanSince start
    pure (.qualified name member span)
  | none => pure (.ident name)

/-- Reads an expression that no operator, call, field or index belongs to. -/
def atom (g : Grammar) : Parser Expr := do
  let start ← look Cursor.here
  match ← look Cursor.kind with
  | .int v => literal (.int v) start
  | .float v => literal (.float v) start
  | .string v => literal (.string v) start
  | .keyword .trueKw => literal (.bool true) start
  | .keyword .falseKw => literal (.bool false) start
  | .ident _ => nameExpr start
  | .punct .lparen =>
    skip
    let e ← g.operand 0
    expect (.punct .rparen)
    pure e
  | .punct .lbracket =>
    skip
    let es ← expressionsUntil g (.punct .rbracket)
    let span ← spanSince start
    pure (.array es span)
  | .keyword .fnKw =>
    skip
    let n ← nextLiteral
    let f ← functionRest g ⟨literalName n, start⟩ start
    pure (.function f)
  | _ => fail .expectedExpr

/-- Reads at most `n` calls, fields and indices behind an expression. -/
def applications (g : Grammar) (start : Span) : Nat → Expr → Parser Expr
  | 0, e => pure e
  | n + 1, e => do
    match ← look Cursor.kind with
    | .punct .lparen =>
      skip
      let args ← expressionsUntil g (.punct .rparen)
      let span ← spanSince start
      applications g start n (.call e args span)
    | .punct .dot =>
      skip
      let field ← ident
      let span ← spanSince start
      applications g start n (.field e field span)
    | .punct .lbracket =>
      skip
      let index ← g.operand 0
      expect (.punct .rbracket)
      let span ← spanSince start
      applications g start n (.index e index span)
    | _ => pure e

/-- Reads an atom with the calls, fields and indices behind it. -/
def applied (g : Grammar) : Parser Expr := do
  let start ← look Cursor.here
  let e ← atom g
  applications g start g.size e

/-- The operator that a token spells in front of its operand. -/
def unaryOp? : TokenKind → Option UnaryOp
  | .punct .minus => some .neg
  | .punct .not => some .not
  | _ => none

/-- Reads an expression with the operators in front of it. -/
def unaryStep (g : Grammar) : Parser Expr := do
  let start ← look Cursor.here
  match unaryOp? (← look Cursor.kind) with
  | some op =>
    skip
    let e ← g.unary
    let span ← spanSince start
    pure (.unary op e span)
  | none => applied g

/--
Reads at most `n` operators with their right operands behind a left operand. An operator that
binds less tightly than `level` is left; the right operand of one that is taken holds only
operators that bind more tightly, so operators of one level group to the left.
-/
def operations (g : Grammar) (level : Nat) : Nat → Expr → Parser Expr
  | 0, left => pure left
  | n + 1, left => do
    match (← look Cursor.kind).binaryOp? with
    | some op =>
      if op.precedence < level then pure left
      else
        skip
        let right ← g.operand (op.precedence + 1)
        operations g level n (.binary op left right (left.span.merge right.span))
    | none => pure left

/-- Reads an expression whose free operators bind at least as tightly as `level`. -/
def operandStep (g : Grammar) (level : Nat) : Parser Expr := do
  let left ← unaryStep g
  operations g level g.size left

/-! ### Statements -/

/-- Reads an import. -/
def importing : Parser Import := do
  let start ← look Cursor.here
  expect (.keyword .importKw)
  match ← look Cursor.kind with
  | .string path =>
    skip
    let alias? ← behind (.keyword .asKw) ident
    let span ← spanSince start
    pure ⟨path, alias?, span⟩
  | _ => unexpected .importPath

/-- Reads a function declaration. -/
def functionDecl (g : Grammar) : Parser FunctionDef := do
  let start ← look Cursor.here
  expect (.keyword .fnKw)
  let name ← ident
  functionRest g name start

/-- Reads a method declaration: its receiver and the function. -/
def methodDecl (g : Grammar) : Parser (Param × FunctionDef) := do
  let start ← look Cursor.here
  expect (.keyword .fnKw)
  expect (.punct .lparen)
  let receiver ← param g.size
  expect (.punct .rparen)
  let name ← ident
  let f ← functionRest g name start
  pure (receiver, f)

/-- Reads one declared variable whose type has at most `n` tokens. -/
def varBinder (n : Nat) : Parser VarBinder := do
  let name ← ident
  let ty? ← behind (.punct .colon) (typeWithin n)
  pure ⟨name, ty?⟩

/-- Reads the values of a declaration, if any: both marks in front of them mean the same. -/
def initialValues (g : Grammar) : Parser (List Expr) := do
  if ← accept (.punct .eq) then expressions g
  else if ← accept (.punct .colonEq) then expressions g
  else pure []

/-- Reads a declaration of variables or constants. -/
def varDecl (g : Grammar) : Parser Stmt := do
  let start ← look Cursor.here
  let isConst := (← look Cursor.kind) == .keyword .constKw
  skip
  let targets ← items g.size (varBinder g.size)
  let values ← initialValues g
  let span ← spanSince start
  pure (.varDecl isConst targets values span)

/-- Reads a type declaration whose type has at most `n` tokens. -/
def typeDecl (n : Nat) : Parser TypeDecl := do
  let start ← look Cursor.here
  expect (.keyword .typeKw)
  let name ← ident
  let ty ← typeWithin n
  let span ← spanSince start
  pure ⟨name, ty, span⟩

/-- Reads what follows the body of a condition. -/
def alternative (g : Grammar) : Parser Alternative := do
  if ← accept (.keyword .elseKw) then
    if (← look Cursor.kind) = .keyword .ifKw then
      let next ← g.conditional
      pure (.conditional next)
    else
      let body ← block g
      pure (.block body)
  else pure .nothing

/-- Reads a condition with all that follows its `else`. -/
def conditionalStep (g : Grammar) : Parser Conditional := do
  let start ← look Cursor.here
  expect (.keyword .ifKw)
  let cond ← g.operand 0
  let body ← block g
  let otherwise ← alternative g
  let span ← spanSince start
  pure (.mk cond body otherwise span)

/-- Whether a token ends a `return` that has no value. -/
def endsReturn : TokenKind → Bool
  | .punct .semicolon | .punct .rbrace | .eof => true
  | _ => false

/-- Reads a return with its value, if any. -/
def returning (g : Grammar) : Parser Stmt := do
  let start ← look Cursor.here
  expect (.keyword .returnKw)
  if endsReturn (← look Cursor.kind) then
    let span ← spanSince start
    pure (.ret none span)
  else
    let e ← g.operand 0
    let span ← spanSince start
    pure (.ret (some e) span)

/-- Reads an assignment, or an expression by itself. -/
def assignmentOrExpr (g : Grammar) : Parser Stmt := do
  let start ← look Cursor.here
  let targets ← items g.size (operandStep g 0)
  if ← accept (.punct .eq) then
    let values ← expressions g
    let span ← spanSince start
    pure (.assign targets values span)
  else
    match targets with
    | [e] => pure (.expr e)
    | _ => unexpected .assignment

/-- Reads a statement without the semicolon behind it, told by its first one or two tokens. -/
def statementBody (g : Grammar) : Parser Stmt := do
  match ← look Cursor.kind with
  | .keyword .importKw => .importing <$> importing
  | .keyword .fnKw =>
    if (← look Cursor.nextKind) = .punct .lparen then
      let (receiver, f) ← methodDecl g
      pure (.method receiver f)
    else .function <$> functionDecl g
  | .keyword .letKw | .keyword .constKw => varDecl g
  | .keyword .typeKw => .typeDecl <$> typeDecl g.size
  | .keyword .ifKw => .conditional <$> conditionalStep g
  | .keyword .returnKw => returning g
  | .punct .lbrace => .block <$> block g
  | _ => assignmentOrExpr g

/-- Reads a statement with the optional semicolon behind it. -/
def statementStep (g : Grammar) : Parser Stmt := do
  let s ← statementBody g
  let _ ← accept (.punct .semicolon)
  pure s

end Parser

/-! ### The whole grammar -/

namespace Grammar

/-- The grammar where no token is left: every construct misses its first token. -/
def empty : Grammar where
  size := 0
  operand _ := Parser.fail .expectedExpr
  unary := Parser.fail .expectedExpr
  statement := Parser.fail .expectedExpr
  conditional := Parser.unexpected (.token (.keyword .ifKw))

/-- The grammar one level further out than a given one. -/
def step (g : Grammar) : Grammar where
  size := g.size + 1
  operand := Parser.operandStep g
  unary := Parser.unaryStep g
  statement := Parser.statementStep g
  conditional := Parser.conditionalStep g

/-- The grammar for constructs in at most `n` tokens. -/
def within : Nat → Grammar
  | 0 => empty
  | n + 1 => step (within n)

end Grammar

namespace Parser

/-- Reads an expression. -/
def expression : Parser Expr := do
  let n ← remaining
  (Grammar.within n).operand 0

/-- Reads a whole program, up to the end of the file. -/
def program : Parser Program := do
  let start ← look Cursor.here
  let n ← remaining
  let stmts ← statements (Grammar.within n).statement .eof n
  let stop ← look Cursor.here
  pure ⟨stmts, start.merge stop⟩

end Parser

/-- The program that a list of tokens spells, or its first syntax error. -/
def parseTokens (tokens : List Token) : Except SyntaxError Program :=
  (Parser.program (Cursor.ofTokens tokens)).1

/-- The program of a source text, or its first lexical error, or its first syntax error. -/
def parse (source : String) (file : Nat) : Except SyntaxError Program :=
  (tokenize source file).bind parseTokens

end Sable
