import Sable.Token
import Sable.Primitive

/-!
# Abstract syntax

The tree of a parsed program. Every node carries the span of the source text it was read
from. A function literal has the shape of a declared function under a name of its own, so
that the passes over a program treat both alike.
-/

namespace Sable

/-- A name and where it stands. -/
structure Ident where
  /-- The name. -/
  name : String
  /-- Where the name stands. -/
  span : Span
  deriving DecidableEq, Repr, Inhabited

mutual

/-- A type as it is written. -/
inductive TypeExpr
  /-- A builtin type. -/
  | primitive (p : Primitive) (span : Span)
  /-- An array type `[]T`. -/
  | array (elem : TypeExpr) (span : Span)
  /-- A struct type with its fields in the order written. -/
  | struct (fields : List FieldDecl) (span : Span)
  /-- A function type `fn(T, U) -> R`. -/
  | function (params : List TypeExpr) (ret : Option TypeExpr) (span : Span)
  /-- A declared name. -/
  | named (name : Ident)
  /-- A name `m::T` that an imported module declares. -/
  | qualified (module name : Ident) (span : Span)

/-- A field of a struct type. -/
inductive FieldDecl
  | mk (name : Ident) (ty : TypeExpr) (span : Span)

end

instance : Inhabited TypeExpr := ⟨.named default⟩

/-- Where a type is written. -/
def TypeExpr.span : TypeExpr → Span
  | primitive _ span => span
  | array _ span => span
  | struct _ span => span
  | function _ _ span => span
  | named name => name.span
  | qualified _ _ span => span

namespace FieldDecl

/-- The name of a field. -/
def name : FieldDecl → Ident
  | mk name _ _ => name

/-- The written type of a field. -/
def ty : FieldDecl → TypeExpr
  | mk _ ty _ => ty

/-- Where a field is written. -/
def span : FieldDecl → Span
  | mk _ _ span => span

end FieldDecl

/-- An import of another module. -/
structure Import where
  /-- The path that names the module. -/
  path : String
  /-- The alias after `as`. -/
  alias? : Option Ident
  /-- Where the import stands. -/
  span : Span

/-- A parameter of a function, or the receiver of a method. -/
structure Param where
  /-- The name of the parameter. -/
  name : Ident
  /-- Its type as written. -/
  ty : TypeExpr
  /-- Where the parameter stands. -/
  span : Span

/-- One name that a `let` or `const` declares. -/
structure VarBinder where
  /-- The declared name. -/
  name : Ident
  /-- Its type as written, if any. -/
  ty? : Option TypeExpr

/-- A declaration of a name for a type. -/
structure TypeDecl where
  /-- The declared name. -/
  name : Ident
  /-- The type as written. -/
  ty : TypeExpr
  /-- Where the declaration stands. -/
  span : Span

/-- A value that is written out. -/
inductive Literal
  /-- An integer. -/
  | int (value : Nat)
  /-- A floating-point number. -/
  | float (value : Binary64)
  /-- A string. -/
  | string (value : String)
  /-- A truth value. -/
  | bool (value : Bool)
  deriving DecidableEq, Repr

/-- The operators in front of an operand. -/
inductive UnaryOp
  /-- Arithmetic negation. -/
  | neg
  /-- Logical negation. -/
  | not
  deriving DecidableEq, Repr

mutual

/-- Expressions. Parentheses leave no trace but the shape of the tree. -/
inductive Expr
  /-- A written value. -/
  | literal (value : Literal) (span : Span)
  /-- A name. -/
  | ident (name : Ident)
  /-- A name `m::x` of an imported module. -/
  | qualified (module name : Ident) (span : Span)
  /-- An operator between two operands. -/
  | binary (op : BinaryOp) (left right : Expr) (span : Span)
  /-- An operator in front of its operand. -/
  | unary (op : UnaryOp) (operand : Expr) (span : Span)
  /-- A call. -/
  | call (callee : Expr) (args : List Expr) (span : Span)
  /-- A field or method `e.x`. -/
  | field (object : Expr) (field : Ident) (span : Span)
  /-- An element `e[i]`. -/
  | index (object index : Expr) (span : Span)
  /-- An array written by its elements. -/
  | array (elements : List Expr) (span : Span)
  /-- A function literal. -/
  | function (f : FunctionDef)

/-- A function with its name, which a literal is given by its place in the program. -/
inductive FunctionDef
  | mk (name : Ident) (params : List Param) (ret : Option TypeExpr) (body : Block) (span : Span)

/-- Statements between braces. -/
inductive Block
  | mk (stmts : List Stmt) (span : Span)

/-- A condition with what to do if it holds and if not. -/
inductive Conditional
  | mk (cond : Expr) (body : Block) (otherwise : Alternative) (span : Span)

/-- What follows the body of a condition. -/
inductive Alternative
  /-- No `else`. -/
  | nothing
  /-- An `else` with a block. -/
  | block (body : Block)
  /-- An `else` with another condition. -/
  | conditional (next : Conditional)

/-- Statements. -/
inductive Stmt
  /-- An import of another module. -/
  | importing (i : Import)
  /-- A function declaration. -/
  | function (f : FunctionDef)
  /-- A method declaration: a function with a receiver. -/
  | method (receiver : Param) (f : FunctionDef)
  /-- A declaration of variables or constants. -/
  | varDecl (isConst : Bool) (targets : List VarBinder) (values : List Expr) (span : Span)
  /-- A type declaration. -/
  | typeDecl (d : TypeDecl)
  /-- An assignment. -/
  | assign (targets values : List Expr) (span : Span)
  /-- A condition. -/
  | conditional (c : Conditional)
  /-- A return from a function. -/
  | ret (value : Option Expr) (span : Span)
  /-- A block. -/
  | block (b : Block)
  /-- An expression evaluated for its effect. -/
  | expr (e : Expr)

end

instance : Inhabited Block := ⟨.mk [] default⟩

instance : Inhabited Expr := ⟨.ident default⟩

namespace FunctionDef

/-- The name of a function. -/
def name : FunctionDef → Ident
  | mk name _ _ _ _ => name

/-- The parameters of a function. -/
def params : FunctionDef → List Param
  | mk _ params _ _ _ => params

/-- The written result type of a function. -/
def ret : FunctionDef → Option TypeExpr
  | mk _ _ ret _ _ => ret

/-- The body of a function. -/
def body : FunctionDef → Block
  | mk _ _ _ body _ => body

/-- Where a function is written. -/
def span : FunctionDef → Span
  | mk _ _ _ _ span => span

end FunctionDef

namespace Block

/-- The statements of a block. -/
def stmts : Block → List Stmt
  | mk stmts _ => stmts

/-- Where a block is written, braces included. -/
def span : Block → Span
  | mk _ span => span

end Block

/-- Where a condition is written, with all that follows its `else`. -/
def Conditional.span : Conditional → Span
  | mk _ _ _ span => span

/-- Where an expression is written, less the parentheses around it. -/
def Expr.span : Expr → Span
  | literal _ span => span
  | ident name => name.span
  | qualified _ _ span => span
  | binary _ _ _ span => span
  | unary _ _ span => span
  | call _ _ span => span
  | field _ _ span => span
  | index _ _ span => span
  | array _ span => span
  | function f => f.span

/-- Where a statement is written, less the semicolon behind it. -/
def Stmt.span : Stmt → Span
  | importing i => i.span
  | function f => f.span
  | method _ f => f.span
  | varDecl _ _ _ span => span
  | typeDecl d => d.span
  | assign _ _ span => span
  | conditional c => c.span
  | ret _ span => span
  | block b => b.span
  | expr e => e.span

/-- A whole source file. -/
structure Program where
  /-- The statements in order. -/
  stmts : List Stmt
  /-- From the first token to the end of the file. -/
  span : Span

end Sable
