import Mathlib.Data.Set.NAry
import Sable.Syntax.Grammar

/-!
# Writing programs as tokens

A program may be written in more than one way: a point in front of a field, a comma behind the
last item of a list, parentheses around a literal and further semicolons may be left out. So a
tree has a wording, which is the set of all the lists of tokens that it may be written as. Every
expression made of smaller ones stands in parentheses, and a semicolon stands behind every
statement.

Not every tree comes from a text. A name that is a builtin type cannot be a declared one, a
declaration names something, an assignment assigns something to something, and the function
literals of a program are numbered in the order in which they are written.
-/

namespace Sable

/-- The ways to write something: there is one, and none of them holds the end of the file. -/
structure Wording where
  /-- The lists of tokens. -/
  words : Set (List TokenKind)
  /-- There is at least one of them. -/
  nonempty : words.Nonempty
  /-- The end of the file is in none of them. -/
  eof_notMem : ∀ w ∈ words, .eof ∉ w

namespace Wording

instance : Membership (List TokenKind) Wording := ⟨fun W w => w ∈ W.words⟩

/-- No token at all. -/
def nothing : Wording where
  words := {[]}
  nonempty := ⟨[], rfl⟩
  eof_notMem := by
    rintro w rfl
    simp

/-- One token. -/
def token (k : TokenKind) (h : k ≠ .eof) : Wording where
  words := {[k]}
  nonempty := ⟨[k], rfl⟩
  eof_notMem := by
    rintro w rfl
    simpa using h.symm

/-- A delimiter or operator. -/
def mark (p : Punct) : Wording := token (.punct p) (by simp)

/-- A reserved word. -/
def keyword (k : Keyword) : Wording := token (.keyword k) (by simp)

/-- A name. -/
def ident (x : Ident) : Wording := token (.ident x.name) (by simp)

/-- One thing in front of another. -/
def append (V W : Wording) : Wording where
  words := Set.image2 (· ++ ·) V.words W.words
  nonempty := Set.Nonempty.image2 V.nonempty W.nonempty
  eof_notMem := by
    rintro w ⟨v, hv, u, hu, rfl⟩
    simpa using ⟨V.eof_notMem v hv, W.eof_notMem u hu⟩

/-- One way to write something or another one. -/
def either (V W : Wording) : Wording where
  words := V.words ∪ W.words
  nonempty := Set.Nonempty.inl V.nonempty
  eof_notMem := by
    rintro w (hw | hw)
    · exact V.eof_notMem w hw
    · exact W.eof_notMem w hw

/-- Any number of semicolons. -/
def semicolons : Wording where
  words := {w | ∃ n, w = List.replicate n (.punct .semicolon)}
  nonempty := ⟨[], 0, rfl⟩
  eof_notMem := by
    rintro w ⟨n, rfl⟩
    simp

/-- What may be left out. -/
def optional (W : Wording) : Wording := nothing.either W

/-- Some things in order. -/
def sequence : List Wording → Wording
  | [] => nothing
  | W :: Ws => W.append (sequence Ws)

/-- Something in parentheses. -/
def parenthesized (W : Wording) : Wording := sequence [mark .lparen, W, mark .rparen]

/-- Some things with a comma in front of each. -/
def further : List Wording → Wording
  | [] => nothing
  | W :: Ws => sequence [mark .comma, W, further Ws]

/-- Some things with commas between them. -/
def separated : List Wording → Wording
  | [] => nothing
  | W :: Ws => sequence [W, further Ws]

/-- Some things with commas between them, and perhaps one behind the last. -/
def trailed : List Wording → Wording
  | [] => nothing
  | [W] => sequence [W, optional (mark .comma)]
  | V :: W :: Ws => sequence [V, mark .comma, trailed (W :: Ws)]

/-- Some things in front of a closing mark, with commas as in `trailed`. -/
def closedBy (p : Punct) (Ws : List Wording) : Wording := sequence [trailed Ws, mark p]

/-- Some things in front of a closing mark, with commas as in `separated`. -/
def endedBy (p : Punct) (Ws : List Wording) : Wording := sequence [separated Ws, mark p]

/-- A token and something behind it, or neither of them. -/
def behind (k : TokenKind) (h : k ≠ .eof) : Option Wording → Wording
  | none => nothing
  | some W => sequence [token k h, W]

end Wording

open Wording

/-! ### Types -/

mutual

/-- The wording of a type. -/
def TypeExpr.wording : TypeExpr → Wording
  | .primitive p span => ident ⟨p.name, span⟩
  | .array elem _ => sequence [mark .lbracket, mark .rbracket, elem.wording]
  | .struct fields _ =>
    sequence [keyword .structKw, mark .lbrace, closedBy .rbrace (FieldDecl.wordings fields)]
  | .function params ret _ =>
    sequence [keyword .fnKw, mark .lparen, closedBy .rparen (TypeExpr.wordings params),
      behind (.punct .arrow) (by simp) (TypeExpr.wording? ret)]
  | .named x => ident x
  | .qualified module x _ => sequence [ident module, mark .colonColon, ident x]

/-- The wordings of some types. -/
def TypeExpr.wordings : List TypeExpr → List Wording
  | [] => []
  | t :: ts => t.wording :: TypeExpr.wordings ts

/-- The wording of a type that may be missing. -/
def TypeExpr.wording? : Option TypeExpr → Option Wording
  | none => none
  | some t => some t.wording

/-- The wording of a field of a struct type. -/
def FieldDecl.wording : FieldDecl → Wording
  | .mk x ty _ => sequence [optional (mark .dot), ident x, mark .colon, ty.wording]

/-- The wordings of some fields. -/
def FieldDecl.wordings : List FieldDecl → List Wording
  | [] => []
  | d :: ds => d.wording :: FieldDecl.wordings ds

end

/-- The wording of a parameter. -/
def Param.wording (p : Param) : Wording := sequence [ident p.name, mark .colon, p.ty.wording]

/-- The wording of a declared variable. -/
def VarBinder.wording (v : VarBinder) : Wording :=
  sequence [ident v.name, behind (.punct .colon) (by simp) (TypeExpr.wording? v.ty?)]

/-- The wording of a type declaration. -/
def TypeDecl.wording (d : TypeDecl) : Wording :=
  sequence [keyword .typeKw, ident d.name, d.ty.wording]

/-- The wording of an import. -/
def Import.wording (i : Import) : Wording :=
  sequence [keyword .importKw, token (.string i.path) (by simp),
    behind (.keyword .asKw) (by simp) (i.alias?.map ident)]

/-! ### Expressions and statements -/

/-- The token that a value is written as. -/
def Literal.kind : Literal → TokenKind
  | int v => .int v
  | float v => .float v
  | string v => .string v
  | bool true => .keyword .trueKw
  | bool false => .keyword .falseKw

theorem Literal.kind_ne_eof (v : Literal) : v.kind ≠ .eof := by
  rcases v with v | v | v | (_ | _) <;> simp [kind]

/-- The mark in front of an operand. -/
def UnaryOp.punct : UnaryOp → Punct
  | neg => .minus
  | not => .not

/-- Whether an expression may stand without parentheses wherever an expression may. -/
def Expr.isAtom : Expr → Bool
  | .literal _ _ | .ident _ | .qualified _ _ _ | .array _ _ | .function _ => true
  | .binary _ _ _ _ | .unary _ _ _ | .call _ _ _ | .field _ _ _ | .index _ _ _ => false

/-- Whether an expression may stand without parentheses at the start of a statement. -/
def Expr.isStart : Expr → Bool
  | .function _ => false
  | e => e.isAtom

/-- Something in parentheses, which may be left out around an atom. -/
def Wording.operand (isAtom : Bool) (W : Wording) : Wording :=
  if isAtom then W.either W.parenthesized else W.parenthesized

mutual

/-- The wording of an expression without parentheses around it. -/
def Expr.bare : Expr → Wording
  | .literal value _ => token value.kind value.kind_ne_eof
  | .ident x => ident x
  | .qualified module x _ => sequence [ident module, mark .colonColon, ident x]
  | .binary op left right _ =>
    sequence [left.bare.operand left.isAtom, mark op.punct, right.bare.operand right.isAtom]
  | .unary op e _ => sequence [mark op.punct, e.bare.operand e.isAtom]
  | .call callee args _ =>
    sequence [callee.bare.operand callee.isAtom, mark .lparen,
      endedBy .rparen (Expr.wordings args)]
  | .field object x _ => sequence [object.bare.operand object.isAtom, mark .dot, ident x]
  | .index object index _ =>
    sequence [object.bare.operand object.isAtom, mark .lbracket, index.bare.operand index.isAtom,
      mark .rbracket]
  | .array elements _ => sequence [mark .lbracket, endedBy .rbracket (Expr.wordings elements)]
  | .function f => sequence [keyword .fnKw, f.wording]

/-- The wordings of some expressions. -/
def Expr.wordings : List Expr → List Wording
  | [] => []
  | e :: es => e.bare.operand e.isAtom :: Expr.wordings es

/-- The wordings of some expressions the first of which starts a statement. -/
def Expr.startWordings : List Expr → List Wording
  | [] => []
  | e :: es => e.bare.operand e.isStart :: Expr.wordings es

/-- The wording of a function behind its name. -/
def FunctionDef.wording : FunctionDef → Wording
  | .mk _ params ret body _ =>
    sequence [mark .lparen, closedBy .rparen (params.map Param.wording),
      behind (.punct .arrow) (by simp) (TypeExpr.wording? ret), body.wording]

/-- The wording of a block. -/
def Block.wording : Block → Wording
  | .mk stmts _ => sequence [mark .lbrace, Stmt.wordings stmts, mark .rbrace]

/-- The wording of a condition with all that follows its `else`. -/
def Conditional.wording : Conditional → Wording
  | .mk cond body otherwise _ =>
    sequence [keyword .ifKw, cond.bare.operand cond.isAtom, body.wording, otherwise.wording]

/-- The wording of what follows the body of a condition. -/
def Alternative.wording : Alternative → Wording
  | .nothing => nothing
  | .block body => sequence [keyword .elseKw, body.wording]
  | .conditional next => sequence [keyword .elseKw, next.wording]

/-- The wording of a statement without semicolons behind it. -/
def Stmt.wording : Stmt → Wording
  | .importing i => i.wording
  | .function f => sequence [keyword .fnKw, ident f.name, f.wording]
  | .method receiver f =>
    sequence [keyword .fnKw, mark .lparen, receiver.wording, mark .rparen, ident f.name, f.wording]
  | .varDecl isConst targets values _ =>
    sequence [keyword (if isConst then .constKw else .letKw),
      separated (targets.map VarBinder.wording),
      if values.isEmpty then nothing
      else sequence [(mark .eq).either (mark .colonEq), separated (Expr.wordings values)]]
  | .typeDecl d => d.wording
  | .assign targets values _ =>
    sequence [separated (Expr.startWordings targets), mark .eq, separated (Expr.wordings values)]
  | .conditional c => c.wording
  | .ret none _ => keyword .returnKw
  | .ret (some e) _ => sequence [keyword .returnKw, e.bare.operand e.isAtom]
  | .block b => b.wording
  | .expr e => e.bare.operand e.isStart

/-- The wording of some statements with one or more semicolons behind each. -/
def Stmt.wordings : List Stmt → Wording
  | [] => nothing
  | s :: ss => sequence [s.wording, mark .semicolon, semicolons, Stmt.wordings ss]

end

/-- The wording of an expression wherever an expression may stand. -/
def Expr.wording (e : Expr) : Wording := e.bare.operand e.isAtom

/-- The wording of a program. -/
def Program.wording (p : Program) : Wording := Stmt.wordings p.stmts

/-! ### Trees that come from a text -/

mutual

/-- No declared name in a type is a builtin one. -/
inductive TypeExpr.WellFormed : TypeExpr → Prop
  | primitive (p : Primitive) (span : Span) : TypeExpr.WellFormed (.primitive p span)
  | array {elem : TypeExpr} (span : Span) : TypeExpr.WellFormed elem →
    TypeExpr.WellFormed (.array elem span)
  | struct {fields : List FieldDecl} (span : Span) :
    (∀ d ∈ fields, FieldDecl.WellFormed d) → TypeExpr.WellFormed (.struct fields span)
  | function {params : List TypeExpr} {ret : Option TypeExpr} (span : Span) :
    (∀ t ∈ params, TypeExpr.WellFormed t) → (∀ t ∈ ret, TypeExpr.WellFormed t) →
    TypeExpr.WellFormed (.function params ret span)
  | named {x : Ident} : Primitive.ofName? x.name = none → TypeExpr.WellFormed (.named x)
  | qualified (module x : Ident) (span : Span) : TypeExpr.WellFormed (.qualified module x span)

/-- No declared name in the type of a field is a builtin one. -/
inductive FieldDecl.WellFormed : FieldDecl → Prop
  | mk {ty : TypeExpr} (x : Ident) (span : Span) : TypeExpr.WellFormed ty →
    FieldDecl.WellFormed (.mk x ty span)

end

mutual

/-- All types and statements in an expression are well-formed. -/
inductive Expr.WellFormed : Expr → Prop
  | literal (value : Literal) (span : Span) : Expr.WellFormed (.literal value span)
  | ident (x : Ident) : Expr.WellFormed (.ident x)
  | qualified (module x : Ident) (span : Span) : Expr.WellFormed (.qualified module x span)
  | binary {left right : Expr} (op : BinaryOp) (span : Span) : Expr.WellFormed left →
    Expr.WellFormed right → Expr.WellFormed (.binary op left right span)
  | unary {e : Expr} (op : UnaryOp) (span : Span) : Expr.WellFormed e →
    Expr.WellFormed (.unary op e span)
  | call {callee : Expr} {args : List Expr} (span : Span) : Expr.WellFormed callee →
    (∀ e ∈ args, Expr.WellFormed e) → Expr.WellFormed (.call callee args span)
  | field {object : Expr} (x : Ident) (span : Span) : Expr.WellFormed object →
    Expr.WellFormed (.field object x span)
  | index {object index : Expr} (span : Span) : Expr.WellFormed object → Expr.WellFormed index →
    Expr.WellFormed (.index object index span)
  | array {elements : List Expr} (span : Span) : (∀ e ∈ elements, Expr.WellFormed e) →
    Expr.WellFormed (.array elements span)
  | function {f : FunctionDef} : FunctionDef.WellFormed f → Expr.WellFormed (.function f)

/-- All types and statements in a function are well-formed. -/
inductive FunctionDef.WellFormed : FunctionDef → Prop
  | mk {params : List Param} {ret : Option TypeExpr} {body : Block} (x : Ident) (span : Span) :
    (∀ p ∈ params, p.ty.WellFormed) → (∀ t ∈ ret, t.WellFormed) → Block.WellFormed body →
    FunctionDef.WellFormed (.mk x params ret body span)

/-- All statements in a block are well-formed. -/
inductive Block.WellFormed : Block → Prop
  | mk {stmts : List Stmt} (span : Span) : (∀ s ∈ stmts, Stmt.WellFormed s) →
    Block.WellFormed (.mk stmts span)

/-- All types and statements in a condition are well-formed. -/
inductive Conditional.WellFormed : Conditional → Prop
  | mk {cond : Expr} {body : Block} {otherwise : Alternative} (span : Span) :
    Expr.WellFormed cond → Block.WellFormed body → Alternative.WellFormed otherwise →
    Conditional.WellFormed (.mk cond body otherwise span)

/-- All types and statements behind an `else` are well-formed. -/
inductive Alternative.WellFormed : Alternative → Prop
  | nothing : Alternative.WellFormed .nothing
  | block {body : Block} : Block.WellFormed body → Alternative.WellFormed (.block body)
  | conditional {next : Conditional} : Conditional.WellFormed next →
    Alternative.WellFormed (.conditional next)

/-- A declaration names something, an assignment has two sides, and so on inside. -/
inductive Stmt.WellFormed : Stmt → Prop
  | importing (i : Import) : Stmt.WellFormed (.importing i)
  | function {f : FunctionDef} : FunctionDef.WellFormed f → Stmt.WellFormed (.function f)
  | method {receiver : Param} {f : FunctionDef} : receiver.ty.WellFormed →
    FunctionDef.WellFormed f → Stmt.WellFormed (.method receiver f)
  | varDecl {targets : List VarBinder} {values : List Expr} (isConst : Bool) (span : Span) :
    targets ≠ [] → (∀ v ∈ targets, ∀ t ∈ v.ty?, t.WellFormed) →
    (∀ e ∈ values, Expr.WellFormed e) → Stmt.WellFormed (.varDecl isConst targets values span)
  | typeDecl {d : TypeDecl} : d.ty.WellFormed → Stmt.WellFormed (.typeDecl d)
  | assign {targets values : List Expr} (span : Span) : targets ≠ [] → values ≠ [] →
    (∀ e ∈ targets, Expr.WellFormed e) → (∀ e ∈ values, Expr.WellFormed e) →
    Stmt.WellFormed (.assign targets values span)
  | conditional {c : Conditional} : Conditional.WellFormed c → Stmt.WellFormed (.conditional c)
  | ret {value : Option Expr} (span : Span) : (∀ e ∈ value, Expr.WellFormed e) →
    Stmt.WellFormed (.ret value span)
  | block {b : Block} : Block.WellFormed b → Stmt.WellFormed (.block b)
  | expr {e : Expr} : Expr.WellFormed e → Stmt.WellFormed (.expr e)

end

/-! ### Names of function literals -/

mutual

/-- The names of the function literals in an expression, in the order of their first tokens. -/
def Expr.literalNames : Expr → List String
  | .literal _ _ | .ident _ | .qualified _ _ _ => []
  | .binary _ left right _ => left.literalNames ++ right.literalNames
  | .unary _ e _ => e.literalNames
  | .call callee args _ => callee.literalNames ++ Expr.literalNamesAll args
  | .field object _ _ => object.literalNames
  | .index object index _ => object.literalNames ++ index.literalNames
  | .array elements _ => Expr.literalNamesAll elements
  | .function f => f.name.name :: f.literalNames

/-- The names of the function literals in some expressions. -/
def Expr.literalNamesAll : List Expr → List String
  | [] => []
  | e :: es => e.literalNames ++ Expr.literalNamesAll es

/-- The names of the function literals in a function. -/
def FunctionDef.literalNames : FunctionDef → List String
  | .mk _ _ _ body _ => body.literalNames

/-- The names of the function literals in a block. -/
def Block.literalNames : Block → List String
  | .mk stmts _ => Stmt.literalNamesAll stmts

/-- The names of the function literals in a condition with all that follows its `else`. -/
def Conditional.literalNames : Conditional → List String
  | .mk cond body otherwise _ => cond.literalNames ++ (body.literalNames ++ otherwise.literalNames)

/-- The names of the function literals in what follows the body of a condition. -/
def Alternative.literalNames : Alternative → List String
  | .nothing => []
  | .block body => body.literalNames
  | .conditional next => next.literalNames

/-- The names of the function literals in a statement. -/
def Stmt.literalNames : Stmt → List String
  | .importing _ | .typeDecl _ | .ret none _ => []
  | .function f | .method _ f => f.literalNames
  | .varDecl _ _ values _ => Expr.literalNamesAll values
  | .assign targets values _ => Expr.literalNamesAll targets ++ Expr.literalNamesAll values
  | .conditional c => c.literalNames
  | .ret (some e) _ => e.literalNames
  | .block b => b.literalNames
  | .expr e => e.literalNames

/-- The names of the function literals in some statements. -/
def Stmt.literalNamesAll : List Stmt → List String
  | [] => []
  | s :: ss => s.literalNames ++ Stmt.literalNamesAll ss

end

/-- Names that function literals get one after the other, from a number on. -/
def Numbered (i : Nat) (names : List String) : Prop :=
  names = (List.range' i names.length).map Parser.literalName

/-- A program that comes from a text. -/
structure Program.WellFormed (p : Program) : Prop where
  /-- All statements are well-formed. -/
  stmts : ∀ s ∈ p.stmts, s.WellFormed
  /-- The function literals are numbered as they are written. -/
  numbered : Numbered 0 (Stmt.literalNamesAll p.stmts)

end Sable
