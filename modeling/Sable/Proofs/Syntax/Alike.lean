import Mathlib.Data.List.Forall2
import Mathlib.Data.Option.Basic
import Mathlib.Order.Basic
import Sable.Syntax

/-!
# Trees that differ in spans only

Two trees are alike if they are the same but for their spans, and if the spans of the names in
them are related one by one. Only the names count: the spans of all other nodes are free, since
nothing but the place of a report depends on them. A name that stands for a function literal
counts as well, although it is written nowhere.
-/

namespace Sable

/-- The same name twice, in related places. -/
structure Ident.Alike (R : Span → Span → Prop) (x y : Ident) : Prop where
  /-- The names are equal. -/
  name : x.name = y.name
  /-- Their places are related. -/
  span : R x.span y.span

theorem Ident.Alike.mono {R S : Span → Span → Prop} {x y : Ident} (h : x.Alike R y)
    (hRS : R ≤ S) : x.Alike S y :=
  ⟨h.name, hRS _ _ h.span⟩

mutual

/-- The same written type twice, with names in related places. -/
inductive TypeExpr.Alike (R : Span → Span → Prop) : TypeExpr → TypeExpr → Prop
  | primitive (p : Primitive) (span span' : Span) :
    TypeExpr.Alike R (.primitive p span) (.primitive p span')
  | array {elem elem' : TypeExpr} (span span' : Span) : TypeExpr.Alike R elem elem' →
    TypeExpr.Alike R (.array elem span) (.array elem' span')
  | struct {fields fields' : List FieldDecl} (span span' : Span) :
    List.Forall₂ (FieldDecl.Alike R) fields fields' →
    TypeExpr.Alike R (.struct fields span) (.struct fields' span')
  | function {params params' : List TypeExpr} {ret ret' : Option TypeExpr} (span span' : Span) :
    List.Forall₂ (TypeExpr.Alike R) params params' → Option.Rel (TypeExpr.Alike R) ret ret' →
    TypeExpr.Alike R (.function params ret span) (.function params' ret' span')
  | named {name name' : Ident} : name.Alike R name' →
    TypeExpr.Alike R (.named name) (.named name')
  | qualified {module module' name name' : Ident} (span span' : Span) :
    module.Alike R module' → name.Alike R name' →
    TypeExpr.Alike R (.qualified module name span) (.qualified module' name' span')

/-- The same field twice, with names in related places. -/
inductive FieldDecl.Alike (R : Span → Span → Prop) : FieldDecl → FieldDecl → Prop
  | mk {name name' : Ident} {ty ty' : TypeExpr} (span span' : Span) :
    name.Alike R name' → TypeExpr.Alike R ty ty' →
    FieldDecl.Alike R (.mk name ty span) (.mk name' ty' span')

end

/-- The same import twice, with an alias in related places. -/
structure Import.Alike (R : Span → Span → Prop) (i j : Import) : Prop where
  /-- The paths are equal. -/
  path : i.path = j.path
  /-- The aliases are the same. -/
  alias? : Option.Rel (Ident.Alike R) i.alias? j.alias?

/-- The same parameter twice, with names in related places. -/
structure Param.Alike (R : Span → Span → Prop) (p q : Param) : Prop where
  /-- The names are the same. -/
  name : p.name.Alike R q.name
  /-- The types are the same. -/
  ty : p.ty.Alike R q.ty

/-- The same variable twice, with names in related places. -/
structure VarBinder.Alike (R : Span → Span → Prop) (v w : VarBinder) : Prop where
  /-- The names are the same. -/
  name : v.name.Alike R w.name
  /-- The types are the same. -/
  ty? : Option.Rel (TypeExpr.Alike R) v.ty? w.ty?

/-- The same type declaration twice, with names in related places. -/
structure TypeDecl.Alike (R : Span → Span → Prop) (d e : TypeDecl) : Prop where
  /-- The names are the same. -/
  name : d.name.Alike R e.name
  /-- The types are the same. -/
  ty : d.ty.Alike R e.ty

mutual

/-- The same expression twice, with names in related places. -/
inductive Expr.Alike (R : Span → Span → Prop) : Expr → Expr → Prop
  | literal (value : Literal) (span span' : Span) :
    Expr.Alike R (.literal value span) (.literal value span')
  | ident {name name' : Ident} : name.Alike R name' → Expr.Alike R (.ident name) (.ident name')
  | qualified {module module' name name' : Ident} (span span' : Span) :
    module.Alike R module' → name.Alike R name' →
    Expr.Alike R (.qualified module name span) (.qualified module' name' span')
  | binary {left left' right right' : Expr} (op : BinaryOp) (span span' : Span) :
    Expr.Alike R left left' → Expr.Alike R right right' →
    Expr.Alike R (.binary op left right span) (.binary op left' right' span')
  | unary {operand operand' : Expr} (op : UnaryOp) (span span' : Span) :
    Expr.Alike R operand operand' →
    Expr.Alike R (.unary op operand span) (.unary op operand' span')
  | call {callee callee' : Expr} {args args' : List Expr} (span span' : Span) :
    Expr.Alike R callee callee' → List.Forall₂ (Expr.Alike R) args args' →
    Expr.Alike R (.call callee args span) (.call callee' args' span')
  | field {object object' : Expr} {field field' : Ident} (span span' : Span) :
    Expr.Alike R object object' → field.Alike R field' →
    Expr.Alike R (.field object field span) (.field object' field' span')
  | index {object object' index index' : Expr} (span span' : Span) :
    Expr.Alike R object object' → Expr.Alike R index index' →
    Expr.Alike R (.index object index span) (.index object' index' span')
  | array {elements elements' : List Expr} (span span' : Span) :
    List.Forall₂ (Expr.Alike R) elements elements' →
    Expr.Alike R (.array elements span) (.array elements' span')
  | function {f f' : FunctionDef} : FunctionDef.Alike R f f' →
    Expr.Alike R (.function f) (.function f')

/-- The same function twice, with names in related places. -/
inductive FunctionDef.Alike (R : Span → Span → Prop) : FunctionDef → FunctionDef → Prop
  | mk {name name' : Ident} {params params' : List Param} {ret ret' : Option TypeExpr}
      {body body' : Block} (span span' : Span) :
    name.Alike R name' → List.Forall₂ (Param.Alike R) params params' →
    Option.Rel (TypeExpr.Alike R) ret ret' → Block.Alike R body body' →
    FunctionDef.Alike R (.mk name params ret body span) (.mk name' params' ret' body' span')

/-- The same block twice, with names in related places. -/
inductive Block.Alike (R : Span → Span → Prop) : Block → Block → Prop
  | mk {stmts stmts' : List Stmt} (span span' : Span) :
    List.Forall₂ (Stmt.Alike R) stmts stmts' → Block.Alike R (.mk stmts span) (.mk stmts' span')

/-- The same condition twice, with names in related places. -/
inductive Conditional.Alike (R : Span → Span → Prop) : Conditional → Conditional → Prop
  | mk {cond cond' : Expr} {body body' : Block} {otherwise otherwise' : Alternative}
      (span span' : Span) :
    Expr.Alike R cond cond' → Block.Alike R body body' →
    Alternative.Alike R otherwise otherwise' →
    Conditional.Alike R (.mk cond body otherwise span) (.mk cond' body' otherwise' span')

/-- The same alternative twice, with names in related places. -/
inductive Alternative.Alike (R : Span → Span → Prop) : Alternative → Alternative → Prop
  | nothing : Alternative.Alike R .nothing .nothing
  | block {body body' : Block} : Block.Alike R body body' →
    Alternative.Alike R (.block body) (.block body')
  | conditional {next next' : Conditional} : Conditional.Alike R next next' →
    Alternative.Alike R (.conditional next) (.conditional next')

/-- The same statement twice, with names in related places. -/
inductive Stmt.Alike (R : Span → Span → Prop) : Stmt → Stmt → Prop
  | importing {i i' : Import} : i.Alike R i' → Stmt.Alike R (.importing i) (.importing i')
  | function {f f' : FunctionDef} : FunctionDef.Alike R f f' →
    Stmt.Alike R (.function f) (.function f')
  | method {receiver receiver' : Param} {f f' : FunctionDef} : receiver.Alike R receiver' →
    FunctionDef.Alike R f f' → Stmt.Alike R (.method receiver f) (.method receiver' f')
  | varDecl {targets targets' : List VarBinder} {values values' : List Expr} (isConst : Bool)
      (span span' : Span) :
    List.Forall₂ (VarBinder.Alike R) targets targets' →
    List.Forall₂ (Expr.Alike R) values values' →
    Stmt.Alike R (.varDecl isConst targets values span) (.varDecl isConst targets' values' span')
  | typeDecl {d d' : TypeDecl} : d.Alike R d' → Stmt.Alike R (.typeDecl d) (.typeDecl d')
  | assign {targets targets' values values' : List Expr} (span span' : Span) :
    List.Forall₂ (Expr.Alike R) targets targets' →
    List.Forall₂ (Expr.Alike R) values values' →
    Stmt.Alike R (.assign targets values span) (.assign targets' values' span')
  | conditional {c c' : Conditional} : Conditional.Alike R c c' →
    Stmt.Alike R (.conditional c) (.conditional c')
  | ret {value value' : Option Expr} (span span' : Span) :
    Option.Rel (Expr.Alike R) value value' → Stmt.Alike R (.ret value span) (.ret value' span')
  | block {b b' : Block} : Block.Alike R b b' → Stmt.Alike R (.block b) (.block b')
  | expr {e e' : Expr} : Expr.Alike R e e' → Stmt.Alike R (.expr e) (.expr e')

end

/-- The same program twice, with names in related places. -/
def Program.Alike (R : Span → Span → Prop) (p q : Program) : Prop :=
  List.Forall₂ (Stmt.Alike R) p.stmts q.stmts

end Sable
