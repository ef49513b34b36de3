import Sable.Proofs.Syntax.Alike

/-!
# Trees with their places

Two trees are paired if they are the same but for their spans, the spans of the names in them
are related one by one, and so are the spans of all other nodes. Names and nodes have a relation
each: declarations are told apart by the places of their names, while the place of a node is where
a problem is reported.
-/

namespace Sable

/-- Any two places, where nothing is asked of the places of nodes. -/
def Span.Free : Span → Span → Prop := fun _ _ => True

mutual

/-- The same written type twice, in related places. -/
inductive TypeExpr.Paired (N R : Span → Span → Prop) : TypeExpr → TypeExpr → Prop
  | primitive (p : Primitive) {span span' : Span} : N span span' →
    TypeExpr.Paired N R (.primitive p span) (.primitive p span')
  | array {elem elem' : TypeExpr} {span span' : Span} : N span span' →
    TypeExpr.Paired N R elem elem' →
    TypeExpr.Paired N R (.array elem span) (.array elem' span')
  | struct {fields fields' : List FieldDecl} {span span' : Span} : N span span' →
    List.Forall₂ (FieldDecl.Paired N R) fields fields' →
    TypeExpr.Paired N R (.struct fields span) (.struct fields' span')
  | function {params params' : List TypeExpr} {ret ret' : Option TypeExpr} {span span' : Span} :
    N span span' →
    List.Forall₂ (TypeExpr.Paired N R) params params' →
    Option.Rel (TypeExpr.Paired N R) ret ret' →
    TypeExpr.Paired N R (.function params ret span) (.function params' ret' span')
  | named {name name' : Ident} : name.Alike R name' →
    TypeExpr.Paired N R (.named name) (.named name')
  | qualified {module module' name name' : Ident} {span span' : Span} : N span span' →
    module.Alike R module' → name.Alike R name' →
    TypeExpr.Paired N R (.qualified module name span) (.qualified module' name' span')

/-- The same field twice, in related places. -/
inductive FieldDecl.Paired (N R : Span → Span → Prop) : FieldDecl → FieldDecl → Prop
  | mk {name name' : Ident} {ty ty' : TypeExpr} {span span' : Span} : N span span' →
    name.Alike R name' → TypeExpr.Paired N R ty ty' →
    FieldDecl.Paired N R (.mk name ty span) (.mk name' ty' span')

end

/-- The same import twice, in related places. -/
structure Import.Paired (N R : Span → Span → Prop) (i j : Import) : Prop where
  /-- The paths are equal. -/
  path : i.path = j.path
  /-- The aliases are the same. -/
  alias? : Option.Rel (Ident.Alike R) i.alias? j.alias?
  /-- The imports stand in related places. -/
  span : N i.span j.span

/-- The same parameter twice, in related places. -/
structure Param.Paired (N R : Span → Span → Prop) (p q : Param) : Prop where
  /-- The names are the same. -/
  name : p.name.Alike R q.name
  /-- The types are the same. -/
  ty : p.ty.Paired N R q.ty
  /-- The parameters stand in related places. -/
  span : N p.span q.span

/-- The same variable twice, in related places. -/
structure VarBinder.Paired (N R : Span → Span → Prop) (v w : VarBinder) : Prop where
  /-- The names are the same. -/
  name : v.name.Alike R w.name
  /-- The types are the same. -/
  ty? : Option.Rel (TypeExpr.Paired N R) v.ty? w.ty?

/-- The same type declaration twice, in related places. -/
structure TypeDecl.Paired (N R : Span → Span → Prop) (d e : TypeDecl) : Prop where
  /-- The names are the same. -/
  name : d.name.Alike R e.name
  /-- The types are the same. -/
  ty : d.ty.Paired N R e.ty
  /-- The declarations stand in related places. -/
  span : N d.span e.span

/-- Written types that are paired stand in related places. -/
theorem TypeExpr.Paired.span {N R : Span → Span → Prop} (hN : R ≤ N) {ty ty' : TypeExpr}
    (h : ty.Paired N R ty') : N ty.span ty'.span := by
  cases h with
  | named hname => exact hN _ _ hname.span
  | primitive _ h | array h | struct h | function h | qualified h => exact h

mutual

/-- The same expression twice, in related places. -/
inductive Expr.Paired (N R : Span → Span → Prop) : Expr → Expr → Prop
  | literal (value : Literal) {span span' : Span} : N span span' →
    Expr.Paired N R (.literal value span) (.literal value span')
  | ident {name name' : Ident} : name.Alike R name' → Expr.Paired N R (.ident name) (.ident name')
  | qualified {module module' name name' : Ident} {span span' : Span} : N span span' →
    module.Alike R module' → name.Alike R name' →
    Expr.Paired N R (.qualified module name span) (.qualified module' name' span')
  | binary {left left' right right' : Expr} (op : BinaryOp) {span span' : Span} : N span span' →
    Expr.Paired N R left left' → Expr.Paired N R right right' →
    Expr.Paired N R (.binary op left right span) (.binary op left' right' span')
  | unary {operand operand' : Expr} (op : UnaryOp) {span span' : Span} : N span span' →
    Expr.Paired N R operand operand' →
    Expr.Paired N R (.unary op operand span) (.unary op operand' span')
  | call {callee callee' : Expr} {args args' : List Expr} {span span' : Span} : N span span' →
    Expr.Paired N R callee callee' → List.Forall₂ (Expr.Paired N R) args args' →
    Expr.Paired N R (.call callee args span) (.call callee' args' span')
  | field {object object' : Expr} {field field' : Ident} {span span' : Span} : N span span' →
    Expr.Paired N R object object' → field.Alike R field' →
    Expr.Paired N R (.field object field span) (.field object' field' span')
  | index {object object' index index' : Expr} {span span' : Span} : N span span' →
    Expr.Paired N R object object' → Expr.Paired N R index index' →
    Expr.Paired N R (.index object index span) (.index object' index' span')
  | array {elements elements' : List Expr} {span span' : Span} : N span span' →
    List.Forall₂ (Expr.Paired N R) elements elements' →
    Expr.Paired N R (.array elements span) (.array elements' span')
  | function {f f' : FunctionDef} : FunctionDef.Paired N R f f' →
    Expr.Paired N R (.function f) (.function f')

/-- The same function twice, in related places. -/
inductive FunctionDef.Paired (N R : Span → Span → Prop) : FunctionDef → FunctionDef → Prop
  | mk {name name' : Ident} {params params' : List Param} {ret ret' : Option TypeExpr}
      {body body' : Block} {span span' : Span} : N span span' →
    name.Alike R name' → List.Forall₂ (Param.Paired N R) params params' →
    Option.Rel (TypeExpr.Paired N R) ret ret' → Block.Paired N R body body' →
    FunctionDef.Paired N R (.mk name params ret body span) (.mk name' params' ret' body' span')

/-- The same block twice, in related places. -/
inductive Block.Paired (N R : Span → Span → Prop) : Block → Block → Prop
  | mk {stmts stmts' : List Stmt} {span span' : Span} : N span span' →
    List.Forall₂ (Stmt.Paired N R) stmts stmts' →
    Block.Paired N R (.mk stmts span) (.mk stmts' span')

/-- The same condition twice, in related places. -/
inductive Conditional.Paired (N R : Span → Span → Prop) : Conditional → Conditional → Prop
  | mk {cond cond' : Expr} {body body' : Block} {otherwise otherwise' : Alternative}
      {span span' : Span} : N span span' →
    Expr.Paired N R cond cond' → Block.Paired N R body body' →
    Alternative.Paired N R otherwise otherwise' →
    Conditional.Paired N R (.mk cond body otherwise span) (.mk cond' body' otherwise' span')

/-- The same alternative twice, in related places. -/
inductive Alternative.Paired (N R : Span → Span → Prop) : Alternative → Alternative → Prop
  | nothing : Alternative.Paired N R .nothing .nothing
  | block {body body' : Block} : Block.Paired N R body body' →
    Alternative.Paired N R (.block body) (.block body')
  | conditional {next next' : Conditional} : Conditional.Paired N R next next' →
    Alternative.Paired N R (.conditional next) (.conditional next')

/-- The same statement twice, in related places. -/
inductive Stmt.Paired (N R : Span → Span → Prop) : Stmt → Stmt → Prop
  | importing {i i' : Import} : i.Paired N R i' → Stmt.Paired N R (.importing i) (.importing i')
  | function {f f' : FunctionDef} : FunctionDef.Paired N R f f' →
    Stmt.Paired N R (.function f) (.function f')
  | method {receiver receiver' : Param} {f f' : FunctionDef} : receiver.Paired N R receiver' →
    FunctionDef.Paired N R f f' → Stmt.Paired N R (.method receiver f) (.method receiver' f')
  | varDecl {targets targets' : List VarBinder} {values values' : List Expr} (isConst : Bool)
      {span span' : Span} : N span span' →
    List.Forall₂ (VarBinder.Paired N R) targets targets' →
    List.Forall₂ (Expr.Paired N R) values values' →
    Stmt.Paired N R (.varDecl isConst targets values span) (.varDecl isConst targets' values' span')
  | typeDecl {d d' : TypeDecl} : d.Paired N R d' → Stmt.Paired N R (.typeDecl d) (.typeDecl d')
  | assign {targets targets' values values' : List Expr} {span span' : Span} : N span span' →
    List.Forall₂ (Expr.Paired N R) targets targets' →
    List.Forall₂ (Expr.Paired N R) values values' →
    Stmt.Paired N R (.assign targets values span) (.assign targets' values' span')
  | conditional {c c' : Conditional} : Conditional.Paired N R c c' →
    Stmt.Paired N R (.conditional c) (.conditional c')
  | ret {value value' : Option Expr} {span span' : Span} : N span span' →
    Option.Rel (Expr.Paired N R) value value' →
    Stmt.Paired N R (.ret value span) (.ret value' span')
  | block {b b' : Block} : Block.Paired N R b b' → Stmt.Paired N R (.block b) (.block b')
  | expr {e e' : Expr} : Expr.Paired N R e e' → Stmt.Paired N R (.expr e) (.expr e')

end

/-- Functions that are paired stand in related places. -/
theorem FunctionDef.Paired.span {N R : Span → Span → Prop} {f f' : FunctionDef}
    (h : f.Paired N R f') : N f.span f'.span := by
  cases h with
  | mk h => exact h

/-- Expressions that are paired stand in related places. -/
theorem Expr.Paired.span {N R : Span → Span → Prop} (hN : R ≤ N) {e e' : Expr}
    (h : e.Paired N R e') : N e.span e'.span := by
  cases h with
  | ident hname => exact hN _ _ hname.span
  | function hf => exact hf.span
  | literal _ h | qualified h | binary _ h | unary _ h | call h | field h | index h | array h =>
    exact h

/-- The same program twice, in related places. -/
def Program.Paired (N R : Span → Span → Prop) (p q : Program) : Prop :=
  List.Forall₂ (Stmt.Paired N R) p.stmts q.stmts

end Sable
