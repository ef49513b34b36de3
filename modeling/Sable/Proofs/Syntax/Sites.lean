import Mathlib.Data.List.Basic
import Sable.Syntax

/-!
# The sites of a tree

Every node of a tree carries a span, and so does every name in it. The lists here hold all of these
sites, however deeply they are nested; the name that a function literal is given counts as well.
-/

namespace Sable

/-- A place in a tree that carries a span. -/
inductive Site
  /-- A node. -/
  | node (span : Span)
  /-- A name. -/
  | name (name : Ident)

/-- Where a site stands. -/
def Site.span : Site → Span
  | node span => span
  | name x => x.span

mutual

/-- All sites in a written type. -/
def TypeExpr.sites : TypeExpr → List Site
  | .primitive _ span => [.node span]
  | .array elem span => .node span :: elem.sites
  | .struct fields span => .node span :: FieldDecl.sitesAll fields
  | .function params none span => .node span :: TypeExpr.sitesAll params
  | .function params (some ret) span => .node span :: (TypeExpr.sitesAll params ++ ret.sites)
  | .named name => [.name name]
  | .qualified module name span => [.node span, .name module, .name name]

/-- All sites in a list of written types. -/
def TypeExpr.sitesAll : List TypeExpr → List Site
  | [] => []
  | ty :: tys => ty.sites ++ TypeExpr.sitesAll tys

/-- All sites in a field of a struct type. -/
def FieldDecl.sites : FieldDecl → List Site
  | .mk name ty span => .node span :: .name name :: ty.sites

/-- All sites in the fields of a struct type. -/
def FieldDecl.sitesAll : List FieldDecl → List Site
  | [] => []
  | field :: fields => field.sites ++ FieldDecl.sitesAll fields

end

/-- All sites in an import. -/
def Import.sites (i : Import) : List Site := .node i.span :: i.alias?.toList.map .name

/-- All sites in a parameter. -/
def Param.sites (p : Param) : List Site := .node p.span :: .name p.name :: p.ty.sites

/-- All sites in a declared variable. -/
def VarBinder.sites (v : VarBinder) : List Site :=
  .name v.name :: v.ty?.toList.flatMap TypeExpr.sites

/-- All sites in a type declaration. -/
def TypeDecl.sites (d : TypeDecl) : List Site := .node d.span :: .name d.name :: d.ty.sites

mutual

/-- All sites in an expression. -/
def Expr.sites : Expr → List Site
  | .literal _ span => [.node span]
  | .ident name => [.name name]
  | .qualified module name span => [.node span, .name module, .name name]
  | .binary _ left right span => .node span :: (left.sites ++ right.sites)
  | .unary _ operand span => .node span :: operand.sites
  | .call callee args span => .node span :: (callee.sites ++ Expr.sitesAll args)
  | .field object field span => .node span :: .name field :: object.sites
  | .index object index span => .node span :: (object.sites ++ index.sites)
  | .array elements span => .node span :: Expr.sitesAll elements
  | .function f => f.sites

/-- All sites in a list of expressions. -/
def Expr.sitesAll : List Expr → List Site
  | [] => []
  | e :: es => e.sites ++ Expr.sitesAll es

/-- All sites in a function. -/
def FunctionDef.sites : FunctionDef → List Site
  | .mk name params ret body span =>
    .node span :: .name name :: (params.flatMap Param.sites ++
      ret.toList.flatMap TypeExpr.sites ++ body.sites)

/-- All sites in a block. -/
def Block.sites : Block → List Site
  | .mk stmts span => .node span :: Stmt.sitesAll stmts

/-- All sites in a condition with all that follows its `else`. -/
def Conditional.sites : Conditional → List Site
  | .mk cond body otherwise span => .node span :: (cond.sites ++ body.sites ++ otherwise.sites)

/-- All sites in what follows the body of a condition. -/
def Alternative.sites : Alternative → List Site
  | .nothing => []
  | .block body => body.sites
  | .conditional next => next.sites

/-- All sites in a statement. -/
def Stmt.sites : Stmt → List Site
  | .importing i => i.sites
  | .function f => f.sites
  | .method receiver f => receiver.sites ++ f.sites
  | .varDecl _ targets values span =>
    .node span :: (targets.flatMap VarBinder.sites ++ Expr.sitesAll values)
  | .typeDecl d => d.sites
  | .assign targets values span => .node span :: (Expr.sitesAll targets ++ Expr.sitesAll values)
  | .conditional cond => cond.sites
  | .ret none span => [.node span]
  | .ret (some e) span => .node span :: e.sites
  | .block b => b.sites
  | .expr e => e.sites

/-- All sites in a list of statements. -/
def Stmt.sitesAll : List Stmt → List Site
  | [] => []
  | stmt :: stmts => stmt.sites ++ Stmt.sitesAll stmts

end

/-- All sites in a program. -/
def Program.sites (p : Program) : List Site := .node p.span :: Stmt.sitesAll p.stmts

theorem Expr.sitesAll_eq_flatMap (es : List Expr) : Expr.sitesAll es = es.flatMap Expr.sites := by
  induction es with
  | nil => rfl
  | cons e es ih => rw [Expr.sitesAll, ih, List.flatMap_cons]

theorem Stmt.sitesAll_eq_flatMap (stmts : List Stmt) :
    Stmt.sitesAll stmts = stmts.flatMap Stmt.sites := by
  induction stmts with
  | nil => rfl
  | cons stmt stmts ih => rw [Stmt.sitesAll, ih, List.flatMap_cons]

theorem TypeExpr.sitesAll_eq_flatMap (tys : List TypeExpr) :
    TypeExpr.sitesAll tys = tys.flatMap TypeExpr.sites := by
  induction tys with
  | nil => rfl
  | cons ty tys ih => rw [TypeExpr.sitesAll, ih, List.flatMap_cons]

theorem FieldDecl.sitesAll_eq_flatMap (fields : List FieldDecl) :
    FieldDecl.sitesAll fields = fields.flatMap FieldDecl.sites := by
  induction fields with
  | nil => rfl
  | cons field fields ih => rw [FieldDecl.sitesAll, ih, List.flatMap_cons]

/-! ### Spans -/

/-- All spans in a written type. -/
def TypeExpr.spans (ty : TypeExpr) : List Span := ty.sites.map Site.span

/-- All spans in an expression. -/
def Expr.spans (e : Expr) : List Span := e.sites.map Site.span

/-- All spans in a program. -/
def Program.spans (p : Program) : List Span := p.sites.map Site.span

theorem TypeExpr.span_mem_spans (ty : TypeExpr) : ty.span ∈ ty.spans := by
  rw [TypeExpr.spans]
  fun_cases TypeExpr.sites ty <;> simp [TypeExpr.span, Site.span]

theorem Expr.span_mem_spans (e : Expr) : e.span ∈ e.spans := by
  rw [Expr.spans]
  cases e with
  | function f =>
    obtain ⟨name, params, ret, body, span⟩ := f
    simp [Expr.span, FunctionDef.span, Expr.sites, FunctionDef.sites, Site.span]
  | _ => simp [Expr.span, Expr.sites, Site.span]

end Sable
