import Sable.Proofs.Syntax.Sites

/-!
# The layout of a tree

A layout keeps the spans of a tree and forgets all else: a node holds the layouts of its parts, in
the order in which the parts are written. It is nested if every node takes characters, every part
lies inside its node, and the parts of a node stand one behind the other. The layout of a program
has the same spans as the sites of the program.
-/

namespace Sable

/-- One span lies inside another one. -/
structure Span.Inside (s outer : Span) : Prop where
  /-- It does not start in front of the outer one. -/
  start : outer.start ≤ s.start
  /-- It does not end behind the outer one. -/
  stop : s.stop ≤ outer.stop
  /-- Both stand in one file. -/
  file : s.file = outer.file

theorem Span.Inside.trans {s t u : Span} (h : s.Inside t) (h' : t.Inside u) : s.Inside u :=
  ⟨Nat.le_trans h'.start h.start, Nat.le_trans h.stop h'.stop, h.file.trans h'.file⟩

theorem Span.Inside.refl (s : Span) : s.Inside s := ⟨Nat.le_refl _, Nat.le_refl _, rfl⟩

/-- The spans of a tree: the one of its root and the trees below. -/
inductive Layout
  | node (span : Span) (parts : List Layout)

namespace Layout

/-- The span of the root. -/
def span : Layout → Span
  | node span _ => span

/-- The trees below the root, in the order in which they are written. -/
def parts : Layout → List Layout
  | node _ parts => parts

/-- A tree without parts. -/
def leaf (span : Span) : Layout := .node span []

@[simp] theorem span_node (span : Span) (parts : List Layout) : (node span parts).span = span := rfl

mutual

/-- All spans in a layout. -/
def spans : Layout → List Span
  | node span parts => span :: spansAll parts

/-- All spans in some layouts. -/
def spansAll : List Layout → List Span
  | [] => []
  | x :: xs => x.spans ++ spansAll xs

end

@[simp] theorem spansAll_eq_flatMap (xs : List Layout) : spansAll xs = xs.flatMap spans := by
  induction xs with
  | nil => rfl
  | cons x xs ih => rw [spansAll, ih, List.flatMap_cons]

@[simp] theorem spans_node (span : Span) (parts : List Layout) :
    (node span parts).spans = span :: parts.flatMap spans := by
  rw [spans, spansAll_eq_flatMap]

@[simp] theorem spans_leaf (span : Span) : (leaf span).spans = [span] := spans_node span []

/-- Every node takes characters, and holds parts that lie inside it, one behind the other. -/
inductive Nested : Layout → Prop
  | node {span : Span} {parts : List Layout} (proper : span.start < span.stop)
    (inside : ∀ x ∈ parts, x.span.Inside span)
    (ordered : parts.Pairwise fun x y => x.span.stop ≤ y.span.start)
    (nested : ∀ x ∈ parts, x.Nested) : Nested (.node span parts)

/-- Some nested trees inside a span, one behind the other. -/
structure Fits (outer : Span) (xs : List Layout) : Prop where
  /-- They lie inside the span. -/
  inside : ∀ x ∈ xs, x.span.Inside outer
  /-- Each one ends in front of those behind it. -/
  ordered : xs.Pairwise fun x y => x.span.stop ≤ y.span.start
  /-- Each one is nested. -/
  nested : ∀ x ∈ xs, x.Nested

theorem Nested.proper_span {x : Layout} (h : x.Nested) : x.span.start < x.span.stop := by
  obtain ⟨hproper, -, -, -⟩ := h
  exact hproper

theorem Nested.fits {span : Span} {parts : List Layout} (h : (Layout.node span parts).Nested) :
    Fits span parts := by
  obtain ⟨-, hinside, hordered, hnested⟩ := h
  exact ⟨hinside, hordered, hnested⟩

theorem nested_leaf {span : Span} (h : span.start < span.stop) : (leaf span).Nested :=
  .node h nofun .nil nofun

/-- Whatever lies below a node lies inside it. -/
theorem Nested.inside_of_mem {x : Layout} (h : x.Nested) :
    ∀ s ∈ x.spans, s.Inside x.span ∧ s.start < s.stop := by
  induction h with
  | node proper inside ordered nested ih =>
    rw [spans_node, List.forall_mem_cons]
    refine ⟨⟨.refl _, proper⟩, fun s hs => ?_⟩
    obtain ⟨y, hy, hsy⟩ := List.mem_flatMap.mp hs
    obtain ⟨hinside, hproper⟩ := ih y hy s hsy
    exact ⟨hinside.trans (inside y hy), hproper⟩

namespace Fits

variable {s t : Span} {xs ys : List Layout} {x y : Layout}

theorem nil : Fits s [] := ⟨nofun, .nil, nofun⟩

theorem node (h : Fits s xs) (hs : s.start < s.stop) : (Layout.node s xs).Nested :=
  .node hs h.inside h.ordered h.nested

theorem singleton (hx : x.Nested) (h : x.span.Inside s) : Fits s [x] :=
  ⟨by simpa using h, List.pairwise_singleton _ _, by simpa using hx⟩

theorem wider (h : Fits s xs) (hst : s.Inside t) : Fits t xs :=
  ⟨fun x hx => (h.inside x hx).trans hst, h.ordered, h.nested⟩

/-- Trees of which the second ones stand behind the first ones stand one behind the other. -/
theorem append (hx : Fits s xs) (hy : Fits t ys) {outer : Span} (hs : s.Inside outer)
    (ht : t.Inside outer) (hst : s.stop ≤ t.start) : Fits outer (xs ++ ys) := by
  refine ⟨fun z hz => ?_, List.pairwise_append.mpr ⟨hx.ordered, hy.ordered, fun x hxm y hym => ?_⟩,
    fun z hz => ?_⟩
  · rcases List.mem_append.mp hz with hz | hz
    · exact (hx.inside z hz).trans hs
    · exact (hy.inside z hz).trans ht
  · have := (hx.inside x hxm).stop
    have := (hy.inside y hym).start
    omega
  · rcases List.mem_append.mp hz with hz | hz
    · exact hx.nested z hz
    · exact hy.nested z hz

/-- Two trees, one behind the other, fill the smallest span that holds both. -/
theorem merge (h : Fits s [x, y]) : Fits s [.node (x.span.merge y.span) [x, y]] := by
  have hx := h.inside x (by simp)
  have hy := h.inside y (by simp)
  have hnx := h.nested x (by simp)
  have hny := h.nested y (by simp)
  have hpx := hnx.proper_span
  have hpy := hny.proper_span
  have hxy : x.span.stop ≤ y.span.start := by simpa using h.ordered
  have hmerge : x.span.merge y.span = ⟨x.span.start, y.span.stop, x.span.file⟩ := by
    rw [Span.merge, Nat.min_eq_left (by omega), Nat.max_eq_right (by omega)]
  rw [hmerge]
  refine singleton (.node (by dsimp; omega) (fun z hz => ?_) (by simpa using hxy) h.nested)
    ⟨hx.start, hy.stop, hx.file⟩
  rcases List.mem_pair.mp hz with rfl | rfl
  · exact ⟨Nat.le_refl _, by dsimp; omega, rfl⟩
  · exact ⟨by dsimp; omega, Nat.le_refl _, hy.file.trans hx.file.symm⟩

end Fits

end Layout

/-! ### Layouts of the parts of a program -/

/-- The layout of a name. -/
def Ident.layout (x : Ident) : Layout := .leaf x.span

mutual

/-- The layout of a written type. -/
def TypeExpr.layout : TypeExpr → Layout
  | .primitive _ span => .leaf span
  | .array elem span => .node span [elem.layout]
  | .struct fields span => .node span (FieldDecl.layouts fields)
  | .function params none span => .node span (TypeExpr.layouts params)
  | .function params (some ret) span => .node span (TypeExpr.layouts params ++ [ret.layout])
  | .named name => name.layout
  | .qualified module name span => .node span [module.layout, name.layout]

/-- The layouts of some written types. -/
def TypeExpr.layouts : List TypeExpr → List Layout
  | [] => []
  | ty :: tys => ty.layout :: TypeExpr.layouts tys

/-- The layout of a field of a struct type. -/
def FieldDecl.layout : FieldDecl → Layout
  | .mk name ty span => .node span [name.layout, ty.layout]

/-- The layouts of the fields of a struct type. -/
def FieldDecl.layouts : List FieldDecl → List Layout
  | [] => []
  | field :: fields => field.layout :: FieldDecl.layouts fields

end

/-- The layout of an import. -/
def Import.layout (i : Import) : Layout := .node i.span (i.alias?.toList.map Ident.layout)

/-- The layout of a parameter. -/
def Param.layout (p : Param) : Layout := .node p.span [p.name.layout, p.ty.layout]

/-- The layouts of the parts of a declared variable, which has no span of its own. -/
def VarBinder.layouts (v : VarBinder) : List Layout :=
  v.name.layout :: v.ty?.toList.map TypeExpr.layout

/-- The layout of a type declaration. -/
def TypeDecl.layout (d : TypeDecl) : Layout := .node d.span [d.name.layout, d.ty.layout]

mutual

/-- The layout of an expression. -/
def Expr.layout : Expr → Layout
  | .literal _ span => .leaf span
  | .ident name => name.layout
  | .qualified module name span => .node span [module.layout, name.layout]
  | .binary _ left right span => .node span [left.layout, right.layout]
  | .unary _ operand span => .node span [operand.layout]
  | .call callee args span => .node span (callee.layout :: Expr.layouts args)
  | .field object field span => .node span [object.layout, field.layout]
  | .index object index span => .node span [object.layout, index.layout]
  | .array elements span => .node span (Expr.layouts elements)
  | .function f => .node f.span f.layouts

/-- The layouts of some expressions. -/
def Expr.layouts : List Expr → List Layout
  | [] => []
  | e :: es => e.layout :: Expr.layouts es

/-- The layouts of the parts of a function; the receiver of a method stands in front of them. -/
def FunctionDef.layouts : FunctionDef → List Layout
  | .mk name params ret body _ =>
    name.layout :: (params.map Param.layout ++ ret.toList.map TypeExpr.layout ++ [body.layout])

/-- The layout of a block. -/
def Block.layout : Block → Layout
  | .mk stmts span => .node span (Stmt.layouts stmts)

/-- The layout of a condition with all that follows its `else`. -/
def Conditional.layout : Conditional → Layout
  | .mk cond body otherwise span =>
    .node span (cond.layout :: body.layout :: otherwise.layouts)

/-- The layout of what follows the body of a condition, if anything does. -/
def Alternative.layouts : Alternative → List Layout
  | .nothing => []
  | .block body => [body.layout]
  | .conditional next => [next.layout]

/-- The layout of a statement. -/
def Stmt.layout : Stmt → Layout
  | .importing i => i.layout
  | .function f => .node f.span f.layouts
  | .method receiver f => .node f.span (receiver.layout :: f.layouts)
  | .varDecl _ targets values span =>
    .node span (targets.flatMap VarBinder.layouts ++ Expr.layouts values)
  | .typeDecl d => d.layout
  | .assign targets values span => .node span (Expr.layouts targets ++ Expr.layouts values)
  | .conditional c => c.layout
  | .ret none span => .leaf span
  | .ret (some e) span => .node span [e.layout]
  | .block b => b.layout
  | .expr e => e.layout

/-- The layouts of some statements. -/
def Stmt.layouts : List Stmt → List Layout
  | [] => []
  | s :: ss => s.layout :: Stmt.layouts ss

end

/-- The layout of a program. -/
def Program.layout (p : Program) : Layout := .node p.span (Stmt.layouts p.stmts)

/-! ### Sites and their spans -/

mutual

theorem TypeExpr.spans_layout : ∀ ty : TypeExpr, ty.layout.spans = ty.sites.map Site.span
  | .primitive _ span => by simp [TypeExpr.layout, TypeExpr.sites, Site.span]
  | .array elem span => by
    simp [TypeExpr.layout, TypeExpr.sites, Site.span, elem.spans_layout]
  | .struct fields span => by
    simp [TypeExpr.layout, TypeExpr.sites, Site.span, FieldDecl.spans_layouts fields]
  | .function params none span => by
    simp [TypeExpr.layout, TypeExpr.sites, Site.span, TypeExpr.spans_layouts params]
  | .function params (some ret) span => by
    simp [TypeExpr.layout, TypeExpr.sites, Site.span, TypeExpr.spans_layouts params,
      ret.spans_layout]
  | .named name => by simp [TypeExpr.layout, TypeExpr.sites, Site.span, Ident.layout]
  | .qualified module name span => by
    simp [TypeExpr.layout, TypeExpr.sites, Site.span, Ident.layout]

theorem TypeExpr.spans_layouts : ∀ tys : List TypeExpr,
    (TypeExpr.layouts tys).flatMap Layout.spans = (TypeExpr.sitesAll tys).map Site.span
  | [] => rfl
  | ty :: tys => by
    rw [TypeExpr.layouts, TypeExpr.sitesAll, List.flatMap_cons, List.map_append, ty.spans_layout,
      TypeExpr.spans_layouts tys]

theorem FieldDecl.spans_layout : ∀ field : FieldDecl, field.layout.spans = field.sites.map Site.span
  | .mk name ty span => by
    simp [FieldDecl.layout, FieldDecl.sites, Site.span, Ident.layout, ty.spans_layout]

theorem FieldDecl.spans_layouts : ∀ fields : List FieldDecl,
    (FieldDecl.layouts fields).flatMap Layout.spans = (FieldDecl.sitesAll fields).map Site.span
  | [] => rfl
  | field :: fields => by
    rw [FieldDecl.layouts, FieldDecl.sitesAll, List.flatMap_cons, List.map_append,
      field.spans_layout, FieldDecl.spans_layouts fields]

end

theorem Import.spans_layout (i : Import) : i.layout.spans = i.sites.map Site.span := by
  cases h : i.alias? <;> simp [Import.layout, Import.sites, h, Site.span, Ident.layout]

theorem Param.spans_layout (p : Param) : p.layout.spans = p.sites.map Site.span := by
  simp [Param.layout, Param.sites, Site.span, Ident.layout, p.ty.spans_layout]

theorem VarBinder.spans_layouts (v : VarBinder) :
    v.layouts.flatMap Layout.spans = v.sites.map Site.span := by
  cases h : v.ty? <;>
    simp [VarBinder.layouts, VarBinder.sites, h, Site.span, Ident.layout, TypeExpr.spans_layout]

theorem TypeDecl.spans_layout (d : TypeDecl) : d.layout.spans = d.sites.map Site.span := by
  simp [TypeDecl.layout, TypeDecl.sites, Site.span, Ident.layout, d.ty.spans_layout]

mutual

/-- The layout of an expression has the spans of its sites; only their order may differ. -/
theorem Expr.spans_layout : ∀ e : Expr, e.layout.spans.Perm (e.sites.map Site.span)
  | .literal _ span => .refl _
  | .ident name => .refl _
  | .qualified module name span => .refl _
  | .binary _ left right span => by
    simpa [Expr.layout, Expr.sites, Site.span] using left.spans_layout.append right.spans_layout
  | .unary _ operand span => by
    simpa [Expr.layout, Expr.sites, Site.span] using operand.spans_layout
  | .call callee args span => by
    simpa [Expr.layout, Expr.sites, Site.span] using
      callee.spans_layout.append (Expr.spans_layouts args)
  | .field object field span => by
    have hobject := object.spans_layout.append_right [field.span]
    simpa [Expr.layout, Expr.sites, Site.span, Ident.layout] using
      hobject.trans (List.perm_append_singleton _ _)
  | .index object index span => by
    simpa [Expr.layout, Expr.sites, Site.span] using object.spans_layout.append index.spans_layout
  | .array elements span => by
    simpa [Expr.layout, Expr.sites, Site.span] using Expr.spans_layouts elements
  | .function f => by
    simpa [Expr.layout, Expr.sites] using f.spans_layouts

theorem Expr.spans_layouts : ∀ es : List Expr,
    ((Expr.layouts es).flatMap Layout.spans).Perm ((Expr.sitesAll es).map Site.span)
  | [] => .refl _
  | e :: es => by
    rw [Expr.layouts, Expr.sitesAll, List.flatMap_cons, List.map_append]
    exact e.spans_layout.append (Expr.spans_layouts es)

theorem FunctionDef.spans_layouts (f : FunctionDef) :
    (f.span :: f.layouts.flatMap Layout.spans).Perm (f.sites.map Site.span) := by
  cases f with
  | mk name params ret body span =>
    have hparams : (params.map Param.layout).flatMap Layout.spans =
        (params.flatMap Param.sites).map Site.span := by
      rw [List.flatMap_map, List.map_flatMap]
      exact congrArg (params.flatMap ·) (funext Param.spans_layout)
    have hret : (ret.toList.map TypeExpr.layout).flatMap Layout.spans =
        (ret.toList.flatMap TypeExpr.sites).map Site.span := by
      rw [List.flatMap_map, List.map_flatMap]
      exact congrArg (ret.toList.flatMap ·) (funext TypeExpr.spans_layout)
    simp only [FunctionDef.layouts, FunctionDef.span, FunctionDef.sites, Ident.layout, Site.span,
      List.flatMap_cons, List.flatMap_append, List.flatMap_nil, List.map_cons, List.map_append,
      hparams, hret, Layout.spans_leaf, List.append_nil, List.cons_append, List.nil_append]
    exact .cons _ (.cons _ (body.spans_layout.append_left _))

theorem Block.spans_layout : ∀ b : Block, b.layout.spans.Perm (b.sites.map Site.span)
  | .mk stmts span => by
    simpa [Block.layout, Block.sites, Site.span] using Stmt.spans_layouts stmts

theorem Conditional.spans_layout : ∀ c : Conditional, c.layout.spans.Perm (c.sites.map Site.span)
  | .mk cond body otherwise span => by
    simpa [Conditional.layout, Conditional.sites, Site.span] using
      cond.spans_layout.append (body.spans_layout.append otherwise.spans_layouts)

theorem Alternative.spans_layouts : ∀ a : Alternative,
    (a.layouts.flatMap Layout.spans).Perm (a.sites.map Site.span)
  | .nothing => .refl _
  | .block body => by
    simpa [Alternative.layouts, Alternative.sites] using body.spans_layout
  | .conditional next => by
    simpa [Alternative.layouts, Alternative.sites] using next.spans_layout

/-- The layout of a statement has the spans of its sites; only their order may differ. -/
theorem Stmt.spans_layout : ∀ s : Stmt, s.layout.spans.Perm (s.sites.map Site.span)
  | .importing i => by rw [Stmt.layout, Stmt.sites, i.spans_layout]
  | .function f => by simpa [Stmt.layout, Stmt.sites] using f.spans_layouts
  | .method receiver f => by
    have h := f.spans_layouts.append_left (receiver.sites.map Site.span)
    simpa [Stmt.layout, Stmt.sites, receiver.spans_layout] using List.perm_middle.symm.trans h
  | .varDecl _ targets values span => by
    have htargets : (targets.flatMap VarBinder.layouts).flatMap Layout.spans =
        (targets.flatMap VarBinder.sites).map Site.span := by
      rw [List.flatMap_assoc, List.map_flatMap]
      exact congrArg (targets.flatMap ·) (funext VarBinder.spans_layouts)
    simp only [Stmt.layout, Stmt.sites, Layout.spans_node, List.flatMap_append, htargets,
      List.map_cons, List.map_append, Site.span]
    exact .cons _ ((Expr.spans_layouts values).append_left _)
  | .typeDecl d => by rw [Stmt.layout, Stmt.sites, d.spans_layout]
  | .assign targets values span => by
    simpa [Stmt.layout, Stmt.sites, Site.span] using
      (Expr.spans_layouts targets).append (Expr.spans_layouts values)
  | .conditional c => c.spans_layout
  | .ret none span => .refl _
  | .ret (some e) span => by
    simpa [Stmt.layout, Stmt.sites, Site.span] using e.spans_layout
  | .block b => b.spans_layout
  | .expr e => e.spans_layout

theorem Stmt.spans_layouts : ∀ ss : List Stmt,
    ((Stmt.layouts ss).flatMap Layout.spans).Perm ((Stmt.sitesAll ss).map Site.span)
  | [] => .refl _
  | s :: ss => by
    rw [Stmt.layouts, Stmt.sitesAll, List.flatMap_cons, List.map_append]
    exact s.spans_layout.append (Stmt.spans_layouts ss)

end

/-- The layout of a program has the spans of all its sites and no others. -/
theorem Program.spans_layout (p : Program) : p.layout.spans.Perm p.spans := by
  simpa [Program.layout, Program.spans, Program.sites, Site.span] using Stmt.spans_layouts p.stmts

/-! ### Layouts of lists -/

theorem TypeExpr.layouts_eq_map (tys : List TypeExpr) :
    TypeExpr.layouts tys = tys.map TypeExpr.layout := by
  induction tys with
  | nil => rfl
  | cons ty tys ih => rw [TypeExpr.layouts, ih, List.map_cons]

theorem FieldDecl.layouts_eq_map (fields : List FieldDecl) :
    FieldDecl.layouts fields = fields.map FieldDecl.layout := by
  induction fields with
  | nil => rfl
  | cons field fields ih => rw [FieldDecl.layouts, ih, List.map_cons]

theorem Expr.layouts_eq_map (es : List Expr) : Expr.layouts es = es.map Expr.layout := by
  induction es with
  | nil => rfl
  | cons e es ih => rw [Expr.layouts, ih, List.map_cons]

theorem Stmt.layouts_eq_map (ss : List Stmt) : Stmt.layouts ss = ss.map Stmt.layout := by
  induction ss with
  | nil => rfl
  | cons s ss ih => rw [Stmt.layouts, ih, List.map_cons]

end Sable
