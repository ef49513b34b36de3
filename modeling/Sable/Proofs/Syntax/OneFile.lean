import Sable.Proofs.Syntax.Sites
import Sable.Proofs.Token.Spans
import Sable.Syntax.Grammar

/-!
# Programs of one file

The spans of tokens lie in the file that the tokens are read from, and no name is read from no
characters. A parser makes spans and names only from those of tokens, so the tree of a parsed text
has all of its spans in the file of the text and no name in it is empty. An error points into that
file as well.
-/

namespace Sable

/-! ### Sites of one file -/

/-- A token that stands in a file; a name takes characters. -/
structure Token.Stands (n : Nat) (t : Token) : Prop where
  /-- The token stands in the file. -/
  file : t.span.file = n
  /-- A name is not empty. -/
  name : ∀ {x}, t.kind = .ident x → x ≠ ""

/-- A name of a tree that has been read from a file. -/
structure Ident.Stands (n : Nat) (x : Ident) : Prop where
  /-- The name stands in the file. -/
  file : x.span.file = n
  /-- The name is not empty. -/
  name : x.name ≠ ""

/-- A site of a tree that has been read from a file. -/
def Site.Stands (n : Nat) : Site → Prop
  | .node x => x.file = n
  | .name x => x.Stands n

/-- Sites that have all been read from one file. -/
def OneFile (n : Nat) (xs : List Site) : Prop := ∀ x ∈ xs, x.Stands n

namespace OneFile

variable {n : Nat} {xs ys : List Site}

@[simp] theorem nil : OneFile n [] := nofun

@[simp] theorem cons_node {x : Span} :
    OneFile n (.node x :: xs) ↔ x.file = n ∧ OneFile n xs := List.forall_mem_cons

@[simp] theorem cons_name {x : Ident} :
    OneFile n (.name x :: xs) ↔ x.Stands n ∧ OneFile n xs := List.forall_mem_cons

@[simp] theorem append : OneFile n (xs ++ ys) ↔ OneFile n xs ∧ OneFile n ys :=
  List.forall_mem_append

@[simp] theorem flatMap {α : Type} {f : α → List Site} {as : List α} :
    OneFile n (as.flatMap f) ↔ ∀ a ∈ as, OneFile n (f a) := by
  simp only [OneFile, List.mem_flatMap]
  exact ⟨fun h a ha x hx => h x ⟨a, ha, hx⟩, fun h x ⟨a, ha, hx⟩ => h a ha x hx⟩

/-- The spans of the sites lie in the file. -/
theorem file_of_mem (h : OneFile n xs) {x : Span} (hx : x ∈ xs.map Site.span) : x.file = n := by
  obtain ⟨_ | y, hmem, rfl⟩ := List.mem_map.mp hx
  · exact h _ hmem
  · exact (h _ hmem).file

end OneFile

/-- A cursor in a list of tokens of one file. -/
structure Cursor.Stands (n : Nat) (c : Cursor) : Prop where
  /-- The tokens still to be read stand in the file. -/
  rest : ∀ t ∈ c.rest, t.Stands n
  /-- So does the end of the file. -/
  eof : c.eof.file = n
  /-- So does the token read last. -/
  last : c.last.file = n

namespace Cursor.Stands

variable {n : Nat} {c : Cursor}

theorem here (h : c.Stands n) : c.here.file = n := by
  unfold Cursor.here Cursor.current
  cases hrest : c.rest with
  | nil => exact h.eof
  | cons t rest => exact (h.rest t (hrest ▸ List.mem_cons_self ..)).file

theorem name_ne (h : c.Stands n) {name : String} (hkind : c.kind = .ident name) : name ≠ "" := by
  unfold Cursor.kind Cursor.current at hkind
  cases hrest : c.rest with
  | nil => simp [hrest] at hkind
  | cons t rest => exact (h.rest t (hrest ▸ List.mem_cons_self ..)).name (by simpa [hrest] using hkind)

theorem advance (h : c.Stands n) : c.advance.Stands n := by
  unfold Cursor.advance
  cases hrest : c.rest with
  | nil => exact h
  | cons t rest =>
    have hmem := h.rest
    rw [hrest, List.forall_mem_cons] at hmem
    exact ⟨hmem.2, h.eof, hmem.1.file⟩

end Cursor.Stands

namespace Parser

variable {α β : Type}

/-- A result has a property, or is an error that points into a file. -/
def Files (n : Nat) (Q : α → Prop) : Except SyntaxError α → Prop
  | .ok a => Q a
  | .error e => e.span.file = n

/--
Started in one file, a parser stays there: what it yields has a property, and its errors point into
the file.
-/
def Keeps (n : Nat) (p : Parser α) (Q : α → Prop) : Prop :=
  ∀ c : Cursor, c.Stands n → (p c).2.Stands n ∧ Files n Q (p c).1

variable {n : Nat} {p : Parser α} {f : α → Parser β} {Q : α → Prop} {R : β → Prop}

theorem keeps_look {g : Cursor → α} (h : ∀ c : Cursor, c.Stands n → Q (g c)) :
    (look g).Keeps n Q := fun c hc => ⟨hc, h c hc⟩

theorem keeps_pure {a : α} (h : Q a) : (pure a : Parser α).Keeps n Q := fun _ hc => ⟨hc, h⟩

/-- The second parser may rely on what the first one yields. -/
theorem Keeps.bind (hp : p.Keeps n Q) (hf : ∀ a, Q a → (f a).Keeps n R) :
    (p >>= f).Keeps n R := by
  intro c hc
  obtain ⟨hd, hres⟩ := hp c hc
  simp only [Bind.bind, Parser.bind]
  rcases hpc : p c with ⟨e | a, d⟩
  · simp only [hpc] at hd hres
    exact ⟨hd, hres⟩
  · simp only [hpc] at hd hres
    exact hf a hres d hd

theorem Keeps.imp {Q' : α → Prop} (hp : p.Keeps n Q) (h : ∀ a, Q a → Q' a) : p.Keeps n Q' := by
  intro c hc
  refine (hp c hc).imp_right fun hres => ?_
  cases hpc : (p c).1 with
  | ok a => exact h a (by rwa [hpc] at hres)
  | error e => rwa [hpc] at hres

theorem Keeps.map {g : α → β} (hp : p.Keeps n Q) (hg : ∀ a, Q a → R (g a)) :
    (g <$> p).Keeps n R := hp.bind fun a ha => keeps_pure (hg a ha)

theorem Keeps.ite {b : Prop} [Decidable b] {q : Parser α} (hp : p.Keeps n Q) (hq : q.Keeps n Q) :
    (if b then p else q).Keeps n Q := by
  split
  · exact hp
  · exact hq

theorem keeps_fail {e : Span → SyntaxError} (h : ∀ x, (e x).span = x) :
    (fail e : Parser α).Keeps n Q :=
  fun c hc => ⟨hc, (congrArg Span.file (h c.here)).trans hc.here⟩

theorem keeps_unexpected (e : Expectation) : (unexpected e : Parser α).Keeps n Q :=
  fun _ hc => ⟨hc, hc.here⟩

theorem keeps_skip : skip.Keeps n fun _ => True := fun _ hc => ⟨hc.advance, trivial⟩

theorem keeps_expect (k : TokenKind) : (expect k).Keeps n fun _ => True := by
  intro c hc
  unfold expect
  split
  · exact keeps_skip c hc
  · exact keeps_unexpected _ c hc

theorem keeps_accept (k : TokenKind) : (accept k).Keeps n fun _ => True := by
  intro c hc
  unfold accept
  split
  · exact ⟨hc.advance, trivial⟩
  · exact ⟨hc, trivial⟩

theorem keeps_here : (look Cursor.here).Keeps n fun x => x.file = n :=
  keeps_look fun _ hc => hc.here

theorem keeps_kind : (look Cursor.kind).Keeps n fun _ => True := keeps_look fun _ _ => trivial

theorem keeps_spanSince {start : Span} (h : start.file = n) :
    (spanSince start).Keeps n fun x => x.file = n := keeps_look fun _ _ => h

theorem keeps_ident : ident.Keeps n (Ident.Stands n) := by
  intro c hc
  unfold ident
  split
  · next name hkind => exact ⟨hc.advance, hc.here, hc.name_ne hkind⟩
  · exact keeps_fail (fun _ => rfl) c hc

theorem Keeps.behind (hp : p.Keeps n Q) (mark : TokenKind) :
    (behind mark p).Keeps n fun a? => ∀ a ∈ a?, Q a :=
  (keeps_accept mark).bind fun _ _ => .ite
    (hp.bind fun _ ha => keeps_pure fun _ hb => Option.mem_some.mp hb ▸ ha)
    (keeps_pure nofun)

/-! ### Repetitions -/

theorem Keeps.moreItems (hp : p.Keeps n Q) (k : Nat) :
    (moreItems p k).Keeps n fun as => ∀ a ∈ as, Q a := by
  induction k with
  | zero => exact keeps_pure nofun
  | succ k ih =>
    refine (keeps_accept _).bind fun _ _ => .ite ?_ (keeps_pure nofun)
    exact hp.bind fun _ ha => ih.bind fun _ has => keeps_pure (List.forall_mem_cons.mpr ⟨ha, has⟩)

theorem Keeps.items (hp : p.Keeps n Q) (k : Nat) :
    (items k p).Keeps n fun as => ∀ a ∈ as, Q a :=
  hp.bind fun _ ha => (hp.moreItems k).bind fun _ has =>
    keeps_pure (List.forall_mem_cons.mpr ⟨ha, has⟩)

theorem Keeps.itemsBefore (hp : p.Keeps n Q) (close : TokenKind) (k : Nat) :
    (itemsBefore close p k).Keeps n fun as => ∀ a ∈ as, Q a := by
  induction k with
  | zero => exact keeps_pure nofun
  | succ k ih =>
    refine keeps_kind.bind fun _ _ => .ite (keeps_pure nofun) ?_
    refine hp.bind fun _ ha => (keeps_accept _).bind fun _ _ => .ite ?_ ?_
    · exact ih.bind fun _ has => keeps_pure (List.forall_mem_cons.mpr ⟨ha, has⟩)
    · exact keeps_pure (List.forall_mem_singleton.mpr ha)

theorem Keeps.itemsUntil (hp : p.Keeps n Q) (close : TokenKind) (k : Nat) :
    (itemsUntil k close p).Keeps n fun as => ∀ a ∈ as, Q a :=
  (hp.itemsBefore close k).bind fun _ has => (keeps_expect close).bind fun _ _ => keeps_pure has

/-! ### Types -/

variable {start : Span}

/-- The parser of a nested construct yields trees with all spans in the file. -/
theorem keeps_fieldDecl {nested : Parser TypeExpr}
    (h : nested.Keeps n fun ty => OneFile n ty.sites) :
    (fieldDecl nested).Keeps n fun field => OneFile n field.sites :=
  keeps_here.bind fun _ hstart => (keeps_accept _).bind fun _ _ => keeps_ident.bind fun _ hname =>
    (keeps_expect _).bind fun _ _ => h.bind fun _ hty => (keeps_spanSince hstart).bind fun _ hx =>
      keeps_pure (by simp [FieldDecl.sites, hx, hname, hty])

theorem keeps_typeOfName {name : Ident} (h : name.Stands n) :
    OneFile n (typeOfName name).sites := by
  unfold typeOfName
  split <;> simp [TypeExpr.sites, h, h.file]

theorem keeps_namedType (h : start.file = n) :
    (namedType start).Keeps n fun ty => OneFile n ty.sites := by
  refine keeps_ident.bind fun name hname => (keeps_ident.behind _).bind fun member? hmember => ?_
  split
  · refine (keeps_spanSince h).bind fun _ hx => keeps_pure ?_
    simp [TypeExpr.sites, hx, hname, hmember]
  · exact keeps_pure (keeps_typeOfName hname)

theorem keeps_typeWithin (k : Nat) : (typeWithin k).Keeps n fun ty => OneFile n ty.sites := by
  induction k with
  | zero => exact keeps_fail fun _ => rfl
  | succ k ih =>
    refine keeps_here.bind fun start hstart => keeps_kind.bind fun kind _ => ?_
    have hspan := keeps_spanSince hstart
    split
    · refine keeps_skip.bind fun _ _ => (keeps_expect _).bind fun _ _ => ih.bind fun _ hty =>
        hspan.bind fun _ hx => keeps_pure ?_
      simp [TypeExpr.sites, hx, hty]
    · refine keeps_skip.bind fun _ _ => (keeps_expect _).bind fun _ _ =>
        ((keeps_fieldDecl ih).itemsUntil _ _).bind fun _ hfields => hspan.bind fun _ hx =>
          keeps_pure ?_
      simpa [TypeExpr.sites, hx, FieldDecl.sitesAll_eq_flatMap] using hfields
    · refine keeps_skip.bind fun _ _ => (keeps_expect _).bind fun _ _ =>
        (ih.itemsUntil _ _).bind fun params hparams => (ih.behind _).bind fun ret hret =>
          hspan.bind fun _ hx => keeps_pure ?_
      cases ret <;> simp_all [TypeExpr.sites, TypeExpr.sitesAll_eq_flatMap]
    · exact keeps_namedType hstart
    · exact keeps_fail fun _ => rfl

theorem keeps_param (k : Nat) : (param k).Keeps n fun p => OneFile n p.sites :=
  keeps_here.bind fun _ hstart => keeps_ident.bind fun _ hname => (keeps_expect _).bind fun _ _ =>
    (keeps_typeWithin k).bind fun _ hty => (keeps_spanSince hstart).bind fun _ hx =>
      keeps_pure (by simp [Param.sites, hx, hname, hty])

end Parser

/-! ### The grammar -/

/-- The parsers for nested constructs yield trees of one file. -/
structure Grammar.Keeps (n : Nat) (g : Grammar) : Prop where
  /-- The expressions between operators. -/
  operand : ∀ level, (g.operand level).Keeps n fun e => OneFile n e.sites
  /-- The operands. -/
  unary : g.unary.Keeps n fun e => OneFile n e.sites
  /-- The statements. -/
  statement : g.statement.Keeps n fun s => OneFile n s.sites
  /-- The conditions. -/
  conditional : g.conditional.Keeps n fun c => OneFile n c.sites

namespace Parser

variable {n : Nat} {g : Grammar} {start : Span}

/-! ### Blocks and functions -/

theorem keeps_statements {stmt : Parser Stmt} (h : stmt.Keeps n fun s => OneFile n s.sites)
    (close : TokenKind) (k : Nat) :
    (statements stmt close k).Keeps n fun stmts => OneFile n (Stmt.sitesAll stmts) := by
  induction k with
  | zero => exact keeps_pure .nil
  | succ k ih =>
    refine keeps_kind.bind fun _ _ => .ite (keeps_pure .nil) ?_
    refine (keeps_accept _).bind fun _ _ => .ite ih ?_
    exact h.bind fun s hs => ih.bind fun ss hss => keeps_pure (OneFile.append.mpr ⟨hs, hss⟩)

theorem keeps_block (hg : g.Keeps n) : (block g).Keeps n fun b => OneFile n b.sites :=
  keeps_here.bind fun _ hstart => (keeps_expect _).bind fun _ _ =>
    (keeps_statements hg.statement _ _).bind fun _ hss => (keeps_expect _).bind fun _ _ =>
      (keeps_spanSince hstart).bind fun _ hx => keeps_pure (OneFile.cons_node.mpr ⟨hx, hss⟩)

theorem keeps_functionRest (hg : g.Keeps n) {name : Ident} (hname : name.Stands n)
    (h : start.file = n) : (functionRest g name start).Keeps n fun f => OneFile n f.sites := by
  refine (keeps_expect _).bind fun _ _ => ((keeps_param _).itemsUntil _ _).bind fun params hparams =>
    ((keeps_typeWithin _).behind _).bind fun ret hret => (keeps_block hg).bind fun body hbody =>
      (keeps_spanSince h).bind fun _ hx => keeps_pure ?_
  simpa [FunctionDef.sites, hx, hname, hbody] using ⟨hparams, hret⟩

/-! ### Expressions -/

theorem keeps_expressions (hg : g.Keeps n) :
    (expressions g).Keeps n fun es => OneFile n (Expr.sitesAll es) :=
  ((hg.operand 0).items g.size).imp fun es h => by
    rw [Expr.sitesAll_eq_flatMap]
    exact OneFile.flatMap.mpr h

theorem keeps_expressionsUntil (hg : g.Keeps n) (close : TokenKind) :
    (expressionsUntil g close).Keeps n fun es => OneFile n (Expr.sitesAll es) :=
  (keeps_accept _).bind fun _ _ => .ite (keeps_pure .nil) <|
    (keeps_expressions hg).bind fun _ hes => (keeps_expect _).bind fun _ _ => keeps_pure hes

theorem keeps_literal (value : Literal) (h : start.file = n) :
    (literal value start).Keeps n fun e => OneFile n e.sites :=
  keeps_skip.bind fun _ _ => keeps_pure (by simp [Expr.sites, h])

theorem keeps_nameExpr (h : start.file = n) :
    (nameExpr start).Keeps n fun e => OneFile n e.sites := by
  refine keeps_ident.bind fun name hname => (keeps_ident.behind _).bind fun member? hmember => ?_
  split
  · refine (keeps_spanSince h).bind fun _ hx => keeps_pure ?_
    simp [Expr.sites, hx, hname, hmember]
  · exact keeps_pure (by simp [Expr.sites, hname])

theorem keeps_nextLiteral : nextLiteral.Keeps n fun _ => True :=
  fun _ hc => ⟨⟨hc.rest, hc.eof, hc.last⟩, trivial⟩

theorem literalName_ne (k : Nat) : literalName k ≠ "" := by
  simp [literalName]

theorem keeps_atom (hg : g.Keeps n) : (atom g).Keeps n fun e => OneFile n e.sites := by
  refine keeps_here.bind fun start hstart => keeps_kind.bind fun kind _ => ?_
  split
  case h_6 => exact keeps_nameExpr hstart
  case h_7 =>
    exact keeps_skip.bind fun _ _ => (hg.operand 0).bind fun _ he =>
      (keeps_expect _).bind fun _ _ => keeps_pure he
  case h_8 =>
    exact keeps_skip.bind fun _ _ => (keeps_expressionsUntil hg _).bind fun _ hes =>
      (keeps_spanSince hstart).bind fun _ hx => keeps_pure (OneFile.cons_node.mpr ⟨hx, hes⟩)
  case h_9 =>
    exact keeps_skip.bind fun _ _ => keeps_nextLiteral.bind fun _ _ =>
      (keeps_functionRest hg ⟨hstart, literalName_ne _⟩ hstart).bind fun _ hf => keeps_pure hf
  case h_10 => exact keeps_fail fun _ => rfl
  all_goals exact keeps_literal _ hstart

theorem keeps_applications (hg : g.Keeps n) (h : start.file = n) (k : Nat) {e : Expr}
    (he : OneFile n e.sites) : (applications g start k e).Keeps n fun e => OneFile n e.sites := by
  induction k generalizing e with
  | zero => exact keeps_pure he
  | succ k ih =>
    refine keeps_kind.bind fun kind _ => ?_
    have hspan := keeps_spanSince h
    split
    · refine keeps_skip.bind fun _ _ => (keeps_expressionsUntil hg _).bind fun _ hargs =>
        hspan.bind fun _ hx => ih ?_
      simp [Expr.sites, hx, he, hargs]
    · refine keeps_skip.bind fun _ _ => keeps_ident.bind fun _ hfield =>
        hspan.bind fun _ hx => ih ?_
      simp [Expr.sites, hx, he, hfield]
    · refine keeps_skip.bind fun _ _ => (hg.operand 0).bind fun _ hindex =>
        (keeps_expect _).bind fun _ _ => hspan.bind fun _ hx => ih ?_
      simp [Expr.sites, hx, he, hindex]
    · exact keeps_pure he

theorem keeps_applied (hg : g.Keeps n) : (applied g).Keeps n fun e => OneFile n e.sites :=
  keeps_here.bind fun _ hstart => (keeps_atom hg).bind fun _ he =>
    keeps_applications hg hstart _ he

theorem keeps_unaryStep (hg : g.Keeps n) : (unaryStep g).Keeps n fun e => OneFile n e.sites := by
  refine keeps_here.bind fun start hstart => keeps_kind.bind fun kind _ => ?_
  split
  · exact keeps_skip.bind fun _ _ => hg.unary.bind fun _ he =>
      (keeps_spanSince hstart).bind fun _ hx => keeps_pure (OneFile.cons_node.mpr ⟨hx, he⟩)
  · exact keeps_applied hg

theorem keeps_operations (hg : g.Keeps n) (level k : Nat) {left : Expr}
    (h : OneFile n left.sites) :
    (operations g level k left).Keeps n fun e => OneFile n e.sites := by
  induction k generalizing left with
  | zero => exact keeps_pure h
  | succ k ih =>
    refine keeps_kind.bind fun kind _ => ?_
    split
    · refine .ite (keeps_pure h) (keeps_skip.bind fun _ _ => (hg.operand _).bind fun right hright =>
        ih ?_)
      simp [Expr.sites, h, hright, h.file_of_mem left.span_mem_spans]
    · exact keeps_pure h

theorem keeps_operandStep (hg : g.Keeps n) (level : Nat) :
    (operandStep g level).Keeps n fun e => OneFile n e.sites :=
  (keeps_unaryStep hg).bind fun _ h => keeps_operations hg level _ h

/-! ### Statements -/

theorem keeps_importing : importing.Keeps n fun i => OneFile n i.sites := by
  refine keeps_here.bind fun start hstart => (keeps_expect _).bind fun _ _ =>
    keeps_kind.bind fun kind _ => ?_
  split
  · refine keeps_skip.bind fun _ _ => (keeps_ident.behind _).bind fun alias? halias =>
      (keeps_spanSince hstart).bind fun _ hx => keeps_pure ?_
    cases alias? <;> simp_all [Import.sites]
  · exact keeps_unexpected _

theorem keeps_functionDecl (hg : g.Keeps n) :
    (functionDecl g).Keeps n fun f => OneFile n f.sites :=
  keeps_here.bind fun _ hstart => (keeps_expect _).bind fun _ _ => keeps_ident.bind fun _ hname =>
    keeps_functionRest hg hname hstart

theorem keeps_methodDecl (hg : g.Keeps n) :
    (methodDecl g).Keeps n fun r => OneFile n (Stmt.method r.1 r.2).sites :=
  keeps_here.bind fun _ hstart => (keeps_expect _).bind fun _ _ => (keeps_expect _).bind fun _ _ =>
    (keeps_param _).bind fun _ hr => (keeps_expect _).bind fun _ _ => keeps_ident.bind fun _ hname =>
      (keeps_functionRest hg hname hstart).bind fun _ hf =>
        keeps_pure (OneFile.append.mpr ⟨hr, hf⟩)

theorem keeps_varBinder (k : Nat) : (varBinder k).Keeps n fun v => OneFile n v.sites := by
  refine keeps_ident.bind fun name hname => ((keeps_typeWithin k).behind _).bind fun ty? hty =>
    keeps_pure ?_
  simpa [VarBinder.sites, hname] using hty

theorem keeps_initialValues (hg : g.Keeps n) :
    (initialValues g).Keeps n fun es => OneFile n (Expr.sitesAll es) :=
  (keeps_accept _).bind fun _ _ => .ite (keeps_expressions hg) <|
    (keeps_accept _).bind fun _ _ => .ite (keeps_expressions hg) (keeps_pure .nil)

theorem keeps_varDecl (hg : g.Keeps n) : (varDecl g).Keeps n fun s => OneFile n s.sites := by
  refine keeps_here.bind fun start hstart => keeps_kind.bind fun _ _ => keeps_skip.bind fun _ _ =>
    ((keeps_varBinder _).items _).bind fun targets htargets =>
      (keeps_initialValues hg).bind fun values hvalues => (keeps_spanSince hstart).bind fun _ hx =>
        keeps_pure ?_
  simpa [Stmt.sites, hx, hvalues] using htargets

theorem keeps_typeDecl (k : Nat) : (typeDecl k).Keeps n fun d => OneFile n d.sites :=
  keeps_here.bind fun _ hstart => (keeps_expect _).bind fun _ _ => keeps_ident.bind fun _ hname =>
    (keeps_typeWithin k).bind fun _ hty => (keeps_spanSince hstart).bind fun _ hx =>
      keeps_pure (by simp [TypeDecl.sites, hx, hname, hty])

theorem keeps_alternative (hg : g.Keeps n) : (alternative g).Keeps n fun a => OneFile n a.sites :=
  (keeps_accept _).bind fun _ _ => .ite
    (keeps_kind.bind fun _ _ => .ite (hg.conditional.bind fun _ hc => keeps_pure hc)
      ((keeps_block hg).bind fun _ hb => keeps_pure hb))
    (keeps_pure .nil)

theorem keeps_conditionalStep (hg : g.Keeps n) :
    (conditionalStep g).Keeps n fun c => OneFile n c.sites := by
  refine keeps_here.bind fun start hstart => (keeps_expect _).bind fun _ _ =>
    (hg.operand 0).bind fun cond hcond => (keeps_block hg).bind fun body hbody =>
      (keeps_alternative hg).bind fun a ha => (keeps_spanSince hstart).bind fun _ hx =>
        keeps_pure ?_
  simp [Conditional.sites, hx, hcond, hbody, ha]

theorem keeps_returning (hg : g.Keeps n) : (returning g).Keeps n fun s => OneFile n s.sites :=
  keeps_here.bind fun _ hstart => (keeps_expect _).bind fun _ _ => keeps_kind.bind fun _ _ => .ite
    ((keeps_spanSince hstart).bind fun _ hx => keeps_pure (by simp [Stmt.sites, hx]))
    ((hg.operand 0).bind fun _ he => (keeps_spanSince hstart).bind fun _ hx =>
      keeps_pure (OneFile.cons_node.mpr ⟨hx, he⟩))

theorem keeps_assignmentOrExpr (hg : g.Keeps n) :
    (assignmentOrExpr g).Keeps n fun s => OneFile n s.sites := by
  refine keeps_here.bind fun start hstart => ((keeps_operandStep hg 0).items _).bind
    fun targets ht => (keeps_accept _).bind fun _ _ => .ite ?_ ?_
  · refine (keeps_expressions hg).bind fun values hv => (keeps_spanSince hstart).bind fun _ hx =>
      keeps_pure ?_
    simpa [Stmt.sites, hx, hv, Expr.sitesAll_eq_flatMap targets] using ht
  · split
    · exact keeps_pure (ht _ (List.mem_singleton_self _))
    · exact keeps_unexpected _

theorem keeps_statementBody (hg : g.Keeps n) :
    (statementBody g).Keeps n fun s => OneFile n s.sites := by
  refine keeps_kind.bind fun kind _ => ?_
  split
  · exact keeps_importing.map fun _ h => h
  · exact (keeps_look (Q := fun _ => True) fun _ _ => trivial).bind fun _ _ => .ite
      ((keeps_methodDecl hg).bind fun _ h => keeps_pure h)
      ((keeps_functionDecl hg).map fun _ h => h)
  · exact keeps_varDecl hg
  · exact keeps_varDecl hg
  · exact (keeps_typeDecl _).map fun _ h => h
  · exact (keeps_conditionalStep hg).map fun _ h => h
  · exact keeps_returning hg
  · exact (keeps_block hg).map fun _ h => h
  · exact keeps_assignmentOrExpr hg

theorem keeps_statementStep (hg : g.Keeps n) :
    (statementStep g).Keeps n fun s => OneFile n s.sites :=
  (keeps_statementBody hg).bind fun _ hs => (keeps_accept _).bind fun _ _ => keeps_pure hs

end Parser

/-! ### Programs -/

theorem Grammar.keeps_within (n k : Nat) : (Grammar.within k).Keeps n := by
  induction k with
  | zero =>
    exact ⟨fun _ => Parser.keeps_fail fun _ => rfl, Parser.keeps_fail fun _ => rfl,
      Parser.keeps_fail fun _ => rfl, Parser.keeps_unexpected _⟩
  | succ k ih =>
    exact ⟨Parser.keeps_operandStep ih, Parser.keeps_unaryStep ih,
      Parser.keeps_statementStep ih, Parser.keeps_conditionalStep ih⟩

theorem Parser.keeps_program (n : Nat) : program.Keeps n fun p => OneFile n p.sites :=
  keeps_here.bind fun _ hstart => (keeps_look (Q := fun _ => True) fun _ _ => trivial).bind fun _ _ =>
    (keeps_statements (Grammar.keeps_within n _).statement _ _).bind fun _ hss =>
      keeps_here.bind fun _ _ => keeps_pure (OneFile.cons_node.mpr ⟨hstart, hss⟩)

/-- The end of the file that stands among tokens of one file stands there as well. -/
theorem Cursor.stands_ofTokens {n : Nat} {tokens : List Token} (hne : tokens ≠ [])
    (h : ∀ t ∈ tokens, t.Stands n) : (Cursor.ofTokens tokens).Stands n := by
  have heof : (Cursor.eofSpan tokens).file = n := by
    unfold Cursor.eofSpan
    split
    · next t ht => exact (h t (List.mem_of_find?_eq_some ht)).file
    · split
      · next t ht => exact (h t (List.mem_of_getLast? ht)).file
      · next hnone => exact absurd (List.getLast?_eq_none_iff.mp hnone) hne
  have hrest : ∀ t ∈ tokens.takeWhile fun t => t.kind ≠ .eof, t.Stands n :=
    fun t ht => h t (List.takeWhile_subset _ ht)
  refine ⟨hrest, heof, ?_⟩
  simp only [Cursor.ofTokens]
  cases hhead : (tokens.takeWhile fun t => t.kind ≠ .eof).head? with
  | none => exact heof
  | some t => exact (hrest t (List.mem_of_head? hhead)).file

/-! ### Lexemes and tokens -/

/-- A name that is read is not empty. -/
theorem name_ne_of_lexeme {c : Char} {rest : List Char} {span : Span} {name : String}
    (h : (lexeme c rest).outcome span = .ok (.ident name)) : name ≠ "" := by
  unfold lexeme at h
  split at h
  · next hc =>
    simp only [wordLexeme, Lexeme.token, wordKind] at h
    split at h
    · cases h
    · obtain rfl := TokenKind.ident.inj (Except.ok.inj h)
      simp [isIdentContinue_of_isIdentStart hc]
  split at h
  · simp only [numberLexeme, numberKind?] at h
    grind
  split at h
  · simp only [stringLexeme] at h
    split at h <;> simp at h
  split at h <;> simp [Lexeme.token] at h

/-- A lexeme that is no token is reported where it stands. -/
theorem span_of_lexeme {c : Char} {rest : List Char} {span : Span} {e : SyntaxError}
    (h : (lexeme c rest).outcome span = .error e) : e.span = span := by
  unfold lexeme at h
  split at h
  · cases h
  split at h
  · simp only [numberLexeme] at h
    split at h
    · cases h
    · exact Except.error.inj h ▸ rfl
  split at h
  · simp only [stringLexeme] at h
    split at h
    · cases h
    · exact Except.error.inj h ▸ rfl
  split at h <;> cases h

namespace Lexer

theorem next_error {lx ly : Lexer} {e : SyntaxError} (h : lx.next = (.error e, ly)) :
    e.span.file = lx.file := by
  unfold next at h
  have hfile : lx.skipTrivia.file = lx.file := rfl
  generalize lx.skipTrivia = lz at h hfile
  cases hr : lz.rest with
  | nil => simp [hr] at h
  | cons c rest =>
    simp only [hr, Prod.mk.injEq] at h
    cases ho : (lexeme c rest).outcome (lz.spanOf (lexeme c rest).length) with
    | ok kind => simp [ho, Except.map] at h
    | error e' =>
      simp only [ho, Except.map, Except.error.injEq] at h
      rw [← h.1, span_of_lexeme ho]
      exact hfile

/-- A token that is read stands in the file of its text. -/
theorem stands_next {lx ly : Lexer} {t : Token} (h : lx.next = (.ok t, ly)) :
    t.Stands lx.file := by
  refine ⟨(next_span h).1, fun {x} hkind => ?_⟩
  unfold next at h
  generalize lx.skipTrivia = lz at h
  cases hr : lz.rest with
  | nil =>
    simp only [hr, Prod.mk.injEq, Except.ok.injEq] at h
    rw [← h.1] at hkind
    cases hkind
  | cons c rest =>
    simp only [hr, Prod.mk.injEq] at h
    cases ho : (lexeme c rest).outcome (lz.spanOf (lexeme c rest).length) with
    | error e => simp [ho, Except.map] at h
    | ok kind =>
      simp only [ho, Except.map, Except.ok.injEq] at h
      rw [← h.1] at hkind
      dsimp only at hkind
      exact name_ne_of_lexeme (hkind ▸ ho)

/-- The tokens of a text stand in its file, and there is one; what is no token points there. -/
theorem files_tokensWithin (k : Nat) (lx : Lexer) :
    Parser.Files lx.file (fun ts => ts ≠ [] ∧ ∀ t ∈ ts, t.Stands lx.file)
      (lx.tokensWithin k) := by
  induction k generalizing lx with
  | zero =>
    rw [tokensWithin]
    rcases hn : lx.next with ⟨e | t, ly⟩
    · exact next_error hn
    · exact ⟨List.cons_ne_nil _ _, List.forall_mem_singleton.mpr (stands_next hn)⟩
  | succ k ih =>
    rw [tokensWithin]
    rcases hn : lx.next with ⟨e | t, ly⟩
    · exact next_error hn
    · have ht := stands_next hn
      have hrest := ih ly
      rw [(next_span hn).2.1] at hrest
      dsimp only
      split
      · exact ⟨List.cons_ne_nil _ _, List.forall_mem_singleton.mpr ht⟩
      · cases hts : ly.tokensWithin k with
        | error e =>
          rw [hts] at hrest
          exact hrest
        | ok ts =>
          rw [hts] at hrest
          exact ⟨List.cons_ne_nil _ _, List.forall_mem_cons.mpr ⟨ht, hrest.2⟩⟩

end Lexer

/-- The tree of a parsed text stands in its file; a text that is no program has its error there. -/
theorem files_parse (text : String) (n : Nat) :
    Parser.Files n (fun program => OneFile n program.sites) (parse text n) := by
  have htokens := Lexer.files_tokensWithin (Lexer.ofSource text n).rest.length (.ofSource text n)
  change Parser.Files n _ (tokenize text n) at htokens
  rw [parse]
  cases ht : tokenize text n with
  | error e =>
    rw [ht] at htokens
    exact htokens
  | ok tokens =>
    rw [ht] at htokens
    exact (Parser.keeps_program n _ (Cursor.stands_ofTokens htokens.1 htokens.2)).2

/-- The sites of a parsed text stand in its file, and no name among them is empty. -/
theorem oneFile_of_parse {text : String} {n : Nat} {program : Program}
    (h : parse text n = .ok program) : OneFile n program.sites := by
  have hfiles := files_parse text n
  rwa [h] at hfiles

/-- A text that is not a program has its error in its file. -/
theorem file_of_parse_error {text : String} {n : Nat} {e : SyntaxError}
    (h : parse text n = .error e) : e.span.file = n := by
  have hfiles := files_parse text n
  rwa [h] at hfiles

end Sable
