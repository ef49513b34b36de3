import Sable.Proofs.Related
import Sable.Proofs.Syntax.Paired
import Sable.Syntax.Grammar

/-!
# Parsing two token lists side by side

Nothing in the grammar looks at a span. So a parser that is started on two lists of tokens of
the same kinds reads the same from both: either it fails on both with the same message, or it
yields trees that differ in their spans only, with related names in related places. The span of
a node reaches from one token to another, so it is enough that the places of nodes go on to be
related when they are merged.
-/

namespace Sable

/-- Places of names and of nodes as a parser keeps them related. -/
class Span.Merging (N T : Span → Span → Prop) : Prop where
  /-- A name stands where a node may stand. -/
  names : T ≤ N
  /-- Places that reach from one node to another are related if both ends are. -/
  merge : ∀ {x x' y y' : Span}, N x y → N x' y' → N (x.merge x') (y.merge y')

instance (T : Span → Span → Prop) : Span.Merging Span.Free T where
  names := fun _ _ _ => trivial
  merge _ _ := trivial

/-- Tokens of the same kinds still to be read, in related places. -/
structure Cursor.Alike (N T : Span → Span → Prop) (c d : Cursor) : Prop where
  /-- The tokens agree in their kinds. -/
  rest : List.Forall₂ (fun t u => t.kind = u.kind ∧ T t.span u.span) c.rest d.rest
  /-- The files end in related places. -/
  eof : N c.eof d.eof
  /-- The tokens read last stand in related places. -/
  last : N c.last d.last
  /-- Equally many function literals were met. -/
  literals : c.literals = d.literals

namespace Cursor.Alike

variable {N T : Span → Span → Prop} {c d : Cursor}

theorem kind (h : c.Alike N T d) : c.kind = d.kind := by
  have hrest := h.rest
  simp only [Cursor.kind, Cursor.current]
  generalize c.rest = ts, d.rest = us at hrest
  cases hrest with
  | nil => rfl
  | cons h _ => exact h.1

theorem nextKind (h : c.Alike N T d) : c.nextKind = d.nextKind := by
  have hrest := h.rest
  simp only [Cursor.nextKind]
  generalize c.rest = ts, d.rest = us at hrest
  cases hrest with
  | nil => rfl
  | cons _ hrest =>
    cases hrest with
    | nil => rfl
    | cons h _ => exact h.1

/-- A token in front of the end stands in related places. -/
theorem here (h : c.Alike N T d) (hk : c.kind ≠ .eof) : T c.here d.here := by
  have hrest := h.rest
  simp only [Cursor.kind, Cursor.here, Cursor.current] at hk ⊢
  generalize c.rest = ts, d.rest = us at hrest hk
  cases hrest with
  | nil => exact absurd rfl hk
  | cons h _ => exact h.2

variable [Span.Merging N T]

/-- Whatever comes next stands in a related place. -/
theorem place (h : c.Alike N T d) : N c.here d.here := by
  have hrest := h.rest
  simp only [Cursor.here, Cursor.current]
  generalize c.rest = ts, d.rest = us at hrest
  cases hrest with
  | nil => exact h.eof
  | cons h _ => exact Span.Merging.names _ _ h.2

theorem advance (h : c.Alike N T d) : c.advance.Alike N T d.advance := by
  obtain ⟨hrest, heof, hlast, hliterals⟩ := h
  obtain ⟨rest, eof, last, n⟩ := c
  obtain ⟨rest', eof', last', n'⟩ := d
  cases hrest with
  | nil => exact ⟨.nil, heof, hlast, hliterals⟩
  | cons h hrest => exact ⟨hrest, heof, Span.Merging.names _ _ h.2, hliterals⟩

end Cursor.Alike

namespace Parser

variable {α β : Type} {N T : Span → Span → Prop}

/-- Two ends of reading: both yield related results, or both fail with the same message. -/
inductive Ends (N T : Span → Span → Prop) (Q : α → α → Prop) :
    Except SyntaxError α × Cursor → Except SyntaxError α × Cursor → Prop
  | ok {a b : α} {c d : Cursor} : Q a b → c.Alike N T d → Ends N T Q (.ok a, c) (.ok b, d)
  | error {e f : SyntaxError} {c d : Cursor} : e.message = f.message →
    Ends N T Q (.error e, c) (.error f, d)

/-- Two parsers read the same from tokens of the same kinds. -/
def Parallel (N T : Span → Span → Prop) (p q : Parser α) (Q : α → α → Prop) : Prop :=
  ∀ c d, c.Alike N T d → Ends N T Q (p c) (q d)

variable {p q : Parser α} {f g : α → Parser β} {Q : α → α → Prop} {R : β → β → Prop}

theorem parallel_pure {a b : α} (h : Q a b) : (pure a : Parser α).Parallel N T (pure b) Q :=
  fun _ _ hcd => .ok h hcd

theorem Parallel.bind (hp : p.Parallel N T q Q) (hf : ∀ a b, Q a b → (f a).Parallel N T (g b) R) :
    (p >>= f).Parallel N T (q >>= g) R := by
  intro c d hcd
  have hends := hp c d hcd
  simp only [Bind.bind, Parser.bind]
  generalize p c = r, q d = r' at hends
  cases hends with
  | ok hab hcd' => exact hf _ _ hab _ _ hcd'
  | error he => exact .error he

/-- The same result of both parsers may be relied on behind them. -/
theorem Parallel.bind_eq (hp : p.Parallel N T q Eq) (hf : ∀ a, (f a).Parallel N T (g a) R) :
    (p >>= f).Parallel N T (q >>= g) R := by
  refine hp.bind fun a b hab => ?_
  obtain rfl := hab
  exact hf a

theorem Parallel.map {k l : α → β} (hp : p.Parallel N T q Q) (h : ∀ a b, Q a b → R (k a) (l b)) :
    (k <$> p).Parallel N T (l <$> q) R :=
  hp.bind fun a b hab => parallel_pure (h a b hab)

theorem Parallel.ite {b : Prop} [Decidable b] {p' q' : Parser α} (hp : p.Parallel N T q Q)
    (hp' : p'.Parallel N T q' Q) :
    (if b then p else p').Parallel N T (if b then q else q') Q := by
  split
  · exact hp
  · exact hp'

/-! ### Single tokens -/

theorem parallel_fail {e : Span → SyntaxError} (he : ∀ x y, (e x).message = (e y).message) :
    (fail e : Parser α).Parallel N T (fail e) Q :=
  fun _ _ _ => .error (he _ _)

theorem parallel_unexpected (e : Expectation) :
    (unexpected e : Parser α).Parallel N T (unexpected e) Q := by
  intro c d hcd
  refine .error ?_
  rw [hcd.kind]
  rfl

theorem parallel_kind : (look Cursor.kind).Parallel N T (look Cursor.kind) Eq :=
  fun _ _ hcd => .ok hcd.kind hcd

theorem parallel_nextKind : (look Cursor.nextKind).Parallel N T (look Cursor.nextKind) Eq :=
  fun _ _ hcd => .ok hcd.nextKind hcd

theorem parallel_remaining : remaining.Parallel N T remaining Eq :=
  fun _ _ hcd => .ok hcd.rest.length_eq hcd

/--
A parser that looks at the next token and its place: the places are related unless the token
is the end of the file.
-/
theorem parallel_next {F G : Span → TokenKind → Parser α}
    (heof : ∀ x y, (F x .eof).Parallel N T (G y .eof) Q)
    (h : ∀ x y k, T x y → (F x k).Parallel N T (G y k) Q) :
    (do let start ← look Cursor.here; let k ← look Cursor.kind; F start k : Parser α).Parallel N T
      (do let start ← look Cursor.here; let k ← look Cursor.kind; G start k) Q := by
  intro c d hcd
  have hkind := hcd.kind
  change Ends N T Q (F c.here c.kind c) (G d.here d.kind d)
  by_cases hk : c.kind = .eof
  · rw [← hkind, hk]
    exact heof _ _ c d hcd
  · rw [← hkind]
    exact h _ _ _ (hcd.here hk) c d hcd

theorem parallel_nextLiteral : nextLiteral.Parallel N T nextLiteral Eq :=
  fun _ _ hcd => .ok hcd.literals ⟨hcd.rest, hcd.eof, hcd.last, congrArg (· + 1) hcd.literals⟩

variable [Span.Merging N T]

theorem parallel_here : (look Cursor.here).Parallel N T (look Cursor.here) N :=
  fun _ _ hcd => .ok hcd.place hcd

theorem parallel_skip : skip.Parallel N T skip Eq := fun _ _ hcd => .ok rfl hcd.advance

theorem parallel_spanSince {start start' : Span} (h : N start start') :
    (spanSince start).Parallel N T (spanSince start') N :=
  fun _ _ hcd => .ok (Span.Merging.merge T h hcd.last) hcd

theorem parallel_expect (k : TokenKind) : (expect k).Parallel N T (expect k) Eq := by
  intro c d hcd
  have hkind := hcd.kind
  by_cases hk : c.kind = k
  · have hk' : d.kind = k := hkind ▸ hk
    simpa only [expect, hk, hk', ↓reduceIte] using parallel_skip c d hcd
  · have hk' : d.kind ≠ k := hkind ▸ hk
    simpa only [expect, hk, hk', ↓reduceIte] using parallel_unexpected _ c d hcd

theorem parallel_accept (k : TokenKind) : (accept k).Parallel N T (accept k) Eq := by
  intro c d hcd
  have hkind := hcd.kind
  by_cases hk : c.kind = k
  · have hk' : d.kind = k := hkind ▸ hk
    simpa only [accept, hk, hk', ↓reduceIte] using .ok rfl hcd.advance
  · have hk' : d.kind ≠ k := hkind ▸ hk
    simpa only [accept, hk, hk', ↓reduceIte] using .ok rfl hcd

theorem parallel_ident : ident.Parallel N T ident (Ident.Alike T) := by
  intro c d hcd
  have hhere := hcd.here
  simp only [ident, ← hcd.kind]
  split
  · next name hk => exact .ok ⟨rfl, hhere (by simp [hk])⟩ hcd.advance
  · exact parallel_fail (fun _ _ => rfl) c d hcd

/-! ### Repetitions -/

theorem Parallel.behind (hp : p.Parallel N T q Q) (mark : TokenKind) :
    (behind mark p).Parallel N T (behind mark q) (Option.Rel Q) :=
  (parallel_accept mark).bind_eq fun _ => .ite
    (hp.bind fun _ _ hab => parallel_pure (.some hab)) (parallel_pure .none)

theorem Parallel.moreItems (hp : p.Parallel N T q Q) (n : Nat) :
    (moreItems p n).Parallel N T (moreItems q n) (List.Forall₂ Q) := by
  induction n with
  | zero => exact parallel_pure .nil
  | succ n ih =>
    refine (parallel_accept _).bind_eq fun _ => .ite ?_ (parallel_pure .nil)
    exact hp.bind fun _ _ hab => ih.bind fun _ _ hrest => parallel_pure (.cons hab hrest)

theorem Parallel.items (hp : p.Parallel N T q Q) (n : Nat) :
    (items n p).Parallel N T (items n q) (List.Forall₂ Q) :=
  hp.bind fun _ _ hab => (hp.moreItems n).bind fun _ _ hrest => parallel_pure (.cons hab hrest)

theorem Parallel.itemsBefore (hp : p.Parallel N T q Q) (close : TokenKind) (n : Nat) :
    (itemsBefore close p n).Parallel N T (itemsBefore close q n) (List.Forall₂ Q) := by
  induction n with
  | zero => exact parallel_pure .nil
  | succ n ih =>
    refine parallel_kind.bind_eq fun kind => .ite (parallel_pure .nil) ?_
    refine hp.bind fun _ _ hab => (parallel_accept _).bind_eq fun _ => .ite ?_ ?_
    · exact ih.bind fun _ _ hrest => parallel_pure (.cons hab hrest)
    · exact parallel_pure (.cons hab .nil)

theorem Parallel.itemsUntil (hp : p.Parallel N T q Q) (n : Nat) (close : TokenKind) :
    (itemsUntil n close p).Parallel N T (itemsUntil n close q) (List.Forall₂ Q) :=
  (hp.itemsBefore close n).bind fun _ _ h => (parallel_expect close).bind_eq fun _ =>
    parallel_pure h

/-! ### Types -/

section

variable {nested : Parser TypeExpr}

theorem parallel_fieldDecl (h : nested.Parallel N T nested (TypeExpr.Paired N T)) :
    (fieldDecl nested).Parallel N T (fieldDecl nested) (FieldDecl.Paired N T) :=
  parallel_here.bind fun _ _ hxy => (parallel_accept _).bind_eq fun _ =>
    parallel_ident.bind fun _ _ hname => (parallel_expect _).bind_eq fun _ =>
      h.bind fun _ _ hty => (parallel_spanSince hxy).bind fun _ _ hspan =>
        parallel_pure (.mk hspan hname hty)

theorem parallel_arrayType (h : nested.Parallel N T nested (TypeExpr.Paired N T)) {x y : Span}
    (hxy : N x y) : (arrayType nested x).Parallel N T (arrayType nested y) (TypeExpr.Paired N T) :=
  (parallel_expect _).bind_eq fun _ => h.bind fun _ _ helem =>
    (parallel_spanSince hxy).bind fun _ _ hspan => parallel_pure (.array hspan helem)

theorem parallel_structType (h : nested.Parallel N T nested (TypeExpr.Paired N T)) (n : Nat)
    {x y : Span} (hxy : N x y) :
    (structType n nested x).Parallel N T (structType n nested y) (TypeExpr.Paired N T) :=
  (parallel_expect _).bind_eq fun _ => ((parallel_fieldDecl h).itemsUntil _ _).bind
    fun _ _ hfields => (parallel_spanSince hxy).bind fun _ _ hspan =>
      parallel_pure (.struct hspan hfields)

theorem parallel_functionType (h : nested.Parallel N T nested (TypeExpr.Paired N T)) (n : Nat)
    {x y : Span} (hxy : N x y) :
    (functionType n nested x).Parallel N T (functionType n nested y) (TypeExpr.Paired N T) :=
  (parallel_expect _).bind_eq fun _ => (h.itemsUntil _ _).bind fun _ _ hparams =>
    (h.behind _).bind fun _ _ hret => (parallel_spanSince hxy).bind fun _ _ hspan =>
      parallel_pure (.function hspan hparams hret)

/-- The same name stands for the same type. -/
theorem paired_typeOfName {x y : Ident} (h : x.Alike T y) :
    (typeOfName x).Paired N T (typeOfName y) := by
  simp only [typeOfName, h.name]
  split
  · exact .primitive _ (Span.Merging.names _ _ h.span)
  · exact .named h

theorem parallel_namedType {x y : Span} (hxy : N x y) :
    (namedType x).Parallel N T (namedType y) (TypeExpr.Paired N T) := by
  refine parallel_ident.bind fun _ _ hname => (parallel_ident.behind _).bind fun _ _ hmember => ?_
  cases hmember with
  | none => exact parallel_pure (paired_typeOfName hname)
  | some hmember =>
    exact (parallel_spanSince hxy).bind fun _ _ hspan =>
      parallel_pure (.qualified hspan hname hmember)

theorem parallel_typeStep (h : nested.Parallel N T nested (TypeExpr.Paired N T)) (n : Nat) :
    (typeStep n nested).Parallel N T (typeStep n nested) (TypeExpr.Paired N T) := by
  refine parallel_here.bind fun _ _ hxy => parallel_kind.bind_eq fun kind => ?_
  split
  · exact parallel_skip.bind_eq fun _ => parallel_arrayType h hxy
  · exact parallel_skip.bind_eq fun _ => parallel_structType h n hxy
  · exact parallel_skip.bind_eq fun _ => parallel_functionType h n hxy
  · exact parallel_namedType hxy
  · exact parallel_fail fun _ _ => rfl

end

theorem parallel_typeWithin (n : Nat) :
    (typeWithin n).Parallel N T (typeWithin n) (TypeExpr.Paired N T) := by
  induction n with
  | zero => exact parallel_fail fun _ _ => rfl
  | succ n ih => exact parallel_typeStep ih n

/-! ### Blocks and functions -/

theorem parallel_statements {stmt : Parser Stmt} (h : stmt.Parallel N T stmt (Stmt.Paired N T))
    (close : TokenKind) (n : Nat) :
    (statements stmt close n).Parallel N T (statements stmt close n)
      (List.Forall₂ (Stmt.Paired N T)) := by
  induction n with
  | zero => exact parallel_pure .nil
  | succ n ih =>
    refine parallel_kind.bind_eq fun _ => .ite (parallel_pure .nil) ?_
    refine (parallel_accept _).bind_eq fun _ => .ite ih ?_
    exact h.bind fun _ _ hs => ih.bind fun _ _ hss => parallel_pure (.cons hs hss)

theorem parallel_param (n : Nat) : (param n).Parallel N T (param n) (Param.Paired N T) :=
  parallel_here.bind fun _ _ hxy => parallel_ident.bind fun _ _ hname =>
    (parallel_expect _).bind_eq fun _ => (parallel_typeWithin n).bind fun _ _ hty =>
      (parallel_spanSince hxy).bind fun _ _ hspan => parallel_pure ⟨hname, hty, hspan⟩

end Parser

/-- The parsers for nested constructs read the same from tokens of the same kinds. -/
structure Grammar.Parallel (N T : Span → Span → Prop) (g : Grammar) : Prop where
  /-- The expressions between operators. -/
  operand : ∀ level, (g.operand level).Parallel N T (g.operand level) (Expr.Paired N T)
  /-- The operands. -/
  unary : g.unary.Parallel N T g.unary (Expr.Paired N T)
  /-- The statements. -/
  statement : g.statement.Parallel N T g.statement (Stmt.Paired N T)
  /-- The conditions. -/
  conditional : g.conditional.Parallel N T g.conditional (Conditional.Paired N T)

namespace Parser

variable {N T : Span → Span → Prop} [Span.Merging N T] {g : Grammar}

theorem parallel_block (hg : g.Parallel N T) :
    (block g).Parallel N T (block g) (Block.Paired N T) :=
  parallel_here.bind fun _ _ hxy => (parallel_expect _).bind_eq fun _ =>
    (parallel_statements hg.statement _ _).bind fun _ _ hstmts =>
      (parallel_expect _).bind_eq fun _ => (parallel_spanSince hxy).bind fun _ _ hspan =>
        parallel_pure (.mk hspan hstmts)

theorem parallel_functionRest (hg : g.Parallel N T) {name name' : Ident}
    (hname : name.Alike T name') {x y : Span} (hxy : N x y) :
    (functionRest g name x).Parallel N T (functionRest g name' y) (FunctionDef.Paired N T) :=
  (parallel_expect _).bind_eq fun _ => ((parallel_param _).itemsUntil _ _).bind
    fun _ _ hparams => ((parallel_typeWithin _).behind _).bind fun _ _ hret =>
      (parallel_block hg).bind fun _ _ hbody => (parallel_spanSince hxy).bind fun _ _ hspan =>
        parallel_pure (.mk hspan hname hparams hret hbody)

/-! ### Expressions -/

theorem parallel_expressions (hg : g.Parallel N T) :
    (expressions g).Parallel N T (expressions g) (List.Forall₂ (Expr.Paired N T)) :=
  (hg.operand 0).items g.size

theorem parallel_expressionsUntil (hg : g.Parallel N T) (close : TokenKind) :
    (expressionsUntil g close).Parallel N T (expressionsUntil g close)
      (List.Forall₂ (Expr.Paired N T)) :=
  (parallel_accept close).bind_eq fun _ => .ite (parallel_pure .nil) <|
    (parallel_expressions hg).bind fun _ _ h => (parallel_expect close).bind_eq fun _ =>
      parallel_pure h

theorem parallel_literal (value : Literal) {x y : Span} (hxy : N x y) :
    (literal value x).Parallel N T (literal value y) (Expr.Paired N T) :=
  parallel_skip.bind_eq fun _ => parallel_pure (.literal value hxy)

theorem parallel_nameExpr {x y : Span} (hxy : N x y) :
    (nameExpr x).Parallel N T (nameExpr y) (Expr.Paired N T) := by
  refine parallel_ident.bind fun _ _ hname => (parallel_ident.behind _).bind fun _ _ hmember => ?_
  cases hmember with
  | none => exact parallel_pure (.ident hname)
  | some hmember =>
    exact (parallel_spanSince hxy).bind fun _ _ hspan =>
      parallel_pure (.qualified hspan hname hmember)

/-- A function literal goes by a name that stands where its first word does. -/
theorem parallel_atom (hg : g.Parallel N T) : (atom g).Parallel N T (atom g) (Expr.Paired N T) := by
  refine parallel_next (fun _ _ => parallel_fail fun _ _ => rfl) fun x y kind hxy => ?_
  split
  case h_6 => exact parallel_nameExpr (Span.Merging.names _ _ hxy)
  case h_7 =>
    exact parallel_skip.bind_eq fun _ => (hg.operand 0).bind fun _ _ he =>
      (parallel_expect _).bind_eq fun _ => parallel_pure he
  case h_8 =>
    exact parallel_skip.bind_eq fun _ => (parallel_expressionsUntil hg _).bind fun _ _ hes =>
      (parallel_spanSince (Span.Merging.names _ _ hxy)).bind fun _ _ hspan =>
        parallel_pure (.array hspan hes)
  case h_9 =>
    have hname : ∀ n, Ident.Alike T ⟨literalName n, x⟩ ⟨literalName n, y⟩ := fun _ => ⟨rfl, hxy⟩
    exact parallel_skip.bind_eq fun _ => parallel_nextLiteral.bind_eq fun n =>
      (parallel_functionRest hg (hname n) (Span.Merging.names _ _ hxy)).bind fun _ _ hf =>
        parallel_pure (.function hf)
  case h_10 => exact parallel_fail fun _ _ => rfl
  all_goals exact parallel_literal _ (Span.Merging.names _ _ hxy)

theorem parallel_applications (hg : g.Parallel N T) {x y : Span} (hxy : N x y) (n : Nat)
    {e e' : Expr} (he : e.Paired N T e') :
    (applications g x n e).Parallel N T (applications g y n e') (Expr.Paired N T) := by
  induction n generalizing e e' with
  | zero => exact parallel_pure he
  | succ n ih =>
    refine parallel_kind.bind_eq fun kind => ?_
    split
    · exact parallel_skip.bind_eq fun _ => (parallel_expressionsUntil hg _).bind fun _ _ hargs =>
        (parallel_spanSince hxy).bind fun _ _ hspan => ih (.call hspan he hargs)
    · exact parallel_skip.bind_eq fun _ => parallel_ident.bind fun _ _ hfield =>
        (parallel_spanSince hxy).bind fun _ _ hspan => ih (.field hspan he hfield)
    · exact parallel_skip.bind_eq fun _ => (hg.operand 0).bind fun _ _ hindex =>
        (parallel_expect _).bind_eq fun _ => (parallel_spanSince hxy).bind fun _ _ hspan =>
          ih (.index hspan he hindex)
    · exact parallel_pure he

theorem parallel_applied (hg : g.Parallel N T) :
    (applied g).Parallel N T (applied g) (Expr.Paired N T) :=
  parallel_here.bind fun _ _ hxy => (parallel_atom hg).bind fun _ _ he =>
    parallel_applications hg hxy _ he

theorem parallel_unaryStep (hg : g.Parallel N T) :
    (unaryStep g).Parallel N T (unaryStep g) (Expr.Paired N T) := by
  refine parallel_here.bind fun _ _ hxy => parallel_kind.bind_eq fun kind => ?_
  split
  · exact parallel_skip.bind_eq fun _ => hg.unary.bind fun _ _ he =>
      (parallel_spanSince hxy).bind fun _ _ hspan => parallel_pure (.unary _ hspan he)
  · exact parallel_applied hg

theorem parallel_operations (hg : g.Parallel N T) (level n : Nat) {left left' : Expr}
    (h : left.Paired N T left') :
    (operations g level n left).Parallel N T (operations g level n left') (Expr.Paired N T) := by
  induction n generalizing left left' with
  | zero => exact parallel_pure h
  | succ n ih =>
    refine parallel_kind.bind_eq fun kind => ?_
    split
    · refine .ite (parallel_pure h) (parallel_skip.bind_eq fun _ => ?_)
      refine (hg.operand _).bind fun _ _ hright => ih (.binary _ ?_ h hright)
      exact Span.Merging.merge T (h.span Span.Merging.names) (hright.span Span.Merging.names)
    · exact parallel_pure h

theorem parallel_operandStep (hg : g.Parallel N T) (level : Nat) :
    (operandStep g level).Parallel N T (operandStep g level) (Expr.Paired N T) :=
  (parallel_unaryStep hg).bind fun _ _ h => parallel_operations hg level _ h

/-! ### Statements -/

theorem parallel_importing : importing.Parallel N T importing (Import.Paired N T) := by
  refine parallel_here.bind fun _ _ hxy => (parallel_expect _).bind_eq fun _ =>
    parallel_kind.bind_eq fun kind => ?_
  split
  · exact parallel_skip.bind_eq fun _ => (parallel_ident.behind _).bind fun _ _ halias =>
      (parallel_spanSince hxy).bind fun _ _ hspan => parallel_pure ⟨rfl, halias, hspan⟩
  · exact parallel_unexpected _

theorem parallel_functionDecl (hg : g.Parallel N T) :
    (functionDecl g).Parallel N T (functionDecl g) (FunctionDef.Paired N T) :=
  parallel_here.bind fun _ _ hxy => (parallel_expect _).bind_eq fun _ =>
    parallel_ident.bind fun _ _ hname => parallel_functionRest hg hname hxy

theorem parallel_methodDecl (hg : g.Parallel N T) :
    (methodDecl g).Parallel N T (methodDecl g)
      fun r r' => r.1.Paired N T r'.1 ∧ r.2.Paired N T r'.2 :=
  parallel_here.bind fun _ _ hxy => (parallel_expect _).bind_eq fun _ =>
    (parallel_expect _).bind_eq fun _ => (parallel_param _).bind fun _ _ hreceiver =>
      (parallel_expect _).bind_eq fun _ => parallel_ident.bind fun _ _ hname =>
        (parallel_functionRest hg hname hxy).bind fun _ _ hf => parallel_pure ⟨hreceiver, hf⟩

theorem parallel_varBinder (n : Nat) :
    (varBinder n).Parallel N T (varBinder n) (VarBinder.Paired N T) :=
  parallel_ident.bind fun _ _ hname => ((parallel_typeWithin n).behind _).bind fun _ _ hty =>
    parallel_pure ⟨hname, hty⟩

theorem parallel_initialValues (hg : g.Parallel N T) :
    (initialValues g).Parallel N T (initialValues g) (List.Forall₂ (Expr.Paired N T)) :=
  (parallel_accept _).bind_eq fun _ => .ite (parallel_expressions hg) <|
    (parallel_accept _).bind_eq fun _ => .ite (parallel_expressions hg) (parallel_pure .nil)

theorem parallel_varDecl (hg : g.Parallel N T) :
    (varDecl g).Parallel N T (varDecl g) (Stmt.Paired N T) :=
  parallel_here.bind fun _ _ hxy => parallel_kind.bind_eq fun _ => parallel_skip.bind_eq fun _ =>
    ((parallel_varBinder _).items _).bind fun _ _ htargets =>
      (parallel_initialValues hg).bind fun _ _ hvalues => (parallel_spanSince hxy).bind
        fun _ _ hspan => parallel_pure (.varDecl _ hspan htargets hvalues)

theorem parallel_typeDecl (n : Nat) :
    (typeDecl n).Parallel N T (typeDecl n) (TypeDecl.Paired N T) :=
  parallel_here.bind fun _ _ hxy => (parallel_expect _).bind_eq fun _ =>
    parallel_ident.bind fun _ _ hname => (parallel_typeWithin n).bind fun _ _ hty =>
      (parallel_spanSince hxy).bind fun _ _ hspan => parallel_pure ⟨hname, hty, hspan⟩

theorem parallel_alternative (hg : g.Parallel N T) :
    (alternative g).Parallel N T (alternative g) (Alternative.Paired N T) := by
  refine (parallel_accept _).bind_eq fun _ => .ite ?_ (parallel_pure .nothing)
  refine parallel_kind.bind_eq fun _ => .ite ?_ ?_
  · exact hg.conditional.bind fun _ _ hnext => parallel_pure (.conditional hnext)
  · exact (parallel_block hg).bind fun _ _ hbody => parallel_pure (.block hbody)

theorem parallel_conditionalStep (hg : g.Parallel N T) :
    (conditionalStep g).Parallel N T (conditionalStep g) (Conditional.Paired N T) :=
  parallel_here.bind fun _ _ hxy => (parallel_expect _).bind_eq fun _ =>
    (hg.operand 0).bind fun _ _ hcond => (parallel_block hg).bind fun _ _ hbody =>
      (parallel_alternative hg).bind fun _ _ hotherwise => (parallel_spanSince hxy).bind
        fun _ _ hspan => parallel_pure (.mk hspan hcond hbody hotherwise)

theorem parallel_returning (hg : g.Parallel N T) :
    (returning g).Parallel N T (returning g) (Stmt.Paired N T) := by
  refine parallel_here.bind fun _ _ hxy => (parallel_expect _).bind_eq fun _ =>
    parallel_kind.bind_eq fun _ => .ite ?_ ?_
  · exact (parallel_spanSince hxy).bind fun _ _ hspan => parallel_pure (.ret hspan .none)
  · exact (hg.operand 0).bind fun _ _ he => (parallel_spanSince hxy).bind fun _ _ hspan =>
      parallel_pure (.ret hspan (.some he))

theorem parallel_assignmentOrExpr (hg : g.Parallel N T) :
    (assignmentOrExpr g).Parallel N T (assignmentOrExpr g) (Stmt.Paired N T) := by
  refine parallel_here.bind fun _ _ hxy => ((parallel_operandStep hg 0).items _).bind
    fun targets targets' htargets => (parallel_accept _).bind_eq fun _ => .ite ?_ ?_
  · exact (parallel_expressions hg).bind fun _ _ hvalues => (parallel_spanSince hxy).bind
      fun _ _ hspan => parallel_pure (.assign hspan htargets hvalues)
  · cases htargets with
    | nil => exact parallel_unexpected _
    | cons he hrest =>
      cases hrest with
      | nil => exact parallel_pure (.expr he)
      | cons _ _ => exact parallel_unexpected _

theorem parallel_statementBody (hg : g.Parallel N T) :
    (statementBody g).Parallel N T (statementBody g) (Stmt.Paired N T) := by
  refine parallel_kind.bind_eq fun kind => ?_
  split
  · exact parallel_importing.map fun _ _ => .importing
  · refine parallel_nextKind.bind_eq fun _ => .ite ?_ ?_
    · exact (parallel_methodDecl hg).bind fun _ _ h => parallel_pure (.method h.1 h.2)
    · exact (parallel_functionDecl hg).map fun _ _ => .function
  · exact parallel_varDecl hg
  · exact parallel_varDecl hg
  · exact (parallel_typeDecl _).map fun _ _ => .typeDecl
  · exact (parallel_conditionalStep hg).map fun _ _ => .conditional
  · exact parallel_returning hg
  · exact (parallel_block hg).map fun _ _ => .block
  · exact parallel_assignmentOrExpr hg

theorem parallel_statementStep (hg : g.Parallel N T) :
    (statementStep g).Parallel N T (statementStep g) (Stmt.Paired N T) :=
  (parallel_statementBody hg).bind fun _ _ hs => (parallel_accept _).bind_eq fun _ =>
    parallel_pure hs

end Parser

/-! ### Programs -/

/-- The grammar of any size reads the same from tokens of the same kinds. -/
theorem Grammar.parallel_within {N T : Span → Span → Prop} [Span.Merging N T] (n : Nat) :
    (Grammar.within n).Parallel N T := by
  induction n with
  | zero =>
    exact ⟨fun _ => Parser.parallel_fail fun _ _ => rfl, Parser.parallel_fail fun _ _ => rfl,
      Parser.parallel_fail fun _ _ => rfl, Parser.parallel_unexpected _⟩
  | succ n ih =>
    exact ⟨Parser.parallel_operandStep ih, Parser.parallel_unaryStep ih,
      Parser.parallel_statementStep ih, Parser.parallel_conditionalStep ih⟩

theorem Parser.parallel_program {N T : Span → Span → Prop} [Span.Merging N T] :
    program.Parallel N T program (Program.Paired N T) :=
  parallel_here.bind fun _ _ _ => parallel_remaining.bind_eq fun n =>
    (parallel_statements (Grammar.parallel_within n).statement _ _).bind fun _ _ hstmts =>
      parallel_here.bind fun _ _ _ => parallel_pure hstmts

/-- Token lists of the same kinds are read alike from their starts. -/
theorem Cursor.alike_ofTokens {N T : Span → Span → Prop} [Span.Merging N T] {ts us : List Token}
    (h : List.Forall₂ (fun t u => t.kind = u.kind ∧ (t.kind ≠ .eof → T t.span u.span)) ts us)
    (heof : N (eofSpan ts) (eofSpan us)) :
    (Cursor.ofTokens ts).Alike N T (Cursor.ofTokens us) := by
  have hrest := rel_takeWhile (p := fun t => decide (t.kind ≠ .eof))
    (q := fun t => decide (t.kind ≠ .eof)) h fun hxy => by rw [hxy.1]
  replace hrest := hrest.imp fun t u htu =>
    (⟨htu.1.1, htu.1.2 (of_decide_eq_true htu.2)⟩ : t.kind = u.kind ∧ T t.span u.span)
  refine ⟨hrest, heof, ?_, rfl⟩
  simp only [Cursor.ofTokens]
  generalize ts.takeWhile (fun t => decide (t.kind ≠ .eof)) = xs,
    us.takeWhile (fun t => decide (t.kind ≠ .eof)) = ys at hrest
  cases hrest with
  | nil => exact heof
  | cons h _ => exact Span.Merging.names _ _ h.2

/-- Token lists of the same kinds are the same program, or fail with the same message. -/
theorem outcomes_parseTokens {N T : Span → Span → Prop} [Span.Merging N T] {ts us : List Token}
    (h : List.Forall₂ (fun t u => t.kind = u.kind ∧ (t.kind ≠ .eof → T t.span u.span)) ts us)
    (heof : N (Cursor.eofSpan ts) (Cursor.eofSpan us)) :
    Outcomes (fun e f => e.message = f.message) (Program.Paired N T) (parseTokens ts)
      (parseTokens us) := by
  have hends := Parser.parallel_program _ _ (Cursor.alike_ofTokens h heof)
  simp only [parseTokens]
  generalize Parser.program (Cursor.ofTokens ts) = r, Parser.program (Cursor.ofTokens us) = s
    at hends
  cases hends with
  | ok h _ => exact .ok h
  | error h => exact .error h

end Sable
