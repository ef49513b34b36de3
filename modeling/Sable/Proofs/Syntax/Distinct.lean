import Mathlib.Data.List.Nodup
import Mathlib.Data.List.Perm.Subperm
import Sable.Proofs.Syntax.Binders
import Sable.Proofs.Token.Spans
import Sable.Syntax.Grammar

/-!
# No name is declared twice

A parser gives every name that a program declares the span of a token of its own: the name of a
function literal stands at the word that opens it, and every other name is a token itself. The tokens
of a text stand one behind the other, so no two names of a parsed text stand in the same place.
-/

namespace Sable

/-- Where a declared name stands. -/
def Binder.span (b : Binder) : Span := b.name.span

namespace Parser

variable {α β : Type}

/--
What a parser yields, started at a cursor, holds spans of tokens that the parser has read, each of them
once, and some given spans besides.
-/
def DrawsAt (c : Cursor) (xs : List Span) (p : Parser α) (f : α → List Span) : Prop :=
  ∀ a d, p c = (.ok a, d) →
    ∃ ts, c.rest = ts ++ d.rest ∧ (f a).Subperm (xs ++ ts.map Token.span)

/-- The same of a parser wherever it is started. -/
def Draws (xs : List Span) (p : Parser α) (f : α → List Span) : Prop := ∀ c, p.DrawsAt c xs f

variable {p : Parser α} {q : α → Parser β} {xs ys : List Span} {f : α → List Span}
  {g : β → List Span}

/-! ### Rules -/

theorem draws_pure {a : α} (h : (f a).Subperm xs) : (pure a : Parser α).Draws xs f := by
  intro c b d he
  obtain ⟨rfl, rfl⟩ : a = b ∧ c = d := by simpa [pure, Parser.pure] using he
  exact ⟨[], rfl, by simpa using h⟩

/-- What is put together from drawn spans in order holds just these. -/
theorem draws_eq {a : α} (h : f a = xs) : (pure a : Parser α).Draws xs f :=
  draws_pure (h ▸ List.Subperm.refl _)

/-- The second parser goes on from the spans that the first one has drawn. -/
theorem DrawsAt.bind {c : Cursor} (hp : p.DrawsAt c xs f) (hq : ∀ a, (q a).Draws (f a) g) :
    (p >>= q).DrawsAt c xs g := by
  intro b e he
  simp only [Bind.bind, Parser.bind] at he
  rcases hpc : p c with ⟨x | a, d⟩
  · simp [hpc] at he
  · rw [hpc] at he
    obtain ⟨ts, hts, hf⟩ := hp a d hpc
    obtain ⟨us, hus, hg⟩ := hq a d b e he
    refine ⟨ts ++ us, by rw [hts, hus, List.append_assoc], ?_⟩
    rw [List.map_append, ← List.append_assoc]
    exact hg.trans (hf.append (List.Subperm.refl _))

theorem Draws.bind (hp : p.Draws xs f) (hq : ∀ a, (q a).Draws (f a) g) : (p >>= q).Draws xs g :=
  fun c => (hp c).bind hq

/-- Spans that are there already stay in front. -/
theorem Draws.frame (hp : p.Draws xs f) (ys : List Span) :
    p.Draws (ys ++ xs) fun a => ys ++ f a := by
  intro c a d he
  obtain ⟨ts, hts, hf⟩ := hp c a d he
  exact ⟨ts, hts, List.append_assoc .. ▸ (List.Subperm.refl ys).append hf⟩

/-- Spans are drawn behind those that are there already. -/
theorem Draws.after (hp : p.Draws [] f) : p.Draws xs fun a => xs ++ f a := by
  have h := hp.frame xs
  rwa [List.append_nil] at h

/-- The spans that are drawn may be left out. -/
theorem Draws.quiet (hp : p.Draws xs f) : p.Draws [] fun _ => [] := by
  intro c a d he
  obtain ⟨ts, hts, -⟩ := hp c a d he
  exact ⟨ts, hts, List.nil_subperm⟩

/-- A parser that draws no spans stands in front of another one. -/
theorem Draws.then (hp : p.Draws [] fun _ => []) (hq : ∀ a, (q a).Draws xs g) :
    (p >>= q).Draws xs g := hp.after.bind fun a => by rw [List.append_nil]; exact hq a

theorem Draws.ite {b : Prop} [Decidable b] {p' : Parser α} (hp : p.Draws xs f)
    (hp' : p'.Draws xs f) : (if b then p else p').Draws xs f := by
  split
  · exact hp
  · exact hp'

theorem Draws.map {h : α → β} (hp : p.Draws xs f) (hg : ∀ a, g (h a) = f a) :
    (h <$> p).Draws xs g := hp.bind fun a => draws_eq (hg a)

theorem draws_fail (e : Span → SyntaxError) : (fail e : Parser α).Draws xs f := by
  intro c a d he
  simp [fail] at he

theorem draws_unexpected (e : Expectation) : (unexpected e : Parser α).Draws xs f := by
  intro c a d he
  simp [unexpected] at he

theorem draws_look (h : Cursor → α) : (look h).Draws [] fun _ => [] := by
  intro c a d he
  obtain ⟨-, rfl⟩ : h c = a ∧ c = d := by simpa [look] using he
  exact ⟨[], rfl, List.nil_subperm⟩

private theorem Cursor.exists_rest_eq (c : Cursor) : ∃ ts, c.rest = ts ++ c.advance.rest := by
  unfold Cursor.advance
  split
  · exact ⟨[], rfl⟩
  · next t rest hrest => exact ⟨[t], hrest⟩

theorem draws_skip : skip.Draws [] fun _ => [] := by
  intro c a d he
  obtain rfl : c.advance = d := by simpa [skip] using he
  obtain ⟨ts, hts⟩ := Cursor.exists_rest_eq c
  exact ⟨ts, hts, List.nil_subperm⟩

theorem draws_expect (k : TokenKind) : (expect k).Draws [] fun _ => [] := by
  intro c a d he
  unfold expect at he
  split at he
  · exact draws_skip c a d he
  · exact (draws_unexpected _ : (unexpected _).Draws [] fun _ => []) c a d he

theorem draws_accept (k : TokenKind) : (accept k).Draws [] fun _ => [] := by
  intro c a d he
  unfold accept at he
  split at he
  · exact draws_skip c () d (by simpa [skip] using (Prod.mk.inj he).2)
  · obtain ⟨-, rfl⟩ := Prod.mk.inj he
    exact ⟨[], rfl, List.nil_subperm⟩

theorem draws_spanSince (start : Span) : (spanSince start).Draws [] fun _ => [] := draws_look _

/-- The span of the next token is drawn when it is read, unless the tokens are at their end. -/
theorem drawsAt_skip {c : Cursor} (h : c.kind ≠ .eof) : skip.DrawsAt c [] fun _ => [c.here] := by
  intro a d he
  obtain rfl : c.advance = d := by simpa [skip] using he
  unfold Cursor.kind at h
  unfold Cursor.advance Cursor.here
  cases hrest : c.rest with
  | nil => simp [Cursor.current, hrest] at h
  | cons t rest => exact ⟨[t], rfl, by simp [Cursor.current, hrest]⟩

theorem draws_ident : ident.Draws [] fun name => [name.span] := by
  intro c a d he
  unfold ident at he
  split at he
  · next name hkind =>
    obtain ⟨rfl, rfl⟩ : (⟨name, c.here⟩ : Ident) = a ∧ c.advance = d := by simpa using he
    exact drawsAt_skip (by simp [hkind]) () _ rfl
  · simp [fail] at he

/-- A parser may be told where it stands and what comes next. -/
theorem draws_here {r : Span → TokenKind → Parser α}
    (h : ∀ c : Cursor, (r c.here c.kind).DrawsAt c xs f) :
    (look Cursor.here >>= fun start => look Cursor.kind >>= r start).Draws xs f := h

theorem Draws.behind (hp : p.Draws [] f) (mark : TokenKind) :
    (behind mark p).Draws [] fun _ => [] :=
  (draws_accept mark).then fun _ => .ite (hp.quiet.then fun _ => draws_eq rfl) (draws_eq rfl)

/-! ### Repetitions -/

theorem Draws.moreItems (hp : p.Draws [] f) (n : Nat) :
    (moreItems p n).Draws [] fun as => as.flatMap f := by
  induction n with
  | zero => exact draws_eq rfl
  | succ n ih =>
    refine (draws_accept _).then fun _ => .ite ?_ (draws_eq rfl)
    exact hp.bind fun a => ih.after.bind fun as => draws_eq (by simp)

theorem Draws.items (hp : p.Draws [] f) (n : Nat) :
    (items n p).Draws [] fun as => as.flatMap f :=
  hp.bind fun a => (hp.moreItems n).after.bind fun as => draws_eq (by simp)

theorem Draws.itemsUntil (hp : p.Draws [] f) (close : TokenKind) (n : Nat) :
    (itemsUntil n close p).Draws [] fun as => as.flatMap f := by
  have hbefore : (itemsBefore close p n).Draws [] fun as => as.flatMap f := by
    induction n with
    | zero => exact draws_eq rfl
    | succ n ih =>
      refine (draws_look _).then fun _ => .ite (draws_eq rfl) ?_
      refine hp.bind fun a => (draws_accept _).then fun _ => .ite ?_ (draws_eq (by simp))
      exact ih.after.bind fun as => draws_eq (by simp)
  exact hbefore.bind fun as => (draws_expect close).then fun _ => draws_eq rfl

/-! ### Types -/

/-- The fields that a written type states itself. -/
private def fieldSpans : TypeExpr → List Span
  | .struct fields _ => fields.map fun field => field.name.span
  | _ => []

private theorem draws_fieldDecl {nested : Parser TypeExpr} (h : nested.Draws [] fieldSpans) :
    (fieldDecl nested).Draws [] fun field => [field.name.span] :=
  (draws_look _).then fun _ => (draws_accept _).then fun _ => draws_ident.bind fun _ =>
    (draws_expect _).then fun _ => h.quiet.then fun _ => (draws_spanSince _).then fun _ =>
      draws_eq rfl

private theorem draws_namedType (start : Span) : (namedType start).Draws [] fieldSpans := by
  refine draws_ident.quiet.then fun name => (draws_ident.behind _).then fun member? => ?_
  split
  · exact (draws_spanSince _).then fun _ => draws_eq rfl
  · refine draws_eq ?_
    unfold typeOfName
    split <;> rfl

private theorem draws_typeWithin (n : Nat) : (typeWithin n).Draws [] fieldSpans := by
  induction n with
  | zero => exact draws_fail _
  | succ n ih =>
    refine (draws_look _).then fun start => (draws_look _).then fun kind => ?_
    split
    · exact draws_skip.then fun _ => (draws_expect _).then fun _ => ih.quiet.then fun _ =>
        (draws_spanSince _).then fun _ => draws_eq rfl
    · exact draws_skip.then fun _ => (draws_expect _).then fun _ =>
        ((draws_fieldDecl ih).itemsUntil _ _).bind fun fields => (draws_spanSince _).then fun _ =>
          draws_eq (by simp [fieldSpans, ← List.map_eq_flatMap])
    · exact draws_skip.then fun _ => (draws_expect _).then fun _ =>
        (ih.itemsUntil _ _).quiet.then fun _ => (ih.behind _).then fun _ =>
          (draws_spanSince _).then fun _ => draws_eq rfl
    · exact draws_namedType start
    · exact draws_fail _

theorem draws_param (n : Nat) : (param n).Draws [] fun p => [p.name.span] :=
  (draws_look _).then fun _ => draws_ident.bind fun _ => (draws_expect _).then fun _ =>
    (draws_typeWithin n).quiet.then fun _ => (draws_spanSince _).then fun _ => draws_eq rfl

end Parser

/-! ### The grammar -/

/-- Where the names stand that some binders declare. -/
def Binder.spans (bs : List Binder) : List Span := bs.map Binder.span

namespace Binder

@[simp] theorem spans_nil : spans [] = [] := rfl

@[simp] theorem spans_append (bs cs : List Binder) : spans (bs ++ cs) = spans bs ++ spans cs :=
  List.map_append

@[simp] theorem spans_cons_inner (name : Ident) (bs : List Binder) :
    spans (.inner name :: bs) = name.span :: spans bs := rfl

@[simp] theorem spans_cons_statement (stmt : Stmt) (name : Ident) (bs : List Binder) :
    spans (.statement stmt name :: bs) = name.span :: spans bs := rfl

@[simp] theorem spans_map_inner {α : Type} (f : α → Ident) (as : List α) :
    spans (as.map fun a => .inner (f a)) = as.map fun a => (f a).span := by
  simp [spans, span, name]

end Binder

/-- The parsers for nested constructs draw the names that these declare. -/
structure Grammar.Draws (g : Grammar) : Prop where
  /-- The expressions between operators. -/
  operand : ∀ level, (g.operand level).Draws [] fun e => Binder.spans e.binders
  /-- The operands. -/
  unary : g.unary.Draws [] fun e => Binder.spans e.binders
  /-- The statements. -/
  statement : g.statement.Draws [] fun s => Binder.spans s.binders
  /-- The conditions. -/
  conditional : g.conditional.Draws [] fun c => Binder.spans c.binders

theorem FunctionDef.binders_some (receiver : Param) :
    ∀ f : FunctionDef, f.binders (some receiver) = .inner receiver.name :: f.binders none
  | .mk _ _ _ _ _ => rfl

namespace Parser

variable {g : Grammar} {xs : List Span}

/-! ### Blocks and functions -/

private theorem draws_statements {stmt : Parser Stmt}
    (h : stmt.Draws [] fun s => Binder.spans s.binders) (close : TokenKind) (n : Nat) :
    (statements stmt close n).Draws [] fun stmts => Binder.spans (Stmt.bindersAll stmts) := by
  induction n with
  | zero => exact draws_eq rfl
  | succ n ih =>
    refine (draws_look _).then fun _ => .ite (draws_eq rfl) ?_
    refine (draws_accept _).then fun _ => .ite ih ?_
    exact h.bind fun s => ih.after.bind fun ss => draws_eq (by simp [Stmt.bindersAll])

theorem draws_block (hg : g.Draws) : (block g).Draws [] fun b => Binder.spans b.binders :=
  (draws_look _).then fun _ => (draws_expect _).then fun _ =>
    (draws_statements hg.statement _ _).bind fun _ => (draws_expect _).then fun _ =>
      (draws_spanSince _).then fun _ => draws_eq rfl

/-- The name of a function has been drawn before the rest of it is read. -/
theorem draws_functionRest (hg : g.Draws) (name : Ident) (start : Span) :
    (functionRest g name start).Draws [name.span] fun f =>
      f.name.span :: Binder.spans (f.binders none) :=
  (draws_expect _).then fun _ => ((draws_param _).itemsUntil _ _).after.bind fun params =>
    ((draws_typeWithin _).behind _).then fun _ => (draws_block hg).after.bind fun body =>
      (draws_spanSince _).then fun _ => draws_eq (by
        simp [FunctionDef.binders, FunctionDef.name, ← List.map_eq_flatMap])

/-! ### Expressions -/

private theorem spans_bindersAll (es : List Expr) :
    Binder.spans (Expr.bindersAll es) = es.flatMap fun e => Binder.spans e.binders := by
  induction es with
  | nil => rfl
  | cons e es ih => rw [Expr.bindersAll, Binder.spans_append, ih, List.flatMap_cons]

theorem draws_expressions (hg : g.Draws) :
    (expressions g).Draws [] fun es => Binder.spans (Expr.bindersAll es) := by
  simp only [spans_bindersAll]
  exact (hg.operand 0).items g.size

theorem draws_expressionsUntil (hg : g.Draws) (close : TokenKind) :
    (expressionsUntil g close).Draws [] fun es => Binder.spans (Expr.bindersAll es) :=
  (draws_accept _).then fun _ => .ite (draws_eq rfl) <|
    (draws_expressions hg).bind fun _ => (draws_expect _).then fun _ => draws_eq rfl

theorem draws_literal (value : Literal) (start : Span) :
    (literal value start).Draws [] fun e => Binder.spans e.binders :=
  draws_skip.then fun _ => draws_eq rfl

theorem draws_nameExpr (start : Span) :
    (nameExpr start).Draws [] fun e => Binder.spans e.binders := by
  refine draws_ident.quiet.then fun name => (draws_ident.behind _).then fun member? => ?_
  split
  · exact (draws_spanSince _).then fun _ => draws_eq rfl
  · exact draws_eq rfl

private theorem draws_nextLiteral : nextLiteral.Draws [] fun _ => [] := by
  intro c n d he
  obtain ⟨-, rfl⟩ := Prod.mk.inj he
  exact ⟨[], rfl, List.nil_subperm⟩

theorem draws_atom (hg : g.Draws) : (atom g).Draws [] fun e => Binder.spans e.binders := by
  refine draws_here fun c => ?_
  split
  case h_6 => exact draws_nameExpr _ c
  case h_7 =>
    refine draws_skip.then (fun _ => ?_) c
    exact (hg.operand 0).bind fun _ => (draws_expect _).then fun _ => draws_eq rfl
  case h_8 =>
    refine draws_skip.then (fun _ => ?_) c
    exact (draws_expressionsUntil hg _).bind fun _ => (draws_spanSince _).then fun _ => draws_eq rfl
  case h_9 hkind =>
    -- The name of a function literal stands at the word that opens it.
    exact (drawsAt_skip (by simp [hkind])).bind fun _ => draws_nextLiteral.then fun n =>
      (draws_functionRest hg ⟨literalName n, c.here⟩ c.here).bind fun f => draws_eq rfl
  case h_10 => exact draws_fail _ c
  all_goals exact draws_literal _ _ c

private theorem draws_applications (hg : g.Draws) (start : Span) (n : Nat) (e : Expr) :
    (applications g start n e).Draws (Binder.spans e.binders) fun e => Binder.spans e.binders := by
  induction n generalizing e with
  | zero => exact draws_eq rfl
  | succ n ih =>
    refine (draws_look _).then fun kind => ?_
    split
    · exact draws_skip.then fun _ => (draws_expressionsUntil hg _).after.bind fun args =>
        (draws_spanSince _).then fun span => Binder.spans_append .. ▸ ih (.call e args span)
    · exact draws_skip.then fun _ => draws_ident.quiet.then fun field =>
        (draws_spanSince _).then fun span => ih (.field e field span)
    · exact draws_skip.then fun _ => (hg.operand 0).after.bind fun index =>
        (draws_expect _).then fun _ => (draws_spanSince _).then fun span =>
          Binder.spans_append .. ▸ ih (.index e index span)
    · exact draws_eq rfl

theorem draws_applied (hg : g.Draws) : (applied g).Draws [] fun e => Binder.spans e.binders :=
  (draws_look _).then fun _ => (draws_atom hg).bind fun e => draws_applications hg _ _ e

theorem draws_unaryStep (hg : g.Draws) :
    (unaryStep g).Draws [] fun e => Binder.spans e.binders := by
  refine (draws_look _).then fun start => (draws_look _).then fun kind => ?_
  split
  · exact draws_skip.then fun _ => hg.unary.bind fun _ => (draws_spanSince _).then fun _ =>
      draws_eq rfl
  · exact draws_applied hg

private theorem draws_operations (hg : g.Draws) (level n : Nat) (left : Expr) :
    (operations g level n left).Draws (Binder.spans left.binders) fun e =>
      Binder.spans e.binders := by
  induction n generalizing left with
  | zero => exact draws_eq rfl
  | succ n ih =>
    refine (draws_look _).then fun kind => ?_
    split
    · refine .ite (draws_eq rfl) (draws_skip.then fun _ => (hg.operand _).after.bind fun right => ?_)
      exact Binder.spans_append .. ▸ ih (.binary _ left right _)
    · exact draws_eq rfl

theorem draws_operandStep (hg : g.Draws) (level : Nat) :
    (operandStep g level).Draws [] fun e => Binder.spans e.binders :=
  (draws_unaryStep hg).bind fun left => draws_operations hg level _ left

/-! ### Statements -/

private theorem draws_importing : importing.Draws [] fun _ => [] := by
  refine (draws_look _).then fun start => (draws_expect _).then fun _ =>
    (draws_look _).then fun kind => ?_
  split
  · exact draws_skip.then fun _ => (draws_ident.behind _).then fun _ =>
      (draws_spanSince _).then fun _ => draws_eq rfl
  · exact draws_unexpected _

private theorem draws_functionDecl (hg : g.Draws) :
    (functionDecl g).Draws [] fun f => Binder.spans (Stmt.function f).binders :=
  (draws_look _).then fun _ => (draws_expect _).then fun _ => draws_ident.bind fun name =>
    draws_functionRest hg name _

/-- The receiver of a method stands in front of its name. -/
private theorem draws_methodDecl (hg : g.Draws) :
    (methodDecl g).Draws [] fun r => Binder.spans (Stmt.method r.1 r.2).binders := by
  refine (draws_look _).then fun start => (draws_expect _).then fun _ => (draws_expect _).then
    fun _ => (draws_param _).bind fun receiver => (draws_expect _).then fun _ =>
      draws_ident.after.bind fun name =>
        ((draws_functionRest hg name start).frame [receiver.name.span]).bind fun f =>
          draws_pure (List.Perm.subperm ?_)
  rw [Stmt.binders, FunctionDef.binders_some]
  exact List.Perm.swap ..

private theorem draws_varBinder (n : Nat) : (varBinder n).Draws [] fun v => [v.name.span] :=
  draws_ident.bind fun _ => ((draws_typeWithin n).behind _).then fun _ => draws_eq rfl

private theorem draws_initialValues (hg : g.Draws) :
    (initialValues g).Draws [] fun es => Binder.spans (Expr.bindersAll es) :=
  (draws_accept _).then fun _ => .ite (draws_expressions hg) <|
    (draws_accept _).then fun _ => .ite (draws_expressions hg) (draws_eq rfl)

private theorem draws_varDecl (hg : g.Draws) :
    (varDecl g).Draws [] fun s => Binder.spans s.binders :=
  (draws_look _).then fun _ => (draws_look _).then fun _ => draws_skip.then fun _ =>
    ((draws_varBinder _).items _).bind fun targets => (draws_initialValues hg).after.bind fun _ =>
      (draws_spanSince _).then fun _ => draws_eq (by simp [Stmt.binders, ← List.map_eq_flatMap])

private theorem draws_typeDecl (n : Nat) :
    (typeDecl n).Draws [] fun d => Binder.spans (Stmt.typeDecl d).binders := by
  refine (draws_look _).then fun _ => (draws_expect _).then fun _ => draws_ident.bind fun name =>
    (draws_typeWithin n).after.bind fun ty => (draws_spanSince _).then fun _ => draws_eq ?_
  cases ty <;> simp [Stmt.binders, TypeDecl.fieldNames, fieldSpans, Binder.spans, Binder.span,
    Binder.name]

private theorem draws_alternative (hg : g.Draws) :
    (alternative g).Draws [] fun a => Binder.spans a.binders :=
  (draws_accept _).then fun _ => .ite
    ((draws_look _).then fun _ => .ite (hg.conditional.bind fun _ => draws_eq rfl)
      ((draws_block hg).bind fun _ => draws_eq rfl))
    (draws_eq rfl)

theorem draws_conditionalStep (hg : g.Draws) :
    (conditionalStep g).Draws [] fun c => Binder.spans c.binders :=
  (draws_look _).then fun _ => (draws_expect _).then fun _ => (hg.operand 0).bind fun cond =>
    (draws_block hg).after.bind fun body => (draws_alternative hg).after.bind fun a =>
      (draws_spanSince _).then fun _ => draws_eq (by simp [Conditional.binders])

private theorem draws_returning (hg : g.Draws) :
    (returning g).Draws [] fun s => Binder.spans s.binders :=
  (draws_look _).then fun _ => (draws_expect _).then fun _ => (draws_look _).then fun _ => .ite
    ((draws_spanSince _).then fun _ => draws_eq rfl)
    ((hg.operand 0).bind fun _ => (draws_spanSince _).then fun _ => draws_eq rfl)

private theorem draws_assignmentOrExpr (hg : g.Draws) :
    (assignmentOrExpr g).Draws [] fun s => Binder.spans s.binders := by
  have htargets : (items g.size (operandStep g 0)).Draws [] fun es =>
      Binder.spans (Expr.bindersAll es) := by
    simp only [spans_bindersAll]
    exact (draws_operandStep hg 0).items g.size
  refine (draws_look _).then fun _ => htargets.bind fun targets => (draws_accept _).then
    fun _ => .ite ?_ ?_
  · exact (draws_expressions hg).after.bind fun values => (draws_spanSince _).then fun _ =>
      draws_eq (by simp [Stmt.binders])
  · split
    · exact draws_eq (by simp [Stmt.binders, Expr.bindersAll])
    · exact draws_unexpected _

theorem draws_statementStep (hg : g.Draws) :
    (statementStep g).Draws [] fun s => Binder.spans s.binders := by
  have hbody : (statementBody g).Draws [] fun s => Binder.spans s.binders := by
    refine (draws_look _).then fun kind => ?_
    split
    · exact draws_importing.map fun _ => rfl
    · exact (draws_look _).then fun _ => .ite ((draws_methodDecl hg).bind fun _ => draws_eq rfl)
        ((draws_functionDecl hg).map fun _ => rfl)
    · exact draws_varDecl hg
    · exact draws_varDecl hg
    · exact (draws_typeDecl _).map fun _ => rfl
    · exact (draws_conditionalStep hg).map fun _ => rfl
    · exact draws_returning hg
    · exact (draws_block hg).map fun _ => rfl
    · exact draws_assignmentOrExpr hg
  exact hbody.bind fun _ => (draws_accept _).then fun _ => draws_eq rfl

end Parser

/-! ### Programs -/

theorem Grammar.draws_within (n : Nat) : (Grammar.within n).Draws := by
  induction n with
  | zero =>
    exact ⟨fun _ => Parser.draws_fail _, Parser.draws_fail _, Parser.draws_fail _,
      Parser.draws_unexpected _⟩
  | succ n ih =>
    exact ⟨Parser.draws_operandStep ih, Parser.draws_unaryStep ih, Parser.draws_statementStep ih,
      Parser.draws_conditionalStep ih⟩

theorem Parser.draws_program : program.Draws [] fun p => Binder.spans p.binders :=
  (draws_look _).then fun _ => (draws_look _).then fun n =>
    (draws_statements (Grammar.draws_within n).statement _ _).bind fun _ =>
      (draws_look _).then fun _ => draws_eq rfl

/-- No two names that a parsed text declares stand in the same place, and all stand in its file. -/
theorem spans_of_parse {text : String} {n : Nat} {p : Program} (h : parse text n = .ok p) :
    (Binder.spans p.binders).Nodup ∧
      ∀ x ∈ Binder.spans p.binders, x.file = n ∧ x.start < x.stop := by
  rw [parse] at h
  cases ht : tokenize text n with
  | error e => simp [ht, Except.bind] at h
  | ok tokens =>
    have hordered := ordered_tokenize ht
    rw [ht] at h
    have hresult : Parser.program (Cursor.ofTokens tokens) =
        (.ok p, (Parser.program (Cursor.ofTokens tokens)).2) := Prod.ext h rfl
    obtain ⟨ts, hts, hsub⟩ := Parser.draws_program _ _ _ hresult
    have hfront : ts.Sublist (Cursor.ofTokens tokens).rest := hts ▸ List.sublist_append_left ..
    have hread : ts.Sublist tokens := hfront.trans (List.takeWhile_sublist _)
    have heof : ∀ t ∈ ts, t.kind ≠ .eof := fun t ht => by
      simpa using List.all_eq_true.mp List.all_takeWhile t (hfront.subset ht)
    have hincreasing := (hordered.increasing.sublist hread).imp
      (S := fun t u => t.span ≠ u.span) fun hlt heq => by simp [heq] at hlt
    have hnodup : (ts.map Token.span).Nodup := List.pairwise_map.mpr hincreasing
    refine ⟨?_, fun x hx => ?_⟩
    · obtain ⟨ys, hperm, hsublist⟩ := hsub
      exact hperm.nodup (hnodup.sublist hsublist)
    · obtain ⟨t, htmem, rfl⟩ := List.mem_map.mp (hsub.subset hx)
      have hmem := hread.subset htmem
      exact ⟨hordered.file t hmem, hordered.nonempty t hmem (heof t htmem)⟩

/-- A parsed text declares no name twice. -/
theorem nodup_names_of_parse {text : String} {n : Nat} {p : Program} (h : parse text n = .ok p) :
    p.names.Nodup := by
  have hspans : (p.names.map Ident.span).Nodup := by
    rw [Program.names, List.map_map]
    exact (spans_of_parse h).1
  exact List.Nodup.of_map _ hspans

end Sable
