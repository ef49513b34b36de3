import Sable.Proofs.Syntax.Places
import Sable.Syntax.Cursor
import Sable.Syntax.Grammar

/-!
# Receivers of parsed methods

The grammar reads a name of a builtin type as that type and never as a name of its own. So no
method of a parsed program has a builtin type as its named receiver, however deeply it is
nested, and no method can ever be declared among the members of a builtin type.

The property passes from the parts of the grammar to the whole: a parser behind another one may
rely on what that one yields, and a repetition yields what its items do.
-/

namespace Sable

/-! ### What a parser yields -/

namespace Parser

variable {α β : Type}

/-- Everything that a parser yields has a property. -/
def Yields (p : Parser α) (Q : α → Prop) : Prop :=
  ∀ c a d, p c = (.ok a, d) → Q a

variable {p : Parser α} {f : α → Parser β} {Q : α → Prop} {R : β → Prop}

theorem yields_pure {a : α} (h : Q a) : (pure a : Parser α).Yields Q := by
  intro c a' d he
  obtain ⟨rfl, -⟩ : a = a' ∧ c = d := by simpa [pure, Parser.pure] using he
  exact h

/-- The second parser may rely on what the first one yields. -/
theorem Yields.bind (hp : p.Yields Q) (hf : ∀ a, Q a → (f a).Yields R) : (p >>= f).Yields R := by
  intro c b d he
  simp only [Bind.bind, Parser.bind] at he
  rcases hpc : p c with ⟨e | a, c'⟩
  · simp [hpc] at he
  · rw [hpc] at he
    exact hf a (hp c a c' hpc) c' b d he

/-- A parser whose result does not matter stands in front of another one. -/
theorem yields_then (hf : ∀ a, (f a).Yields R) : (p >>= f).Yields R := by
  have hp : p.Yields fun _ => True := fun _ _ _ _ => trivial
  exact hp.bind fun a _ => hf a

theorem Yields.map {g : α → β} (hp : p.Yields Q) (hg : ∀ a, Q a → R (g a)) :
    (g <$> p).Yields R := hp.bind fun a ha => yields_pure (hg a ha)

theorem yields_fail (e : Span → SyntaxError) : (fail e : Parser α).Yields Q := by
  intro c a d he
  simp [fail] at he

theorem yields_unexpected (e : Expectation) : (unexpected e : Parser α).Yields Q := by
  intro c a d he
  simp [unexpected] at he

theorem Yields.ite {b : Prop} [Decidable b] {q : Parser α} (hp : p.Yields Q) (hq : q.Yields Q) :
    (if b then p else q).Yields Q := by
  split
  · exact hp
  · exact hq

/-! ### Repetitions -/

theorem Yields.moreItems (hp : p.Yields Q) (n : Nat) :
    (moreItems p n).Yields fun as => ∀ a ∈ as, Q a := by
  induction n with
  | zero => exact yields_pure (by simp)
  | succ n ih =>
    refine yields_then fun _ => .ite ?_ (yields_pure (by simp))
    exact hp.bind fun _ ha => ih.bind fun _ has => yields_pure (List.forall_mem_cons.mpr ⟨ha, has⟩)

theorem Yields.items (hp : p.Yields Q) (n : Nat) :
    (items n p).Yields fun as => ∀ a ∈ as, Q a := by
  refine hp.bind fun _ ha => (hp.moreItems n).bind fun _ has => ?_
  exact yields_pure (List.forall_mem_cons.mpr ⟨ha, has⟩)

end Parser

/-! ### Places of what is parsed -/

/-- A type that is written as a name does not name a builtin type. -/
def TypeExpr.NamesNoBuiltin (ty : TypeExpr) : Prop :=
  ∀ name, ty = .named name → Primitive.ofName? name.name = none

/-- A place as the grammar yields it: no receiver is the name of a builtin type. -/
def Place.Parsed : Place → Prop
  | .importing _ => True
  | .receiver p => p.ty.NamesNoBuiltin

/-- A part of a program all of whose places are as the grammar yields them. -/
def Expr.Parsed (e : Expr) : Prop := ∀ p ∈ e.places, p.Parsed

@[inherit_doc Expr.Parsed]
def FunctionDef.Parsed (f : FunctionDef) : Prop := ∀ p ∈ f.places, p.Parsed

@[inherit_doc Expr.Parsed]
def Block.Parsed (b : Block) : Prop := ∀ p ∈ b.places, p.Parsed

@[inherit_doc Expr.Parsed]
def Conditional.Parsed (c : Conditional) : Prop := ∀ p ∈ c.places, p.Parsed

@[inherit_doc Expr.Parsed]
def Alternative.Parsed (a : Alternative) : Prop := ∀ p ∈ a.places, p.Parsed

@[inherit_doc Expr.Parsed]
def Stmt.Parsed (s : Stmt) : Prop := ∀ p ∈ s.places, p.Parsed

theorem Expr.parsed_all {es : List Expr} (h : ∀ e ∈ es, e.Parsed) :
    ∀ p ∈ Expr.placesAll es, p.Parsed := by
  intro p hp
  obtain ⟨e, he, hp⟩ := Expr.mem_placesAll.mp hp
  exact h e he p hp

theorem Stmt.parsed_all {stmts : List Stmt} (h : ∀ s ∈ stmts, s.Parsed) :
    ∀ p ∈ Stmt.placesAll stmts, p.Parsed := by
  intro p hp
  obtain ⟨s, hs, hp⟩ := Stmt.mem_placesAll.mp hp
  exact h s hs p hp

/-- What the parsers for nested constructs yield. -/
structure Grammar.Parsed (g : Grammar) : Prop where
  /-- The expressions between operators. -/
  operand : ∀ level, (g.operand level).Yields Expr.Parsed
  /-- The operands. -/
  unary : g.unary.Yields Expr.Parsed
  /-- The statements. -/
  statement : g.statement.Yields Stmt.Parsed
  /-- The conditions. -/
  conditional : g.conditional.Yields Conditional.Parsed

namespace Parser

/-! ### Types -/

/-- A name of a builtin type stands for that type and not for itself. -/
theorem namesNoBuiltin_typeOfName (name : Ident) : (typeOfName name).NamesNoBuiltin := by
  intro name' h
  unfold typeOfName at h
  cases hp : Primitive.ofName? name.name with
  | some p => simp [hp] at h
  | none =>
    simp only [hp, TypeExpr.named.injEq] at h
    exact h ▸ hp

/-- No type that is read is written as the name of a builtin type. -/
theorem yields_typeWithin (n : Nat) : (typeWithin n).Yields TypeExpr.NamesNoBuiltin := by
  have other : ∀ {ty : TypeExpr}, (∀ name, ty ≠ .named name) → ty.NamesNoBuiltin :=
    fun hty name h => absurd h (hty name)
  cases n with
  | zero => exact yields_fail _
  | succ n =>
    refine yields_then fun start => yields_then fun kind => ?_
    split
    · refine yields_then fun _ => yields_then fun _ => yields_then fun _ => yields_then fun _ => ?_
      exact yields_pure (other (by simp))
    · refine yields_then fun _ => yields_then fun _ => yields_then fun _ => yields_then fun _ => ?_
      exact yields_pure (other (by simp))
    · refine yields_then fun _ => yields_then fun _ => yields_then fun _ => yields_then fun _ =>
        yields_then fun _ => ?_
      exact yields_pure (other (by simp))
    · refine yields_then fun name => yields_then fun member? => ?_
      split
      · exact yields_then fun _ => yields_pure (other (by simp))
      · exact yields_pure (namesNoBuiltin_typeOfName name)
    · exact yields_fail _

theorem yields_param (n : Nat) : (param n).Yields fun p => p.ty.NamesNoBuiltin :=
  yields_then fun _ => yields_then fun _ => yields_then fun _ =>
    (yields_typeWithin n).bind fun _ hty => yields_then fun _ => yields_pure hty

/-! ### Blocks and functions -/

variable {g : Grammar}

theorem yields_statements {stmt : Parser Stmt} (h : stmt.Yields Stmt.Parsed) (close : TokenKind)
    (n : Nat) : (statements stmt close n).Yields fun stmts => ∀ s ∈ stmts, s.Parsed := by
  induction n with
  | zero => exact yields_pure (by simp)
  | succ n ih =>
    refine yields_then fun _ => .ite (yields_pure (by simp)) (yields_then fun _ => .ite ih ?_)
    exact h.bind fun s hs => ih.bind fun ss hss => yields_pure (List.forall_mem_cons.mpr ⟨hs, hss⟩)

theorem yields_block (hg : g.Parsed) : (block g).Yields Block.Parsed :=
  yields_then fun _ => yields_then fun _ => (yields_statements hg.statement _ _).bind fun _ hss =>
    yields_then fun _ => yields_then fun _ => yields_pure (Stmt.parsed_all hss)

theorem yields_functionRest (hg : g.Parsed) (name : Ident) (start : Span) :
    (functionRest g name start).Yields FunctionDef.Parsed :=
  yields_then fun _ => yields_then fun _ => yields_then fun _ => (yields_block hg).bind
    fun _ hb => yields_then fun _ => yields_pure hb

/-! ### Expressions -/

theorem yields_expressions (hg : g.Parsed) :
    (expressions g).Yields fun es => ∀ e ∈ es, e.Parsed := (hg.operand 0).items g.size

theorem yields_expressionsUntil (hg : g.Parsed) (close : TokenKind) :
    (expressionsUntil g close).Yields fun es => ∀ e ∈ es, e.Parsed :=
  yields_then fun _ => .ite (yields_pure (by simp)) <|
    (yields_expressions hg).bind fun _ hes => yields_then fun _ => yields_pure hes

theorem yields_nameExpr (start : Span) : (nameExpr start).Yields Expr.Parsed := by
  refine yields_then fun name => yields_then fun member? => ?_
  split
  · exact yields_then fun _ => yields_pure (by simp [Expr.Parsed, Expr.places])
  · exact yields_pure (by simp [Expr.Parsed, Expr.places])

theorem yields_literal (value : Literal) (start : Span) :
    (literal value start).Yields Expr.Parsed :=
  yields_then fun _ => yields_pure (by simp [Expr.Parsed, Expr.places])

theorem yields_atom (hg : g.Parsed) : (atom g).Yields Expr.Parsed := by
  refine yields_then fun start => yields_then fun kind => ?_
  split
  case h_6 => exact yields_nameExpr start
  case h_7 =>
    exact yields_then fun _ => (hg.operand 0).bind fun _ he => yields_then fun _ => yields_pure he
  case h_8 =>
    exact yields_then fun _ => (yields_expressionsUntil hg _).bind fun _ hes =>
      yields_then fun _ => yields_pure (Expr.parsed_all hes)
  case h_9 =>
    exact yields_then fun _ => yields_then fun _ => (yields_functionRest hg _ _).bind
      fun _ hf => yields_pure hf
  case h_10 => exact yields_fail _
  all_goals exact yields_literal _ start

theorem yields_applications (hg : g.Parsed) (start : Span) (n : Nat) {e : Expr}
    (he : e.Parsed) : (applications g start n e).Yields Expr.Parsed := by
  induction n generalizing e with
  | zero => exact yields_pure he
  | succ n ih =>
    refine yields_then fun kind => ?_
    split
    · refine yields_then fun _ => (yields_expressionsUntil hg _).bind fun args hargs =>
        yields_then fun _ => ih ?_
      simpa only [Expr.Parsed, Expr.places, List.forall_mem_append] using
        ⟨he, Expr.parsed_all hargs⟩
    · exact yields_then fun _ => yields_then fun _ => yields_then fun _ => ih he
    · refine yields_then fun _ => (hg.operand 0).bind fun index hindex =>
        yields_then fun _ => yields_then fun _ => ih ?_
      simpa only [Expr.Parsed, Expr.places, List.forall_mem_append] using ⟨he, hindex⟩
    · exact yields_pure he

theorem yields_applied (hg : g.Parsed) : (applied g).Yields Expr.Parsed :=
  yields_then fun start => (yields_atom hg).bind fun _ he => yields_applications hg start _ he

theorem yields_unaryStep (hg : g.Parsed) : (unaryStep g).Yields Expr.Parsed := by
  refine yields_then fun start => yields_then fun kind => ?_
  split
  · exact yields_then fun _ => hg.unary.bind fun _ he => yields_then fun _ => yields_pure he
  · exact yields_applied hg

theorem yields_operations (hg : g.Parsed) (level n : Nat) {left : Expr} (h : left.Parsed) :
    (operations g level n left).Yields Expr.Parsed := by
  induction n generalizing left with
  | zero => exact yields_pure h
  | succ n ih =>
    refine yields_then fun kind => ?_
    split
    · refine .ite (yields_pure h) (yields_then fun _ => (hg.operand _).bind fun right hright =>
        ih ?_)
      simpa only [Expr.Parsed, Expr.places, List.forall_mem_append] using ⟨h, hright⟩
    · exact yields_pure h

theorem yields_operandStep (hg : g.Parsed) (level : Nat) :
    (operandStep g level).Yields Expr.Parsed :=
  (yields_unaryStep hg).bind fun _ h => yields_operations hg level _ h

/-! ### Statements -/

theorem yields_functionDecl (hg : g.Parsed) : (functionDecl g).Yields FunctionDef.Parsed :=
  yields_then fun _ => yields_then fun _ => yields_then fun _ => yields_functionRest hg _ _

/-- The receiver of a method is read as any other type. -/
theorem yields_methodDecl (hg : g.Parsed) :
    (methodDecl g).Yields fun r => Stmt.Parsed (.method r.1 r.2) := by
  refine yields_then fun _ => yields_then fun _ => yields_then fun _ =>
    (yields_param _).bind fun receiver hr => yields_then fun _ => yields_then fun _ =>
      (yields_functionRest hg _ _).bind fun f hf => yields_pure ?_
  simpa only [Stmt.Parsed, Stmt.places, List.forall_mem_cons] using ⟨hr, hf⟩

theorem yields_varDecl (hg : g.Parsed) : (varDecl g).Yields Stmt.Parsed := by
  have hvalues : (initialValues g).Yields fun es => ∀ e ∈ es, e.Parsed :=
    yields_then fun _ => .ite (yields_expressions hg) <|
      yields_then fun _ => .ite (yields_expressions hg) (yields_pure (by simp))
  exact yields_then fun _ => yields_then fun _ => yields_then fun _ => yields_then fun _ =>
    hvalues.bind fun _ hes => yields_then fun _ => yields_pure (Expr.parsed_all hes)

theorem yields_alternative (hg : g.Parsed) : (alternative g).Yields Alternative.Parsed :=
  yields_then fun _ => .ite
    (yields_then fun _ => .ite (hg.conditional.bind fun _ hc => yields_pure hc)
      ((yields_block hg).bind fun _ hb => yields_pure hb))
    (yields_pure (by simp [Alternative.Parsed, Alternative.places]))

theorem yields_conditionalStep (hg : g.Parsed) :
    (conditionalStep g).Yields Conditional.Parsed := by
  refine yields_then fun _ => yields_then fun _ => (hg.operand 0).bind fun cond hcond =>
    (yields_block hg).bind fun body hbody => (yields_alternative hg).bind fun a ha =>
      yields_then fun _ => yields_pure ?_
  simpa only [Conditional.Parsed, Conditional.places, List.forall_mem_append] using
    ⟨⟨hcond, hbody⟩, ha⟩

theorem yields_returning (hg : g.Parsed) : (returning g).Yields Stmt.Parsed :=
  yields_then fun _ => yields_then fun _ => yields_then fun _ => .ite
    (yields_then fun _ => yields_pure (by simp [Stmt.Parsed, Stmt.places]))
    ((hg.operand 0).bind fun _ he => yields_then fun _ => yields_pure he)

theorem yields_assignmentOrExpr (hg : g.Parsed) :
    (assignmentOrExpr g).Yields Stmt.Parsed := by
  refine yields_then fun _ => ((yields_operandStep hg 0).items _).bind fun targets ht =>
    yields_then fun _ => .ite ((yields_expressions hg).bind fun values hv =>
      yields_then fun _ => yields_pure ?_) ?_
  · simpa only [Stmt.Parsed, Stmt.places, List.forall_mem_append] using
      ⟨Expr.parsed_all ht, Expr.parsed_all hv⟩
  · split
    · exact yields_pure (ht _ (List.mem_singleton_self _))
    · exact yields_unexpected _

theorem yields_statementBody (hg : g.Parsed) : (statementBody g).Yields Stmt.Parsed := by
  refine yields_then fun kind => ?_
  split
  · have himport : importing.Yields fun i => Stmt.Parsed (.importing i) :=
      fun _ _ _ _ => by simp [Stmt.Parsed, Stmt.places, Place.Parsed]
    exact himport.map fun _ h => h
  · exact yields_then fun _ => .ite ((yields_methodDecl hg).bind fun _ h => yields_pure h)
      ((yields_functionDecl hg).map fun _ h => h)
  · exact yields_varDecl hg
  · exact yields_varDecl hg
  · have htype : (typeDecl g.size).Yields fun d => Stmt.Parsed (.typeDecl d) :=
      fun _ _ _ _ => by simp [Stmt.Parsed, Stmt.places]
    exact htype.map fun _ h => h
  · exact (yields_conditionalStep hg).map fun _ h => h
  · exact yields_returning hg
  · exact (yields_block hg).map fun _ h => h
  · exact yields_assignmentOrExpr hg

theorem yields_statementStep (hg : g.Parsed) : (statementStep g).Yields Stmt.Parsed :=
  (yields_statementBody hg).bind fun _ hs => yields_then fun _ => yields_pure hs

end Parser

/-! ### Programs -/

theorem Grammar.parsed_within (n : Nat) : (Grammar.within n).Parsed := by
  induction n with
  | zero =>
    exact ⟨fun _ => Parser.yields_fail _, Parser.yields_fail _, Parser.yields_fail _,
      Parser.yields_unexpected _⟩
  | succ n ih =>
    exact ⟨Parser.yields_operandStep ih, Parser.yields_unaryStep ih,
      Parser.yields_statementStep ih, Parser.yields_conditionalStep ih⟩

/-- No receiver in a parsed program is the name of a builtin type. -/
theorem parsed_of_parse {text : String} {file : Nat} {program : Program}
    (h : parse text file = .ok program) : ∀ p ∈ program.places, p.Parsed := by
  have hprogram : Parser.program.Yields fun p => ∀ q ∈ p.places, q.Parsed :=
    Parser.yields_then fun _ => Parser.yields_then fun n =>
      (Parser.yields_statements (Grammar.parsed_within n).statement _ _).bind fun _ hss =>
        Parser.yields_then fun _ => Parser.yields_pure (Stmt.parsed_all hss)
  cases ht : tokenize text file with
  | error e => simp [parse, ht, Except.bind] at h
  | ok tokens =>
    have hp : (Parser.program (Cursor.ofTokens tokens)).1 = .ok program := by
      simpa [parse, ht, Except.bind, parseTokens] using h
    exact hprogram _ _ _ (Prod.ext hp rfl)

end Sable
