import Mathlib.Data.List.Nodup
import Sable.Proofs.Syntax.RereadExprs

/-!
# Numbers of function literals

A parser counts the function literals that it meets, and names each of them by its number. Nothing
else changes the counter, so the names of what has been read are those of an interval of numbers, in
the order of the source. Behind a whole text the interval starts at zero, and since different numbers
make different names, no two literals of a text have the same name.
-/

namespace Sable

namespace Parser

variable {α β : Type}

/--
What a parser yields has some given names and, behind them, those of the numbers that the parser has
used up.
-/
def Numbers (xs : List String) (p : Parser α) (f : α → List String) : Prop :=
  ∀ c a d, p c = (.ok a, d) →
    ∃ ys, f a = xs ++ ys ∧ Numbered c.literals ys ∧ d.literals = c.literals + ys.length

/-- A parser that uses no number up. -/
def Uncounted (p : Parser α) : Prop := p.Numbers [] fun _ => []

variable {p : Parser α} {q : α → Parser β} {xs : List String} {f : α → List String}
  {g : β → List String}

/-! ### Rules -/

/-- What is put together from named parts in order has just their names. -/
theorem numbers_eq {a : α} (h : f a = xs) : (pure a : Parser α).Numbers xs f := by
  intro c b d he
  obtain ⟨rfl, rfl⟩ : a = b ∧ c = d := by simpa [pure, Parser.pure] using he
  exact ⟨[], by rw [h, List.append_nil], rfl, rfl⟩

/-- A parser that leaves the counter alone uses no number up. -/
theorem uncounted_of_literals (h : ∀ c a d, p c = (.ok a, d) → d.literals = c.literals) :
    p.Uncounted := fun c a d he => ⟨[], rfl, rfl, h c a d he⟩

theorem Uncounted.literals (hp : p.Uncounted) {c d : Cursor} {a : α} (he : p c = (.ok a, d)) :
    d.literals = c.literals := by
  obtain ⟨ys, hys, -, hd⟩ := hp c a d he
  obtain rfl : ys = [] := hys.symm
  exact hd

/-- The second parser goes on from the number that the first one stops at. -/
theorem Numbers.bind (hp : p.Numbers xs f) (hq : ∀ a, (q a).Numbers (f a) g) :
    (p >>= q).Numbers xs g := by
  intro c b e he
  simp only [Bind.bind, Parser.bind] at he
  rcases hpc : p c with ⟨x | a, d⟩
  · simp [hpc] at he
  · rw [hpc] at he
    obtain ⟨ys, hys, hfirst, hd⟩ := hp c a d hpc
    obtain ⟨zs, hzs, hsecond, he⟩ := hq a d b e he
    refine ⟨ys ++ zs, ?_, ?_, ?_⟩
    · rw [hzs, hys, List.append_assoc]
    · rw [hd] at hsecond
      exact numbered_append.mpr ⟨hfirst, hsecond⟩
    · rw [he, hd, List.length_append, Nat.add_assoc]

/-- Names that are there already stay in front. -/
theorem Numbers.after (hp : p.Numbers [] f) : p.Numbers xs fun a => xs ++ f a := by
  intro c a d he
  obtain ⟨ys, hys, hnumbered, hd⟩ := hp c a d he
  exact ⟨ys, congrArg (xs ++ ·) hys, hnumbered, hd⟩

/-- A parser that uses no number up stands in front of another one. -/
theorem Uncounted.then (hp : p.Uncounted) (hq : ∀ a, (q a).Numbers xs g) :
    (p >>= q).Numbers xs g := by
  have hafter : p.Numbers xs fun _ => xs ++ [] := Numbers.after hp
  exact hafter.bind fun a => by rw [List.append_nil]; exact hq a

theorem Numbers.ite {b : Prop} [Decidable b] {p' : Parser α} (hp : p.Numbers xs f)
    (hp' : p'.Numbers xs f) : (if b then p else p').Numbers xs f := by
  split
  · exact hp
  · exact hp'

theorem Numbers.map {h : α → β} (hp : p.Numbers xs f) (hg : ∀ a, g (h a) = f a) :
    (h <$> p).Numbers xs g := hp.bind fun a => numbers_eq (hg a)

theorem numbers_fail (e : Span → SyntaxError) : (fail e : Parser α).Numbers xs f := by
  intro c a d he
  simp [fail] at he

theorem numbers_unexpected (e : Expectation) : (unexpected e : Parser α).Numbers xs f := by
  intro c a d he
  simp [unexpected] at he

theorem uncounted_look (h : Cursor → α) : (look h).Uncounted := by
  refine uncounted_of_literals fun c a d he => ?_
  obtain ⟨-, rfl⟩ : h c = a ∧ c = d := by simpa [look] using he
  rfl

theorem Cursor.literals_advance (c : Cursor) : c.advance.literals = c.literals := by
  unfold Cursor.advance
  split <;> rfl

theorem uncounted_skip : skip.Uncounted := by
  refine uncounted_of_literals fun c a d he => ?_
  obtain rfl : c.advance = d := by simpa [skip] using he
  exact Cursor.literals_advance c

theorem uncounted_expect (k : TokenKind) : (expect k).Uncounted := by
  intro c a d he
  unfold expect at he
  split at he
  · exact uncounted_skip c a d he
  · exact (numbers_unexpected _ : (unexpected _).Numbers [] fun _ => []) c a d he

theorem uncounted_accept (k : TokenKind) : (accept k).Uncounted := by
  refine uncounted_of_literals fun c a d he => ?_
  unfold accept at he
  split at he
  · obtain ⟨-, rfl⟩ := Prod.mk.inj he
    exact Cursor.literals_advance c
  · obtain ⟨-, rfl⟩ := Prod.mk.inj he
    rfl

theorem uncounted_spanSince (start : Span) : (spanSince start).Uncounted := uncounted_look _

theorem uncounted_ident : ident.Uncounted := by
  refine uncounted_of_literals fun c a d he => ?_
  unfold ident at he
  split at he
  · obtain ⟨-, rfl⟩ := Prod.mk.inj he
    exact Cursor.literals_advance c
  · simp [fail] at he

/-- The number that is used up is the one that the counter shows. -/
theorem numbers_nextLiteral : nextLiteral.Numbers [] fun n => [literalName n] := by
  intro c n d he
  obtain ⟨hn, rfl⟩ := Prod.mk.inj he
  obtain rfl := Except.ok.inj hn
  exact ⟨[literalName c.literals], rfl, numbered_singleton.mpr rfl, rfl⟩

theorem Uncounted.behind (hp : p.Uncounted) (mark : TokenKind) : (behind mark p).Uncounted :=
  (uncounted_accept mark).then fun _ => .ite (hp.then fun _ => numbers_eq rfl) (numbers_eq rfl)

/-! ### Repetitions -/

theorem Numbers.moreItems (hp : p.Numbers [] f) (n : Nat) :
    (moreItems p n).Numbers [] fun as => as.flatMap f := by
  induction n with
  | zero => exact numbers_eq rfl
  | succ n ih =>
    refine (uncounted_accept _).then fun _ => .ite ?_ (numbers_eq rfl)
    exact hp.bind fun a => ih.after.bind fun as => numbers_eq (by simp)

theorem Numbers.items (hp : p.Numbers [] f) (n : Nat) :
    (items n p).Numbers [] fun as => as.flatMap f :=
  hp.bind fun a => (hp.moreItems n).after.bind fun as => numbers_eq (by simp)

theorem Uncounted.items (hp : p.Uncounted) (n : Nat) : (items n p).Uncounted := by
  have hitems := Numbers.items hp n
  simp only [List.flatMap_eq_nil_iff.mpr fun _ _ => rfl] at hitems
  exact hitems

theorem Uncounted.itemsUntil (hp : p.Uncounted) (close : TokenKind) (n : Nat) :
    (itemsUntil n close p).Uncounted := by
  have hbefore : (itemsBefore close p n).Uncounted := by
    induction n with
    | zero => exact numbers_eq rfl
    | succ n ih =>
      refine (uncounted_look _).then fun _ => .ite (numbers_eq rfl) ?_
      refine hp.then fun a => (uncounted_accept _).then fun _ => .ite ?_ (numbers_eq rfl)
      exact ih.then fun as => numbers_eq rfl
  exact hbefore.then fun as => (uncounted_expect close).then fun _ => numbers_eq rfl

/-! ### Types -/

private theorem uncounted_fieldDecl {nested : Parser TypeExpr} (h : nested.Uncounted) :
    (fieldDecl nested).Uncounted :=
  (uncounted_look _).then fun _ => (uncounted_accept _).then fun _ => uncounted_ident.then fun _ =>
    (uncounted_expect _).then fun _ => h.then fun _ => (uncounted_spanSince _).then fun _ =>
      numbers_eq rfl

private theorem uncounted_namedType (start : Span) : (namedType start).Uncounted := by
  refine uncounted_ident.then fun name => (uncounted_ident.behind _).then fun member? => ?_
  split
  · exact (uncounted_spanSince _).then fun _ => numbers_eq rfl
  · exact numbers_eq rfl

theorem uncounted_typeWithin (n : Nat) : (typeWithin n).Uncounted := by
  induction n with
  | zero => exact numbers_fail _
  | succ n ih =>
    refine (uncounted_look _).then fun start => (uncounted_look _).then fun kind => ?_
    split
    · exact uncounted_skip.then fun _ => (uncounted_expect _).then fun _ => ih.then fun _ =>
        (uncounted_spanSince _).then fun _ => numbers_eq rfl
    · exact uncounted_skip.then fun _ => (uncounted_expect _).then fun _ =>
        ((uncounted_fieldDecl ih).itemsUntil _ _).then fun _ => (uncounted_spanSince _).then fun _ =>
          numbers_eq rfl
    · exact uncounted_skip.then fun _ => (uncounted_expect _).then fun _ =>
        (ih.itemsUntil _ _).then fun _ => (ih.behind _).then fun _ =>
          (uncounted_spanSince _).then fun _ => numbers_eq rfl
    · exact uncounted_namedType start
    · exact numbers_fail _

theorem uncounted_param (n : Nat) : (param n).Uncounted :=
  (uncounted_look _).then fun _ => uncounted_ident.then fun _ => (uncounted_expect _).then fun _ =>
    (uncounted_typeWithin n).then fun _ => (uncounted_spanSince _).then fun _ => numbers_eq rfl

end Parser

/-! ### The grammar -/

/-- The parsers for nested constructs number the function literals in these. -/
structure Grammar.Numbers (g : Grammar) : Prop where
  /-- The expressions between operators. -/
  operand : ∀ level, (g.operand level).Numbers [] Expr.literalNames
  /-- The operands. -/
  unary : g.unary.Numbers [] Expr.literalNames
  /-- The statements. -/
  statement : g.statement.Numbers [] Stmt.literalNames
  /-- The conditions. -/
  conditional : g.conditional.Numbers [] Conditional.literalNames

namespace Parser

variable {g : Grammar} {xs : List String}

/-! ### Blocks and functions -/

private theorem numbers_statements {stmt : Parser Stmt} (h : stmt.Numbers [] Stmt.literalNames)
    (close : TokenKind) (n : Nat) :
    (statements stmt close n).Numbers [] Stmt.literalNamesAll := by
  induction n with
  | zero => exact numbers_eq rfl
  | succ n ih =>
    refine (uncounted_look _).then fun _ => .ite (numbers_eq rfl) ?_
    refine (uncounted_accept _).then fun _ => .ite ih ?_
    exact h.bind fun s => ih.after.bind fun ss => numbers_eq rfl

theorem numbers_block (hg : g.Numbers) : (block g).Numbers [] Block.literalNames :=
  (uncounted_look _).then fun _ => (uncounted_expect _).then fun _ =>
    (numbers_statements hg.statement _ _).bind fun _ => (uncounted_expect _).then fun _ =>
      (uncounted_spanSince _).then fun _ => numbers_eq rfl

/-- What the body of a function holds is numbered behind what is there already. -/
theorem numbers_functionRest (hg : g.Numbers) (name : Ident) (start : Span)
    {f : FunctionDef → List String}
    (hf : ∀ params ret body span, f (.mk name params ret body span) = xs ++ body.literalNames) :
    (functionRest g name start).Numbers xs f :=
  (uncounted_expect _).then fun _ => ((uncounted_param _).itemsUntil _ _).then fun _ =>
    ((uncounted_typeWithin _).behind _).then fun _ => (numbers_block hg).after.bind fun _ =>
      (uncounted_spanSince _).then fun _ => numbers_eq (hf ..)

/-! ### Expressions -/

theorem numbers_expressions (hg : g.Numbers) :
    (expressions g).Numbers [] Expr.literalNamesAll := by
  have hitems := (hg.operand 0).items g.size
  simp only [← Expr.literalNamesAll_eq_flatMap] at hitems
  exact hitems

theorem numbers_expressionsUntil (hg : g.Numbers) (close : TokenKind) :
    (expressionsUntil g close).Numbers [] Expr.literalNamesAll :=
  (uncounted_accept _).then fun _ => .ite (numbers_eq rfl) <|
    (numbers_expressions hg).bind fun _ => (uncounted_expect _).then fun _ => numbers_eq rfl

theorem numbers_literal (value : Literal) (start : Span) :
    (literal value start).Numbers [] Expr.literalNames :=
  uncounted_skip.then fun _ => numbers_eq rfl

theorem numbers_nameExpr (start : Span) : (nameExpr start).Numbers [] Expr.literalNames := by
  refine uncounted_ident.then fun name => (uncounted_ident.behind _).then fun member? => ?_
  split
  · exact (uncounted_spanSince _).then fun _ => numbers_eq rfl
  · exact numbers_eq rfl

theorem numbers_atom (hg : g.Numbers) : (atom g).Numbers [] Expr.literalNames := by
  refine (uncounted_look _).then fun start => (uncounted_look _).then fun kind => ?_
  split
  case h_6 => exact numbers_nameExpr _
  case h_7 =>
    exact uncounted_skip.then fun _ => (hg.operand 0).bind fun _ => (uncounted_expect _).then
      fun _ => numbers_eq rfl
  case h_8 =>
    exact uncounted_skip.then fun _ => (numbers_expressionsUntil hg _).bind fun _ =>
      (uncounted_spanSince _).then fun _ => numbers_eq rfl
  case h_9 =>
    -- The literal has its number before those in its body have theirs.
    exact uncounted_skip.then fun _ => numbers_nextLiteral.bind fun n =>
      (numbers_functionRest hg _ _ (f := fun f => f.name.name :: f.literalNames)
        fun _ _ _ _ => rfl).bind fun f => numbers_eq rfl
  case h_10 => exact numbers_fail _
  all_goals exact numbers_literal _ _

private theorem numbers_applications (hg : g.Numbers) (start : Span) (n : Nat) (e : Expr) :
    (applications g start n e).Numbers e.literalNames Expr.literalNames := by
  induction n generalizing e with
  | zero => exact numbers_eq rfl
  | succ n ih =>
    refine (uncounted_look _).then fun kind => ?_
    split
    · exact uncounted_skip.then fun _ => (numbers_expressionsUntil hg _).after.bind fun args =>
        (uncounted_spanSince _).then fun span => ih (.call e args span)
    · exact uncounted_skip.then fun _ => uncounted_ident.then fun field =>
        (uncounted_spanSince _).then fun span => ih (.field e field span)
    · exact uncounted_skip.then fun _ => (hg.operand 0).after.bind fun index =>
        (uncounted_expect _).then fun _ => (uncounted_spanSince _).then fun span =>
          ih (.index e index span)
    · exact numbers_eq rfl

theorem numbers_unaryStep (hg : g.Numbers) : (unaryStep g).Numbers [] Expr.literalNames := by
  refine (uncounted_look _).then fun start => (uncounted_look _).then fun kind => ?_
  split
  · exact uncounted_skip.then fun _ => hg.unary.bind fun _ => (uncounted_spanSince _).then fun _ =>
      numbers_eq rfl
  · exact (uncounted_look _).then fun _ => (numbers_atom hg).bind fun e =>
      numbers_applications hg _ _ e

private theorem numbers_operations (hg : g.Numbers) (level n : Nat) (left : Expr) :
    (operations g level n left).Numbers left.literalNames Expr.literalNames := by
  induction n generalizing left with
  | zero => exact numbers_eq rfl
  | succ n ih =>
    refine (uncounted_look _).then fun kind => ?_
    split
    · exact .ite (numbers_eq rfl) <| uncounted_skip.then fun _ => (hg.operand _).after.bind
        fun right => ih (.binary _ left right _)
    · exact numbers_eq rfl

theorem numbers_operandStep (hg : g.Numbers) (level : Nat) :
    (operandStep g level).Numbers [] Expr.literalNames :=
  (numbers_unaryStep hg).bind fun left => numbers_operations hg level _ left

/-! ### Statements -/

private theorem uncounted_importing : importing.Uncounted := by
  refine (uncounted_look _).then fun start => (uncounted_expect _).then fun _ =>
    (uncounted_look _).then fun kind => ?_
  split
  · exact uncounted_skip.then fun _ => (uncounted_ident.behind _).then fun _ =>
      (uncounted_spanSince _).then fun _ => numbers_eq rfl
  · exact numbers_unexpected _

private theorem numbers_functionDecl (hg : g.Numbers) :
    (functionDecl g).Numbers [] FunctionDef.literalNames :=
  (uncounted_look _).then fun _ => (uncounted_expect _).then fun _ => uncounted_ident.then fun name =>
    numbers_functionRest hg name _ fun _ _ _ _ => rfl

private theorem numbers_methodDecl (hg : g.Numbers) :
    (methodDecl g).Numbers [] fun r => r.2.literalNames :=
  (uncounted_look _).then fun _ => (uncounted_expect _).then fun _ => (uncounted_expect _).then
    fun _ => (uncounted_param _).then fun _ => (uncounted_expect _).then fun _ =>
      uncounted_ident.then fun name => (numbers_functionRest hg name _ (f := FunctionDef.literalNames)
        fun _ _ _ _ => rfl).bind fun _ => numbers_eq rfl

private theorem uncounted_varBinder (n : Nat) : (varBinder n).Uncounted :=
  uncounted_ident.then fun _ => ((uncounted_typeWithin n).behind _).then fun _ => numbers_eq rfl

private theorem numbers_initialValues (hg : g.Numbers) :
    (initialValues g).Numbers [] Expr.literalNamesAll :=
  (uncounted_accept _).then fun _ => .ite (numbers_expressions hg) <|
    (uncounted_accept _).then fun _ => .ite (numbers_expressions hg) (numbers_eq rfl)

private theorem numbers_varDecl (hg : g.Numbers) : (varDecl g).Numbers [] Stmt.literalNames :=
  (uncounted_look _).then fun _ => (uncounted_look _).then fun _ => uncounted_skip.then fun _ =>
    ((uncounted_varBinder _).items _).then fun _ => (numbers_initialValues hg).bind fun _ =>
      (uncounted_spanSince _).then fun _ => numbers_eq rfl

private theorem uncounted_typeDecl (n : Nat) : (typeDecl n).Uncounted :=
  (uncounted_look _).then fun _ => (uncounted_expect _).then fun _ => uncounted_ident.then fun _ =>
    (uncounted_typeWithin n).then fun _ => (uncounted_spanSince _).then fun _ => numbers_eq rfl

private theorem numbers_alternative (hg : g.Numbers) :
    (alternative g).Numbers [] Alternative.literalNames :=
  (uncounted_accept _).then fun _ => .ite
    ((uncounted_look _).then fun _ => .ite (hg.conditional.bind fun _ => numbers_eq rfl)
      ((numbers_block hg).bind fun _ => numbers_eq rfl))
    (numbers_eq rfl)

theorem numbers_conditionalStep (hg : g.Numbers) :
    (conditionalStep g).Numbers [] Conditional.literalNames :=
  (uncounted_look _).then fun _ => (uncounted_expect _).then fun _ => (hg.operand 0).bind fun cond =>
    (numbers_block hg).after.bind fun body => (numbers_alternative hg).after.bind fun a =>
      (uncounted_spanSince _).then fun _ =>
        numbers_eq (by simp [Conditional.literalNames, List.append_assoc])

private theorem numbers_returning (hg : g.Numbers) : (returning g).Numbers [] Stmt.literalNames :=
  (uncounted_look _).then fun _ => (uncounted_expect _).then fun _ => (uncounted_look _).then
    fun _ => .ite ((uncounted_spanSince _).then fun _ => numbers_eq rfl)
      ((hg.operand 0).bind fun _ => (uncounted_spanSince _).then fun _ => numbers_eq rfl)

private theorem numbers_assignmentOrExpr (hg : g.Numbers) :
    (assignmentOrExpr g).Numbers [] Stmt.literalNames := by
  have htargets : (items g.size (operandStep g 0)).Numbers [] Expr.literalNamesAll := by
    have hitems := (numbers_operandStep hg 0).items g.size
    simp only [← Expr.literalNamesAll_eq_flatMap] at hitems
    exact hitems
  refine (uncounted_look _).then fun _ => htargets.bind fun targets => (uncounted_accept _).then
    fun _ => .ite ?_ ?_
  · exact (numbers_expressions hg).after.bind fun values => (uncounted_spanSince _).then fun _ =>
      numbers_eq rfl
  · split
    · exact numbers_eq (by simp [Stmt.literalNames, Expr.literalNamesAll])
    · exact numbers_unexpected _

theorem numbers_statementStep (hg : g.Numbers) :
    (statementStep g).Numbers [] Stmt.literalNames := by
  have hbody : (statementBody g).Numbers [] Stmt.literalNames := by
    refine (uncounted_look _).then fun kind => ?_
    split
    · exact Numbers.map uncounted_importing fun _ => rfl
    · exact (uncounted_look _).then fun _ => .ite
        ((numbers_methodDecl hg).bind fun _ => numbers_eq rfl)
        ((numbers_functionDecl hg).map fun _ => rfl)
    · exact numbers_varDecl hg
    · exact numbers_varDecl hg
    · exact Numbers.map (uncounted_typeDecl _) fun _ => rfl
    · exact (numbers_conditionalStep hg).map fun _ => rfl
    · exact numbers_returning hg
    · exact (numbers_block hg).map fun _ => rfl
    · exact numbers_assignmentOrExpr hg
  exact hbody.bind fun _ => (uncounted_accept _).then fun _ => numbers_eq rfl

end Parser

/-! ### Programs -/

theorem Grammar.numbers_within (n : Nat) : (Grammar.within n).Numbers := by
  induction n with
  | zero =>
    exact ⟨fun _ => Parser.numbers_fail _, Parser.numbers_fail _, Parser.numbers_fail _,
      Parser.numbers_unexpected _⟩
  | succ n ih =>
    exact ⟨Parser.numbers_operandStep ih, Parser.numbers_unaryStep ih,
      Parser.numbers_statementStep ih, Parser.numbers_conditionalStep ih⟩

/-- The names of the function literals in a program. -/
def Program.literalNames (p : Program) : List String := Stmt.literalNamesAll p.stmts

theorem Parser.numbers_program : program.Numbers [] Program.literalNames :=
  (uncounted_look _).then fun _ => (uncounted_look _).then fun n =>
    (numbers_statements (Grammar.numbers_within n).statement _ _).bind fun _ =>
      (uncounted_look _).then fun _ => numbers_eq rfl

/-- The function literals of a parsed text are numbered from zero on, as they are written. -/
theorem numbered_of_parse {text : String} {n : Nat} {p : Program} (h : parse text n = .ok p) :
    Numbered 0 p.literalNames := by
  rw [parse] at h
  cases ht : tokenize text n with
  | error e => simp [ht, Except.bind] at h
  | ok tokens =>
    rw [ht] at h
    have hresult : Parser.program (Cursor.ofTokens tokens) =
        (.ok p, (Parser.program (Cursor.ofTokens tokens)).2) := Prod.ext h rfl
    obtain ⟨ys, hys, hnumbered, -⟩ := Parser.numbers_program _ _ _ hresult
    exact hys ▸ hnumbered

/-! ### Different numbers -/

/-- Different numbers make different names, since a number can be read back from its digits. -/
theorem Parser.literalName_injective : Function.Injective literalName := by
  intro i j h
  have hdigits : toString i = toString j := (String.append_right_inj _).mp h
  rw [Nat.toString_eq_ofList_toDigits, Nat.toString_eq_ofList_toDigits] at hdigits
  have hread := congrArg (Nat.ofDigitChars 10 · 0) (String.ofList_injective hdigits)
  simpa only [Nat.ofDigitChars_ten_toDigits] using hread

/-- No name is given twice. -/
theorem Numbered.nodup {i : Nat} {names : List String} (h : Numbered i names) : names.Nodup := by
  rw [h]
  exact (List.nodup_range' ..).map Parser.literalName_injective

/-- No two function literals of a parsed text have the same name. -/
theorem nodup_literalNames_of_parse {text : String} {n : Nat} {p : Program}
    (h : parse text n = .ok p) : p.literalNames.Nodup := (numbered_of_parse h).nodup

end Sable
