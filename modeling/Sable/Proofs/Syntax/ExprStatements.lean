import Sable.Proofs.Syntax.FirstError
import Sable.Proofs.Syntax.ProlongedGrammar

/-!
# Expressions as statements

A statement is told by its first one or two tokens, and what is not told is an expression or an
assignment. No token that tells a statement can start an expression, but for the word in front of a
function: a function literal at the start of a statement is taken for a declaration. All other
expressions are statements as they stand, with a semicolon behind them.
-/

namespace Sable

namespace Parser

variable {g : Grammar} {c d : Cursor} {e : Expr}

/-! ### How expressions start -/

/-- An expression starts with an atom or with an operator in front of its operand. -/
def StartsExpr (k : TokenKind) : Prop := startsOperand k = true ∨ (unaryOp? k).isSome = true

instance : DecidablePred StartsExpr := fun _ => inferInstanceAs (Decidable (_ ∨ _))

theorem StartsExpr.ne {k k' : TokenKind} (h : StartsExpr k) (h' : ¬ StartsExpr k') : k ≠ k' := by
  rintro rfl
  exact h' h

theorem startsOperand_of_atom (h : atom g c = (.ok e, d)) : startsOperand c.kind = true := by
  rw [atom, look_bind, look_bind] at h
  generalize hk : c.kind = k at h
  split at h
  all_goals first | rfl | cases h

theorem startsExpr_of_unaryStep (h : unaryStep g c = (.ok e, d)) : StartsExpr c.kind := by
  rw [unaryStep, look_bind, look_bind] at h
  cases hop : unaryOp? c.kind with
  | some op => exact .inr (by rw [hop]; rfl)
  | none =>
    rw [hop] at h
    have h : applied g c = (.ok e, d) := h
    rw [applied, look_bind] at h
    obtain ⟨_, _, hatom, -⟩ := bind_eq_ok h
    exact .inl (startsOperand_of_atom hatom)

theorem startsExpr_of_operand {n level : Nat} (h : (Grammar.within n).operand level c = (.ok e, d)) :
    StartsExpr c.kind := by
  cases n with
  | zero => cases h
  | succ n =>
    obtain ⟨_, _, hunary, -⟩ := bind_eq_ok h
    exact startsExpr_of_unaryStep hunary

/-- What tells a statement does not start an expression, unless it is the word of a function. -/
theorem statementBody_of_startsExpr (h : StartsExpr c.kind) (hfn : c.kind ≠ .keyword .fnKw) :
    statementBody g c = assignmentOrExpr g c := by
  rw [statementBody, look_bind]
  generalize c.kind = k at h hfn
  unfold StartsExpr at h
  split
  case h_2 => exact absurd rfl hfn
  case h_9 => rfl
  all_goals exact absurd h (by decide)

/-- A statement that starts with the word of a function is a declaration. -/
theorem statementBody_of_fn (hfn : c.kind = .keyword .fnKw) {s : Stmt}
    (h : statementBody g c = (.ok s, d)) : (∀ e, s ≠ .expr e) := by
  rintro e rfl
  rw [statementBody, look_bind, hfn] at h
  simp only [look_bind] at h
  split at h
  · obtain ⟨_, _, -, hpure⟩ := bind_eq_ok h
    cases hpure
  · obtain ⟨_, _, -, hpure⟩ := bind_eq_ok h
    cases hpure

/-! ### One statement -/

theorem kind_of_rest_eq_cons {t : Token} {ts : List Token} (h : c.rest = t :: ts) :
    c.kind = t.kind := by
  rw [Cursor.kind, Cursor.current, h]
  rfl

theorem accept_of_kind_eq {k : TokenKind} (h : c.kind = k) : accept k c = (.ok true, c.advance) :=
  if_pos h

theorem accept_of_kind_ne {k : TokenKind} (h : c.kind ≠ k) : accept k c = (.ok false, c) := if_neg h

/-- In front of a semicolon, an expression is a statement by itself. -/
theorem assignmentOrExpr_of_semicolon (h : operandStep g 0 c = (.ok e, d))
    (hd : d.kind = .punct .semicolon) : assignmentOrExpr g c = (.ok (.expr e), d) := by
  have hmore : moreItems (operandStep g 0) g.size d = (.ok [], d) := by
    cases g.size with
    | zero => rfl
    | succ n =>
      rw [moreItems, bind_of_ok (accept_of_kind_ne (by rw [hd]; decide))]
      rfl
  have hitems : items g.size (operandStep g 0) c = (.ok [e], d) := by
    rw [items, bind_of_ok h, bind_of_ok hmore]
    rfl
  rw [assignmentOrExpr, look_bind, bind_of_ok hitems,
    bind_of_ok (accept_of_kind_ne (by rw [hd]; decide))]
  rfl

/-- The statements of a program that is one statement with all tokens. -/
theorem program_of_statement {s : Stmt} {n : Nat} (hn : c.rest.length = n + 2)
    (hc : c.kind ≠ .eof) (hsemicolon : c.kind ≠ .punct .semicolon)
    (h : (Grammar.within (n + 2)).statement c = (.ok s, d)) (hd : d.rest = []) :
    (program c).1.map Program.stmts = .ok [s] := by
  have heof : d.kind = .eof := by rw [Cursor.kind, Cursor.current, hd]; rfl
  have hrest : statements (Grammar.within (n + 2)).statement .eof (n + 1) d = (.ok [], d) := by
    rw [statements, look_bind, if_pos (.inr heof)]
    rfl
  have hall : statements (Grammar.within (n + 2)).statement .eof (n + 2) c = (.ok [s], d) := by
    rw [statements, look_bind, if_neg (by simp [hc]), bind_of_ok (accept_of_kind_ne hsemicolon)]
    simp only [Bool.false_eq_true, ↓reduceIte]
    rw [bind_of_ok h, bind_of_ok hrest]
    rfl
  rw [program, look_bind, remaining, look_bind, hn, bind_of_ok hall]
  rfl

/-- The first statement of a program whose first token is neither a semicolon nor the end. -/
theorem statementBody_of_program {s : Stmt} {ss : List Stmt} {n : Nat}
    (hn : c.rest.length = n + 1) (hc : c.kind ≠ .eof) (hsemicolon : c.kind ≠ .punct .semicolon)
    (h : (program c).1.map Program.stmts = .ok (s :: ss)) :
    ∃ d, statementBody (Grammar.within n) c = (.ok s, d) := by
  rcases hprogram : program c with ⟨x | p, d⟩
  · rw [hprogram] at h
    cases h
  rw [hprogram] at h
  rw [program, look_bind, remaining, look_bind, hn] at hprogram
  obtain ⟨stmts, e, hstmts, hpure⟩ := bind_eq_ok hprogram
  obtain rfl : stmts = s :: ss := by
    cases hpure
    exact Except.ok.inj h
  rw [statements, look_bind, if_neg (by simp [hc]), bind_of_ok (accept_of_kind_ne hsemicolon)]
    at hstmts
  simp only [Bool.false_eq_true, ↓reduceIte] at hstmts
  obtain ⟨a, d₁, hstep, hmore⟩ := bind_eq_ok hstmts
  obtain ⟨as, d₂, -, hcons⟩ := bind_eq_ok hmore
  obtain ⟨b, d₃, hbody, haccept⟩ := bind_eq_ok hstep
  obtain ⟨_, _, -, hb⟩ := bind_eq_ok haccept
  cases hcons
  cases hb
  exact ⟨d₃, hbody⟩

end Parser

/-! ### A program of one statement -/

variable {ts : List Token} {s : Token} {e : Expr} {d : Cursor}

theorem Cursor.prolonged_ofTokens {w : List Token} (hts : ∀ t ∈ ts, t.kind ≠ .eof)
    (hw : ∀ t ∈ w, t.kind ≠ .eof) :
    (Cursor.ofTokens ts).Prolonged w false (Cursor.ofTokens (ts ++ w)) := by
  refine .of_rest ?_ rfl
  rw [Cursor.rest_ofTokens hts, Cursor.rest_ofTokens]
  exact List.forall_mem_append.mpr ⟨hts, hw⟩

/--
Tokens that are an expression, with a semicolon behind them, are a program of one statement, which is
that expression. The only exception are those that start with the word of a function, which is read
as the start of a declaration.
-/
theorem parseTokens_expression_iff (hts : ∀ t ∈ ts, t.kind ≠ .eof)
    (hs : s.kind = .punct .semicolon) (h : Parser.expression (Cursor.ofTokens ts) = (.ok e, d))
    (hd : d.rest = []) :
    (parseTokens (ts ++ [s])).map Program.stmts = .ok [.expr e] ↔
      ts.head?.map Token.kind ≠ some (.keyword .fnKw) := by
  have hw : ∀ t ∈ [s], t.kind ≠ .eof := by simp [hs]
  have hrest := Cursor.rest_ofTokens hts
  have hprolonged := Cursor.prolonged_ofTokens hts hw
  have hrest' : (Cursor.ofTokens (ts ++ [s])).rest = ts ++ [s] := by rw [hprolonged.rest, hrest]
  rw [Parser.expression, Parser.remaining, Parser.look_bind, hrest] at h
  obtain ⟨t, us, rfl⟩ : ∃ t us, ts = t :: us := by
    cases ts with
    | nil => cases h
    | cons t us => exact ⟨t, us, rfl⟩
  have hkind : (Cursor.ofTokens (t :: us ++ [s])).kind = t.kind :=
    Parser.kind_of_rest_eq_cons hrest'
  have hstart := Parser.startsExpr_of_operand h
  rw [Parser.kind_of_rest_eq_cons hrest, ← hkind] at hstart
  have heof : (Cursor.ofTokens (t :: us ++ [s])).kind ≠ .eof := hstart.ne (by decide)
  have hsemicolon : (Cursor.ofTokens (t :: us ++ [s])).kind ≠ .punct .semicolon :=
    hstart.ne (by decide)
  have hlength : (Cursor.ofTokens (t :: us ++ [s])).rest.length = us.length + 2 := by
    rw [hrest']
    simp
  rw [parseTokens, List.head?_cons, Option.map_some, ne_eq, Option.some.injEq, ← hkind]
  refine ⟨fun hprogram hfn => ?_, fun hfn => ?_⟩
  · obtain ⟨d', hbody⟩ := Parser.statementBody_of_program hlength heof hsemicolon hprogram
    exact Parser.statementBody_of_fn hfn hbody e rfl
  · have hprolongs : (Grammar.within (us.length + 1)).Prolongs [s] (Grammar.within (us.length + 2)) :=
      Grammar.prolongs_within (by simp)
    have hends : (nextOf [s]).EndsOperand 0 := by
      have hnext : nextOf [s] = .punct .semicolon := hs
      rw [hnext]
      exact TokenKind.endsOperand_of_binaryOp?_eq_none (by decide) rfl 0
    obtain ⟨d', hoperand, hd'⟩ := (hprolongs.operand false 0).goes hprolonged
      (by rw [hrest, Grammar.size_within, List.length_cons]) h fun _ => hends
    have hrestd : d'.rest = [s] := by rw [hd'.rest, hd, List.nil_append]
    have hkindd : d'.kind = .punct .semicolon := (Parser.kind_of_rest_eq_cons hrestd).trans hs
    refine Parser.program_of_statement hlength heof hsemicolon (d := d'.advance) ?_
      (by rw [Cursor.advance, hrestd])
    have hbody : Parser.statementBody (Grammar.within (us.length + 1)) _ = _ :=
      (Parser.statementBody_of_startsExpr hstart hfn).trans
        (Parser.assignmentOrExpr_of_semicolon hoperand hkindd)
    exact (Parser.bind_of_ok hbody).trans (Parser.bind_of_ok (Parser.accept_of_kind_eq hkindd))

/-- The tokens of `a + b`. -/
def sumTokens : List Token :=
  [⟨.ident "a", ⟨0, 1, 0⟩⟩, ⟨.punct .plus, ⟨2, 3, 0⟩⟩, ⟨.ident "b", ⟨4, 5, 0⟩⟩]

/-- The sum `a + b` is a statement. -/
theorem parseTokens_expression_sum :
    (∀ t ∈ sumTokens, t.kind ≠ .eof) ∧ ∃ e d,
      Parser.expression (Cursor.ofTokens sumTokens) = (.ok e, d) ∧ d.rest = [] ∧
        (parseTokens (sumTokens ++ [⟨.punct .semicolon, ⟨5, 6, 0⟩⟩])).map Program.stmts =
          .ok [.expr e] := by
  have heof : ∀ t ∈ sumTokens, t.kind ≠ .eof := by simp [sumTokens]
  exact ⟨heof, _, _, rfl, rfl, (parseTokens_expression_iff heof rfl rfl rfl).mpr (by decide)⟩

/-- The tokens of `fn() {}`. -/
def functionTokens : List Token :=
  [⟨.keyword .fnKw, ⟨0, 2, 0⟩⟩, ⟨.punct .lparen, ⟨2, 3, 0⟩⟩, ⟨.punct .rparen, ⟨3, 4, 0⟩⟩,
    ⟨.punct .lbrace, ⟨5, 6, 0⟩⟩, ⟨.punct .rbrace, ⟨6, 7, 0⟩⟩]

/-- A function literal is an expression, but with a semicolon behind it no program. -/
theorem function_literal_is_no_statement :
    (∀ t ∈ functionTokens, t.kind ≠ .eof) ∧
      (∃ e d, Parser.expression (Cursor.ofTokens functionTokens) = (.ok e, d) ∧ d.rest = []) ∧
      parseTokens (functionTokens ++ [⟨.punct .semicolon, ⟨7, 8, 0⟩⟩]) =
        .error (.expectedIdent ⟨3, 4, 0⟩) :=
  ⟨by simp [functionTokens], ⟨_, _, rfl, rfl⟩, rfl⟩

end Sable
