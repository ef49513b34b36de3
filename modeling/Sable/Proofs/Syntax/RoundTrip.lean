import Sable.Proofs.Syntax.RereadExprs

/-!
# Parsing undoes writing

The parser reads every wording of a well-formed program back: it yields a program that differs
from the written one in spans only. Statements are told apart by their first token, and only a
method and a function declaration by their second one; a semicolon behind each statement ends it,
whatever it is.
-/

namespace Sable

open Wording

namespace Parser

section

variable {n : Nat} {F : TokenKind → Prop} {g : Grammar} (hg : g.ReadsBack)

include hg

/-! ### Conditions -/

omit hg in
theorem starts_blockWording (b : Block) : b.wording.Starts (· = .punct .lbrace) := by
  cases b
  rw [Block.wording]
  exact Wording.Starts.cons (starts_token rfl)

omit hg in
theorem starts_conditionalWording (c : Conditional) : c.wording.Starts (· = .keyword .ifKw) := by
  cases c
  rw [Conditional.wording]
  exact Wording.Starts.cons (starts_token rfl)

theorem reads_alternative {a : Alternative} (ha : a.WellFormed) :
    (alternative g).Reads g.size a.wording a.literalNames (· ≠ .keyword .elseKw)
      fun b => b.Alike Anywhere a := by
  cases ha with
  | nothing =>
    rw [Alternative.wording, Alternative.literalNames]
    exact Reads.accept_else (leads_nil fun _ hk => hk) (reads_pure .nothing)
  | @block body hbody =>
    rw [Alternative.wording, Alternative.literalNames]
    refine (Reads.accept_then ?_).of_succ
    refine reads_kind (starts_blockWording body).cons.leads fun k hk => ?_
    rw [if_neg (by simp [hk])]
    exact ((reads_block hg hbody).of_succ).bind_last
      (F := fun _ => True) (fun _ _ => trivial) fun b hb => reads_pure (.block hb)
  | @conditional next hnext =>
    rw [Alternative.wording, Alternative.literalNames]
    refine (Reads.accept_then ?_).of_succ
    refine reads_kind (starts_conditionalWording next).cons.leads fun k hk => ?_
    rw [if_pos hk]
    exact (hg.conditional next hnext).bind_last (fun _ hk => hk) fun b hb =>
      reads_pure (.conditional hb)

theorem reads_conditionalStep {c : Conditional} (hc : c.WellFormed) :
    (conditionalStep g).Reads (g.size + 1) c.wording c.literalNames (· ≠ .keyword .elseKw)
      fun d => d.Alike Anywhere c := by
  obtain @⟨cond, body, otherwise, span, hcond, hbody, hotherwise⟩ := hc
  rw [Conditional.wording, Conditional.literalNames]
  refine reads_look fun start => Reads.expect_then ?_
  have hlead : (sequence [body.wording, otherwise.wording]).Leads EndsExpr
      (· ≠ .keyword .elseKw) := by
    refine ((starts_blockWording body).cons.mono fun k hk => ?_).leads
    rw [hk]
    decide
  refine (hg.operand 0 cond hcond).bind hlead fun cond' hcond' => ?_
  refine ((reads_block hg hbody).of_succ).bind (F := fun _ => True)
    leads_true fun body' hbody' => ?_
  refine (reads_alternative hg hotherwise).bind_last (fun _ hk => hk) fun other' hother' => ?_
  exact reads_spanSince fun span' => reads_pure (.mk span' span hcond' hbody' hother')

/-! ### Statements -/

omit hg in
theorem reads_importing (i : Import) :
    importing.Reads n i.wording [] (· = .punct .semicolon) fun j => j.Alike Anywhere i := by
  refine reads_look fun start => Reads.expect_next (reads_kind_token ?_)
  refine (Reads.skip_then ?_).of_succ
  refine (Reads.behind (F := fun _ => True) (fun x _ => reads_ident x) ?_).bind_last
    (fun _ hk => hk) fun x? hx? => ?_
  · rintro k rfl
    exact ⟨trivial, by simp⟩
  · exact reads_spanSince fun span => reads_pure ⟨rfl, hx?⟩

theorem reads_functionDecl {f : FunctionDef} (hf : f.WellFormed) :
    (functionDecl g).Reads (g.size + 1) (sequence [keyword .fnKw, Wording.ident f.name, f.wording])
      f.literalNames F fun a => a.Alike Anywhere f := by
  refine reads_look fun start => Reads.expect_then (Reads.ident_next fun y hy => ?_)
  exact reads_sequence_singleton.mpr (reads_functionRest hg hf hy start)

theorem reads_methodDecl {receiver : Param} {f : FunctionDef} (hreceiver : receiver.ty.WellFormed)
    (hf : f.WellFormed) :
    (methodDecl g).Reads (g.size + 1) (sequence [keyword .fnKw, mark .lparen, receiver.wording,
      mark .rparen, Wording.ident f.name, f.wording]) f.literalNames F
      fun a => a.1.Alike Anywhere receiver ∧ a.2.Alike Anywhere f := by
  refine reads_look fun start => Reads.expect_then (Reads.expect_next ?_)
  refine (reads_param hreceiver).bind (leads_token (by simp [EndsType]))
    fun receiver' hreceiver' => ?_
  refine Reads.expect_next (Reads.ident_next fun y hy => ?_)
  refine (reads_functionRest hg hf hy start).bind_last (F := fun _ => True) (fun _ _ => trivial)
    fun f' hf' => ?_
  exact reads_pure ⟨hreceiver', hf'⟩

omit hg in
theorem reads_varBinder {v : VarBinder} (hv : ∀ t ∈ v.ty?, t.WellFormed) :
    (varBinder n).Reads n v.wording [] (fun k => EndsType k ∧ k ≠ .punct .colon)
      fun w => w.Alike Anywhere v := by
  rw [VarBinder.wording, TypeExpr.wording?_eq_map]
  refine Reads.ident_next fun y hy => ?_
  refine (Reads.behind (fun t ht => readsTypes_typeWithin n t (hv t ht)) fun k hk => hk).bind_last
    (fun _ hk => hk) fun ty? hty? => ?_
  exact reads_pure ⟨hy, hty?⟩

theorem reads_initialValues {values : List Expr} (hvalues : ∀ e ∈ values, e.WellFormed) :
    (initialValues g).Reads g.size (if values.isEmpty then nothing
      else sequence [(mark .eq).either (mark .colonEq), separated (Expr.wordings values)])
      (Expr.literalNamesAll values) (· = .punct .semicolon)
      fun as => List.Forall₂ (Expr.Alike Anywhere) as values := by
  cases values with
  | nil =>
    refine Reads.accept_else (leads_nil ?_) (Reads.accept_else (leads_nil ?_) (reads_pure .nil))
    all_goals
      rintro k rfl
      simp
  | cons e es =>
    have hsemicolon : ∀ k, k = .punct .semicolon → EndsExpr k ∧ k ≠ .punct .comma := by
      rintro k rfl
      decide
    have hread := (reads_expressions hg hvalues (by simp)).followed hsemicolon
    refine reads_either_cons ?_ ?_
    · exact (Reads.accept_then (reads_sequence_singleton.mpr hread)).of_succ
    · refine Reads.accept_else (leads_token (by simp)) ?_
      exact (Reads.accept_then (reads_sequence_singleton.mpr hread)).of_succ

omit hg in
theorem reads_typeDecl {d : TypeDecl} (hd : d.ty.WellFormed) :
    (typeDecl n).Reads (n + 1) d.wording [] (· = .punct .semicolon)
      fun e => e.Alike Anywhere d := by
  refine reads_look fun start => Reads.expect_then (Reads.ident_next fun y hy => ?_)
  refine (readsTypes_typeWithin n _ hd).bind_last ?_ fun ty hty => ?_
  · rintro k rfl
    simp [EndsType]
  · exact reads_spanSince fun span => reads_pure ⟨hy, hty⟩

theorem reads_varDecl (isConst : Bool) {targets : List VarBinder} {values : List Expr} (span : Span)
    (hne : targets ≠ []) (htargets : ∀ v ∈ targets, ∀ t ∈ v.ty?, t.WellFormed)
    (hvalues : ∀ e ∈ values, e.WellFormed) :
    (varDecl g).Reads (g.size + 1) (Stmt.varDecl isConst targets values span).wording
      (Stmt.varDecl isConst targets values span).literalNames (· = .punct .semicolon)
      fun a => a.Alike Anywhere (.varDecl isConst targets values span) := by
  rw [Stmt.wording, Stmt.literalNames]
  have htokens : ∀ k, k = .punct .semicolon ∨ k = .punct .eq ∨ k = .punct .colonEq →
      (EndsType k ∧ k ≠ .punct .colon) ∧ k ≠ .punct .comma := by
    rintro k (rfl | rfl | rfl) <;> simp [EndsType]
  have hitems : (items g.size (varBinder g.size)).Reads g.size
      (separated (targets.map VarBinder.wording)) (targets.flatMap fun _ => []) _ _ :=
    Reads.items (fun v hv => reads_varBinder (htargets v hv))
      (fun v _ => (starts_token (F := fun _ => True) trivial).cons) (by simp [EndsType]) htokens hne
      (Nat.le_refl g.size) (Nat.le_succ _)
  have hnames : targets.flatMap (fun _ => ([] : List String)) = [] := by simp
  rw [hnames] at hitems
  refine reads_look fun start => reads_kind_token (Reads.skip_then ?_)
  refine hitems.bind ?_ fun targets' htargets' => ?_
  · cases values with
    | nil => exact Leads.cons (leads_nil fun _ hk => hk) (leads_nil fun _ hk => Or.inl hk)
    | cons e es =>
      have hmark : ((mark .eq).either (mark .colonEq)).Starts fun k =>
          k = .punct .semicolon ∨ k = .punct .eq ∨ k = .punct .colonEq :=
        (starts_token (by simp)).either (starts_token (by simp))
      exact hmark.cons.cons.leads
  · refine (reads_initialValues hg hvalues).bind_last (fun _ hk => hk) fun values' hvalues' => ?_
    refine reads_spanSince fun span' => reads_pure ?_
    cases isConst
    · exact .varDecl false span' span htargets' hvalues'
    · exact .varDecl true span' span htargets' hvalues'

theorem reads_targets {targets : List Expr} (hne : targets ≠ [])
    (htargets : ∀ e ∈ targets, e.WellFormed) :
    (items g.size (operandStep g 0)).Reads (g.size + 1) (separated (targets.map Expr.wording))
      (Expr.literalNamesAll targets) (fun k => EndsExpr k ∧ k ≠ .punct .comma)
      fun as => List.Forall₂ (Expr.Alike Anywhere) as targets := by
  rw [Expr.literalNamesAll_eq_flatMap]
  exact Reads.items (fun e he => reads_operandStep hg 0 (htargets e he))
    (fun e _ => (starts_wording e).mono fun _ _ => trivial) (by decide) (fun _ hk => hk) hne
    (Nat.le_succ _) (Nat.le_refl _)

omit hg in
theorem mem_separated_of_startWordings {es : List Expr} {w : List TokenKind}
    (hw : w ∈ separated (Expr.startWordings es)) : w ∈ separated (es.map Expr.wording) := by
  cases es with
  | nil => exact hw
  | cons e es =>
    rw [Expr.startWordings, Expr.wordings_eq_map] at hw
    obtain ⟨u, hu, v, hv, rfl⟩ := hw
    exact ⟨u, mem_wording_of_mem_startWording hu, v, hv, rfl⟩

theorem reads_assign {targets values : List Expr} (span : Span) (hne : targets ≠ [])
    (hne' : values ≠ []) (htargets : ∀ e ∈ targets, e.WellFormed)
    (hvalues : ∀ e ∈ values, e.WellFormed) :
    (assignmentOrExpr g).Reads (g.size + 1) (Stmt.assign targets values span).wording
      (Stmt.assign targets values span).literalNames (· = .punct .semicolon)
      fun a => a.Alike Anywhere (.assign targets values span) := by
  rw [Stmt.wording, Stmt.literalNames]
  refine reads_look fun start => ?_
  have hread := (reads_targets hg hne htargets).of_subset
    (V := separated (Expr.startWordings targets)) fun _ => mem_separated_of_startWordings
  refine hread.bind (leads_token (by decide)) fun targets' htargets' => Reads.accept_then ?_
  refine (reads_expressions hg hvalues hne').bind_last ?_ fun values' hvalues' => ?_
  · rintro k rfl
    decide
  · exact reads_spanSince fun span' => reads_pure (.assign span' span htargets' hvalues')

theorem reads_expr {e : Expr} (he : e.WellFormed) :
    (assignmentOrExpr g).Reads (g.size + 1) e.wording e.literalNames (· = .punct .semicolon)
      fun a => a.Alike Anywhere (.expr e) := by
  have hread := reads_targets hg (List.cons_ne_nil e []) (by simpa using he)
  have hnames : Expr.literalNamesAll [e] = e.literalNames := by simp [Expr.literalNamesAll]
  rw [hnames] at hread
  have hone := hread.of_subset (V := e.wording) fun w hw =>
    ⟨w, hw, [], ⟨[], rfl, [], rfl, rfl⟩, by simp⟩
  refine reads_look fun start => reads_sequence_singleton.mp ?_
  refine hone.bind_last ?_ fun as has => ?_
  · rintro k rfl
    decide
  · refine Reads.accept_else (leads_nil ?_) ?_
    · rintro k rfl
      simp
    · cases has with
      | cons ha has =>
        cases has
        exact reads_pure (.expr ha)

theorem reads_returning {value : Option Expr} (span : Span) (hvalue : ∀ e ∈ value, e.WellFormed) :
    (returning g).Reads (g.size + 1) (Stmt.ret value span).wording
      (Stmt.ret value span).literalNames (· = .punct .semicolon)
      fun a => a.Alike Anywhere (.ret value span) := by
  cases value with
  | none =>
    rw [Stmt.wording, Stmt.literalNames]
    refine reads_sequence_singleton.mp (reads_look fun start => Reads.expect_then ?_)
    refine reads_kind (leads_nil fun _ hk => hk) fun k hk => ?_
    rw [hk]
    exact reads_spanSince fun span' => reads_pure (.ret span' span .none)
  | some e =>
    rw [Stmt.wording, Stmt.literalNames]
    refine reads_look fun start => Reads.expect_then ?_
    refine reads_kind (starts_wording e).cons.leads fun k hk => ?_
    rw [if_neg (by rw [endsReturn_of_startsOperand hk]; simp)]
    refine (hg.operand 0 e (hvalue e rfl)).bind_last ?_ fun a ha => ?_
    · rintro k rfl
      decide
    · exact reads_spanSince fun span' => reads_pure (.ret span' span (.some ha))

omit hg in
/-- What starts with an operand other than a function literal is an assignment or an expression. -/
theorem reads_statementBody_of_start {s : Stmt} {W : Wording} {xs : List String}
    (hW : W.Starts fun k => startsOperand k = true ∧ k ≠ .keyword .fnKw)
    (h : (assignmentOrExpr g).Reads n W xs F fun a => a.Alike Anywhere s) :
    (statementBody g).Reads n W xs F fun a => a.Alike Anywhere s := by
  refine reads_kind hW.leads fun k hk => ?_
  obtain ⟨hk, hfn⟩ := hk
  split
  · exact absurd hk nofun
  · exact absurd rfl hfn
  all_goals first | exact h | exact absurd hk nofun

theorem reads_statementBody {s : Stmt} (hs : s.WellFormed) :
    (statementBody g).Reads (g.size + 1) s.wording s.literalNames (· = .punct .semicolon)
      fun a => a.Alike Anywhere s := by
  cases hs with
  | importing i =>
    rw [Stmt.wording, Stmt.literalNames]
    exact reads_kind_token ((reads_importing i).map fun j hj => .importing hj)
  | @function f hf =>
    rw [Stmt.wording, Stmt.literalNames]
    refine reads_kind_token (reads_nextKind_token ?_)
    rw [if_neg (by simp)]
    exact (reads_functionDecl hg hf).map fun f' hf' => .function hf'
  | @method receiver f hreceiver hf =>
    rw [Stmt.wording, Stmt.literalNames]
    refine reads_kind_token (reads_nextKind_token ?_)
    rw [if_pos rfl]
    refine reads_sequence_singleton.mp ((reads_methodDecl hg hreceiver hf).bind_last
      (F := fun _ => True) (fun _ _ => trivial) fun a ha => ?_)
    exact reads_pure (.method ha.1 ha.2)
  | varDecl isConst span hne htargets hvalues =>
    have hread := reads_varDecl hg isConst span hne htargets hvalues
    rw [Stmt.wording] at hread ⊢
    refine reads_kind_token ?_
    cases isConst
    · exact hread
    · exact hread
  | @typeDecl d hd =>
    rw [Stmt.wording, Stmt.literalNames]
    exact reads_kind_token ((reads_typeDecl hd).map fun e he => .typeDecl he)
  | @assign targets values span hne hne' htargets hvalues =>
    refine reads_statementBody_of_start ?_ (reads_assign hg span hne hne' htargets hvalues)
    rw [Stmt.wording]
    cases targets with
    | nil => exact absurd rfl hne
    | cons e es =>
      rw [Expr.startWordings]
      exact (starts_startWording e).cons.cons
  | @conditional c hc =>
    rw [Stmt.wording, Stmt.literalNames]
    refine reads_kind (starts_conditionalWording c).leads fun k hk => ?_
    subst hk
    exact ((reads_conditionalStep hg hc).followed (by rintro k rfl; simp)).map
      fun d hd => .conditional hd
  | @ret value span hvalue =>
    have hread := reads_returning hg span hvalue
    have hstart : (Stmt.ret value span).wording.Starts (· = .keyword .returnKw) := by
      cases value with
      | none =>
        rw [Stmt.wording]
        exact starts_token rfl
      | some e =>
        rw [Stmt.wording]
        exact Wording.Starts.cons (starts_token rfl)
    refine reads_kind hstart.leads fun k hk => ?_
    subst hk
    exact hread
  | @block b hb =>
    rw [Stmt.wording, Stmt.literalNames]
    refine reads_kind (starts_blockWording b).leads fun k hk => ?_
    subst hk
    exact (reads_block hg hb).map fun c hc => .block hc
  | @expr e he =>
    rw [Stmt.wording, Stmt.literalNames]
    exact reads_statementBody_of_start (starts_startWording e)
      ((reads_expr hg he).of_subset fun _ => mem_wording_of_mem_startWording)

theorem reads_statementStep {s : Stmt} (hs : s.WellFormed) :
    (statementStep g).Reads (g.size + 1) (sequence [s.wording, mark .semicolon]) s.literalNames F
      fun a => a.Alike Anywhere s := by
  refine (reads_statementBody hg hs).bind_plain (leads_token rfl) fun a ha => ?_
  exact (Reads.accept_then (f := fun _ => pure a) (reads_pure ha)).of_succ

end

end Parser

namespace Grammar

theorem readsBack_empty : Grammar.empty.ReadsBack where
  operand _ e _ := Parser.reads_zero (Parser.starts_wording e)
  bare e _ := Parser.reads_zero (Parser.starts_bare e)
  unary e _ := Parser.reads_zero (Parser.starts_wording e)
  statement _ hs := Parser.reads_zero (Parser.starts_stmtWording hs).cons
  conditional c _ := Parser.reads_zero (Parser.starts_conditionalWording c)

theorem ReadsBack.step {g : Grammar} (hg : g.ReadsBack) : g.step.ReadsBack where
  operand level _ he := Parser.reads_operandStep hg level he
  bare _ he := Parser.reads_bare hg he
  unary _ he := Parser.reads_unaryStep hg he
  statement _ hs := Parser.reads_statementStep hg hs
  conditional _ hc := Parser.reads_conditionalStep hg hc

theorem readsBack_within (n : Nat) : (within n).ReadsBack := by
  induction n with
  | zero => exact readsBack_empty
  | succ n ih => exact ih.step

theorem size_within (n : Nat) : (within n).size = n := by
  induction n with
  | zero => rfl
  | succ n ih => exact congrArg (· + 1) ih

end Grammar

/--
The parser yields each well-formed program back, up to spans, from the tokens of any of its
wordings, with or without the end of the file behind them.
-/
theorem parseTokens_wording {p : Program} (hp : p.WellFormed) {w : List TokenKind}
    (hw : w ∈ p.wording) {ts : List Token}
    (hts : ts.map Token.kind = w ∨ ts.map Token.kind = w ++ [.eof]) :
    ∃ q, parseTokens ts = .ok q ∧ q.Alike Anywhere p := by
  have heof := p.wording.eof_notMem w hw
  have hne : ∀ k ∈ w, decide (k ≠ .eof) = true := by
    intro k hk
    have hk' : k ≠ .eof := fun h => heof (h ▸ hk)
    simpa using hk'
  have hrest : (Cursor.ofTokens ts).rest.map Token.kind = w := by
    have hmap : (Cursor.ofTokens ts).rest.map Token.kind =
        (ts.map Token.kind).takeWhile fun k => decide (k ≠ .eof) := by
      rw [List.takeWhile_map]
      rfl
    rw [hmap]
    rcases hts with hts | hts
    · rw [hts, ← List.append_nil w, List.takeWhile_append_of_pos hne, List.takeWhile_nil]
    · rw [hts, List.takeWhile_append_of_pos hne]
      simp
  have hlength : (Cursor.ofTokens ts).rest.length = w.length := by
    rw [← hrest, List.length_map]
  obtain ⟨stmts, d, hread, -, hstmts⟩ := Parser.reads_statements (Or.inr rfl)
    (Grammar.readsBack_within w.length).statement hp.stmts
    (Nat.le_of_eq (Grammar.size_within _).symm) w hw (Nat.le_refl _) (Cursor.ofTokens ts) [] 0
    ⟨by simpa using hrest, rfl⟩ hp.numbered rfl
  have hprogram : parseTokens ts = .ok ⟨stmts, (Cursor.ofTokens ts).here.merge d.here⟩ := by
    simp only [parseTokens, Parser.program, Parser.remaining, Bind.bind, Parser.bind, Parser.look,
      hlength, hread]
    rfl
  exact ⟨_, hprogram, hstmts⟩

/-- The assignment `x = fn() { };` as a tree. -/
def literalAssignment : Program :=
  let literal : FunctionDef := .mk ⟨"__fn_lit_0", .nowhere⟩ [] none (.mk [] .nowhere) .nowhere
  ⟨[.assign [.ident ⟨"x", .nowhere⟩] [.function literal] .nowhere], .nowhere⟩

/-- The assignment `x = fn() { };` as tokens. -/
def literalAssignmentWord : List TokenKind :=
  [.ident "x", .punct .eq, .keyword .fnKw, .punct .lparen, .punct .rparen, .punct .lbrace,
    .punct .rbrace, .punct .semicolon]

theorem wellFormed_literalAssignment : literalAssignment.WellFormed where
  stmts := by
    have hliteral : Expr.WellFormed (.function (.mk ⟨"__fn_lit_0", .nowhere⟩ [] none
        (.mk [] .nowhere) .nowhere)) :=
      .function (.mk _ _ (by simp) (by simp) (.mk _ (by simp)))
    have htarget : Expr.WellFormed (.ident ⟨"x", .nowhere⟩) := .ident _
    simpa [literalAssignment] using
      Stmt.WellFormed.assign .nowhere (List.cons_ne_nil _ []) (List.cons_ne_nil _ [])
        (by simpa using htarget) (by simpa using hliteral)
  numbered := rfl

theorem literalAssignmentWord_mem : literalAssignmentWord ∈ literalAssignment.wording := by
  have hbody : [.punct .lbrace, .punct .rbrace] ∈ (Block.mk [] .nowhere).wording := by
    rw [Block.wording, Stmt.wordings]
    exact cons_mem_sequence (append_mem_sequence (v := []) rfl (cons_mem_sequence rfl))
  have hliteral : [.punct .lparen, .punct .rparen, .punct .lbrace, .punct .rbrace] ∈
      (FunctionDef.mk ⟨"__fn_lit_0", .nowhere⟩ [] none (.mk [] .nowhere) .nowhere).wording := by
    rw [FunctionDef.wording, TypeExpr.wording?]
    refine cons_mem_sequence (append_mem_sequence (v := [.punct .rparen]) ?_ ?_)
    · exact append_mem_sequence (v := []) rfl (cons_mem_sequence rfl)
    · exact append_mem_sequence (v := []) rfl (append_mem_sequence hbody rfl)
  have htarget : [.ident "x"] ∈ separated (Expr.startWordings [.ident ⟨"x", .nowhere⟩]) := by
    rw [Expr.startWordings, Expr.wordings, Expr.bare]
    exact append_mem_sequence (v := [.ident "x"]) (Or.inl rfl) ⟨[], rfl, [], rfl, rfl⟩
  rw [Program.wording, literalAssignment, Stmt.wordings, Stmt.wordings, Stmt.wording,
    Expr.wordings, Expr.wordings, Expr.bare]
  refine append_mem_sequence (v := literalAssignmentWord.dropLast) ?_
    (cons_mem_sequence (append_mem_sequence (v := []) ⟨0, rfl⟩ ⟨[], rfl, [], rfl, rfl⟩))
  refine append_mem_sequence htarget (cons_mem_sequence ?_)
  refine ⟨_, append_mem_sequence (v := literalAssignmentWord.dropLast.drop 2) (Or.inl ?_)
    ⟨[], rfl, [], rfl, rfl⟩, [], rfl, rfl⟩
  exact cons_mem_sequence ⟨_, hliteral, [], rfl, rfl⟩

/-- The tokens of `x = fn() { };` are read as the assignment with its function literal. -/
theorem parseTokens_literalAssignment :
    literalAssignment.WellFormed ∧ literalAssignmentWord ∈ literalAssignment.wording ∧
      ∃ q, parseTokens (literalAssignmentWord.map (⟨·, .nowhere⟩)) = .ok q ∧
        q.Alike Anywhere literalAssignment :=
  ⟨wellFormed_literalAssignment, literalAssignmentWord_mem,
    parseTokens_wording wellFormed_literalAssignment literalAssignmentWord_mem
      (Or.inl (by simp [Function.comp_def]))⟩

end Sable
