import Mathlib.Data.List.Basic
import Sable.Proofs.Syntax.Climbing
import Sable.Proofs.Syntax.Nesting
import Sable.Proofs.Syntax.RetracedGrammar

/-!
# Spans and the tokens of an expression

The span of an expression reaches from one of the tokens that it is read from to another one. For
most expressions these are the first token and the last one. Parentheses around an operand belong
to no node; so where such an operand stands at an end of an operation, the span of the operation
starts behind the parentheses or ends in front of them, although it is read from all of the tokens.
-/

namespace Sable

/-! ### The expressions of a tree -/

mutual

/-- All expressions in an expression but itself, however deeply they are nested. A function literal
holds those of the statements in its body. -/
def Expr.inner : Expr → List Expr
  | .literal _ _ => []
  | .ident _ => []
  | .qualified _ _ _ => []
  | .binary _ left right _ => left :: left.inner ++ right :: right.inner
  | .unary _ operand _ => operand :: operand.inner
  | .call callee args _ => callee :: callee.inner ++ Expr.exprsAll args
  | .field object _ _ => object :: object.inner
  | .index object index _ => object :: object.inner ++ index :: index.inner
  | .array elements _ => Expr.exprsAll elements
  | .function f => f.exprs

/-- All expressions in a list of them. -/
def Expr.exprsAll : List Expr → List Expr
  | [] => []
  | e :: es => e :: e.inner ++ Expr.exprsAll es

/-- All expressions in a function. -/
def FunctionDef.exprs : FunctionDef → List Expr
  | .mk _ _ _ body _ => body.exprs

/-- All expressions in a block. -/
def Block.exprs : Block → List Expr
  | .mk stmts _ => Stmt.exprsAll stmts

/-- All expressions in a condition with all that follows its `else`. -/
def Conditional.exprs : Conditional → List Expr
  | .mk cond body otherwise _ => cond :: cond.inner ++ body.exprs ++ otherwise.exprs

/-- All expressions in what follows the body of a condition. -/
def Alternative.exprs : Alternative → List Expr
  | .nothing => []
  | .block body => body.exprs
  | .conditional next => next.exprs

/-- All expressions in a statement. -/
def Stmt.exprs : Stmt → List Expr
  | .importing _ => []
  | .function f => f.exprs
  | .method _ f => f.exprs
  | .varDecl _ _ values _ => Expr.exprsAll values
  | .typeDecl _ => []
  | .assign targets values _ => Expr.exprsAll targets ++ Expr.exprsAll values
  | .conditional cond => cond.exprs
  | .ret none _ => []
  | .ret (some e) _ => e :: e.inner
  | .block b => b.exprs
  | .expr e => e :: e.inner

/-- All expressions in a list of statements. -/
def Stmt.exprsAll : List Stmt → List Expr
  | [] => []
  | stmt :: stmts => stmt.exprs ++ Stmt.exprsAll stmts

end

/-- All expressions in an expression, itself among them. -/
def Expr.exprs (e : Expr) : List Expr := e :: e.inner

/-- All expressions in a program. -/
def Program.exprs (p : Program) : List Expr := Stmt.exprsAll p.stmts

theorem Expr.exprsAll_eq_flatMap (es : List Expr) : Expr.exprsAll es = es.flatMap Expr.exprs := by
  induction es with
  | nil => rfl
  | cons e es ih => rw [Expr.exprsAll, ih, List.flatMap_cons, Expr.exprs]

/-! ### Tokens in order -/

/-- Tokens of one file that take characters and stand one behind the other. -/
structure InOrder (n : Nat) (ts : List Token) : Prop where
  /-- None of them is the end of a file. -/
  proper : ∀ t ∈ ts, t.kind ≠ .eof
  /-- All of them stand in the file. -/
  file : ∀ t ∈ ts, t.span.file = n
  /-- All of them take characters. -/
  nonempty : ∀ t ∈ ts, t.span.start < t.span.stop
  /-- Each one ends in front of those behind it. -/
  disjoint : ts.Pairwise fun t u => t.span.stop ≤ u.span.start

/-- A span reaches from the first to the last of some tokens. -/
def Span.Reaches (n : Nat) (s : Span) (ts : List Token) : Prop :=
  ∃ t ∈ ts.head?, ∃ u ∈ ts.getLast?, s = ⟨t.span.start, u.span.stop, n⟩

instance (s outer : Span) : Decidable (s.Inside outer) :=
  decidable_of_iff (outer.start ≤ s.start ∧ s.stop ≤ outer.stop ∧ s.file = outer.file)
    ⟨fun h => ⟨h.1, h.2.1, h.2.2⟩, fun h => ⟨h.start, h.stop, h.file⟩⟩

/-- Those of some tokens that lie inside a span; the end of a file is none of them. -/
def Span.tokens (s : Span) (ts : List Token) : List Token :=
  ts.filter fun t => decide (t.kind ≠ .eof ∧ t.span.Inside s)

namespace InOrder

variable {n : Nat} {ts us vs ws : List Token} {s s' : Span}

theorem sublist (h : InOrder n ts) (hus : us.Sublist ts) : InOrder n us :=
  ⟨fun t ht => h.proper t (hus.subset ht), fun t ht => h.file t (hus.subset ht),
    fun t ht => h.nonempty t (hus.subset ht), h.disjoint.sublist hus⟩

/-- The first token neither starts nor ends behind another one. -/
theorem first_le (h : InOrder n ts) {t u : Token} (ht : t ∈ ts.head?) (hu : u ∈ ts) :
    t.span.start ≤ u.span.start ∧ t.span.stop ≤ u.span.stop := by
  obtain ⟨vs, rfl⟩ := List.head?_eq_some_iff.mp ht
  rcases List.mem_cons.mp hu with rfl | hmem
  · exact ⟨Nat.le_refl _, Nat.le_refl _⟩
  · have hle := (List.pairwise_cons.mp h.disjoint).1 u hmem
    have hproper := h.nonempty t (List.mem_cons_self ..)
    have hproper' := h.nonempty u hu
    omega

/-- The last token does not end in front of another one. -/
theorem le_last (h : InOrder n ts) {t u : Token} (ht : t ∈ ts) (hu : u ∈ ts.getLast?) :
    t.span.stop ≤ u.span.stop := by
  obtain ⟨vs, rfl⟩ := List.getLast?_eq_some_iff.mp hu
  rcases List.mem_append.mp ht with hmem | hmem
  · have hle := (List.pairwise_append.mp h.disjoint).2.2 t hmem u (List.mem_singleton_self u)
    have hproper := h.nonempty u (by simp)
    omega
  · rw [List.mem_singleton.mp hmem]

/-- The spans of the first and the last token are merged to one that reaches over all of them. -/
theorem reaches_merge (h : InOrder n ts) {t u : Token} (ht : t ∈ ts.head?)
    (hu : u ∈ ts.getLast?) : (t.span.merge u.span).Reaches n ts := by
  refine ⟨t, ht, u, hu, ?_⟩
  have hfile := h.file t (List.mem_of_mem_head? ht)
  have hle := h.first_le ht (List.mem_of_getLast? hu)
  rw [Span.merge, Nat.min_eq_left hle.1, Nat.max_eq_right hle.2, hfile]

/-- Two spans over tokens are merged to one that reaches from the first one to the second one. -/
theorem reaches_append (h : InOrder n (us ++ (vs ++ ws))) (hs : s.Reaches n us)
    (hs' : s'.Reaches n ws) : (s.merge s').Reaches n (us ++ (vs ++ ws)) := by
  obtain ⟨t, ht, u, hu, rfl⟩ := hs
  obtain ⟨t', ht', u', hu', rfl⟩ := hs'
  have hfirst : t ∈ (us ++ (vs ++ ws)).head? := by
    simp [List.head?_append, Option.mem_def.mp ht]
  have hlast : u' ∈ (us ++ (vs ++ ws)).getLast? := by
    simp [List.getLast?_append, Option.mem_def.mp hu']
  have hstart := (h.first_le hfirst (u := t') (by simp [List.mem_of_mem_head? ht'])).1
  have hstop := h.le_last (t := u) (by simp [List.mem_of_getLast? hu]) hlast
  refine ⟨t, hfirst, u', hlast, ?_⟩
  rw [Span.merge]
  congr 1
  · exact Nat.min_eq_left hstart
  · exact Nat.max_eq_right hstop

/-- The tokens inside a span that reaches over some of them are just these. -/
theorem tokens_eq (h : InOrder n (us ++ (vs ++ ws))) (hs : s.Reaches n vs) :
    s.tokens (us ++ (vs ++ ws)) = vs := by
  obtain ⟨t, ht, u, hu, rfl⟩ := hs
  obtain ⟨-, hvw, hfront⟩ := List.pairwise_append.mp h.disjoint
  have hvs : InOrder n vs := h.sublist (by simp)
  have hus : ∀ x ∈ us, ¬ x.span.Inside ⟨t.span.start, u.span.stop, n⟩ := by
    intro x hx hinside
    have hstart : t.span.start ≤ x.span.start := hinside.start
    have hle := hfront x hx t (by simp [List.mem_of_mem_head? ht])
    have hproper := h.nonempty x (by simp [hx])
    omega
  have hws : ∀ x ∈ ws, ¬ x.span.Inside ⟨t.span.start, u.span.stop, n⟩ := by
    intro x hx hinside
    have hstop : x.span.stop ≤ u.span.stop := hinside.stop
    have hle := (List.pairwise_append.mp hvw).2.2 u (List.mem_of_getLast? hu) x hx
    have hproper := h.nonempty x (by simp [hx])
    omega
  have hinside : ∀ x ∈ vs, x.span.Inside ⟨t.span.start, u.span.stop, n⟩ := fun x hx =>
    ⟨(hvs.first_le ht hx).1, hvs.le_last hx hu, hvs.file x hx⟩
  rw [Span.tokens, List.filter_append, List.filter_append,
    List.filter_eq_nil_iff.mpr fun x hx => by simp [hus x hx],
    List.filter_eq_self.mpr fun x hx => by simp [hvs.proper x hx, hinside x hx],
    List.filter_eq_nil_iff.mpr fun x hx => by simp [hws x hx], List.nil_append, List.append_nil]

/-- Tokens next to each other over which a span reaches are those inside it. -/
theorem tokens_of_reaches (h : InOrder n ts) (hrun : us <:+: ts) (hs : s.Reaches n us) :
    s.tokens ts = us := by
  obtain ⟨front, back, rfl⟩ := hrun
  rw [List.append_assoc] at h ⊢
  exact h.tokens_eq hs

/-- A span does not reach over different tokens that stand next to each other. -/
theorem eq_of_reaches (h : InOrder n ts) (hus : us <:+: ts) (hvs : vs <:+: ts)
    (hs : s.Reaches n us) (hs' : s.Reaches n vs) : us = vs :=
  (h.tokens_of_reaches hus hs).symm.trans (h.tokens_of_reaches hvs hs')

end InOrder

/-! ### Tokens with parentheses around them -/

/-- Some opening parentheses, and as many closing ones. -/
structure Parens (ls rs : List Token) : Prop where
  /-- The opening ones. -/
  opening : ∀ t ∈ ls, t.kind = .punct .lparen
  /-- The closing ones. -/
  closing : ∀ t ∈ rs, t.kind = .punct .rparen
  /-- Their number. -/
  length_eq : ls.length = rs.length

namespace Parens

variable {ls rs : List Token} {t u : Token}

theorem nil : Parens [] [] := ⟨List.forall_mem_nil _, List.forall_mem_nil _, rfl⟩

theorem group (h : Parens ls rs) (ht : t.kind = .punct .lparen) (hu : u.kind = .punct .rparen) :
    Parens (t :: ls) (rs ++ [u]) where
  opening := List.forall_mem_cons.mpr ⟨ht, h.opening⟩
  closing := List.forall_mem_append.mpr ⟨h.closing, List.forall_mem_singleton.mpr hu⟩
  length_eq := by rw [List.length_cons, h.length_eq, List.length_append, List.length_singleton]

end Parens

/--
An expression is written with the tokens `ps ++ us ++ qs`, and its span reaches over `us`. What is
left out are parentheses around operands: those that open in front of the first operand, or in front
of its own first operand and so on, and those that close behind the last one in the same way.
-/
inductive Expr.Lies (n : Nat) : Expr → List Token → List Token → List Token → Prop
  /-- The span of an expression that is no operation reaches over all of its tokens. -/
  | single {e : Expr} {us : List Token} (hne : ∀ op left right span, e ≠ .binary op left right span)
      (hs : e.span.Reaches n us) : e.Lies n [] us []
  /-- The span of an operation starts and ends with those of its operands. -/
  | operation {op : BinaryOp} {left right : Expr} {t : Token}
      {ls ps us qs rs ls' ps' us' qs' rs' : List Token} (hleft : left.Lies n ps us qs)
      (hparens : Parens ls rs) (hop : t.kind.binaryOp? = some op)
      (hright : right.Lies n ps' us' qs') (hparens' : Parens ls' rs') :
      (Expr.binary op left right (left.span.merge right.span)).Lies n (ls ++ ps)
        (us ++ ((qs ++ rs ++ t :: (ls' ++ ps')) ++ us')) (qs' ++ rs')

namespace Expr.Lies

variable {n : Nat} {e : Expr} {ts ps us qs ps' us' qs' : List Token}

theorem reaches (h : e.Lies n ps us qs) (horder : InOrder n us) : e.span.Reaches n us := by
  induction h with
  | single _ hs => exact hs
  | operation _ _ _ _ _ ihleft ihright =>
    refine horder.reaches_append (ihleft (horder.sublist ?_)) (ihright (horder.sublist ?_))
    · exact List.sublist_append_left ..
    · exact (List.sublist_append_right ..).trans (List.sublist_append_right ..)

theorem opening (h : e.Lies n ps us qs) : ∀ t ∈ ps, t.kind = .punct .lparen := by
  induction h with
  | single => exact List.forall_mem_nil _
  | operation _ hparens _ _ _ ihleft =>
    exact List.forall_mem_append.mpr ⟨hparens.opening, ihleft⟩

theorem closing (h : e.Lies n ps us qs) : ∀ t ∈ qs, t.kind = .punct .rparen := by
  induction h with
  | single => exact List.forall_mem_nil _
  | operation _ _ _ _ hparens' _ ihright =>
    exact List.forall_mem_append.mpr ⟨ihright, hparens'.closing⟩

theorem eq_nil (h : e.Lies n ps us qs)
    (hne : ∀ op left right span, e ≠ .binary op left right span) : ps = [] ∧ qs = [] := by
  cases h with
  | single => exact ⟨rfl, rfl⟩
  | operation => exact absurd rfl (hne _ _ _ _)

/-- An operator is no parenthesis, so what stands in front of it and behind it is determined. -/
private theorem parens_inj {op : BinaryOp} {t t' : Token} {cs os cs' os' : List Token}
    (hcs : ∀ t ∈ cs, t.kind = .punct .rparen) (hos : ∀ t ∈ os, t.kind = .punct .lparen)
    (hop : t'.kind.binaryOp? = some op) (h : cs ++ t :: os = cs' ++ t' :: os') :
    cs = cs' ∧ os = os' := by
  have hclosing : t' ∉ cs := fun hmem => by
    rw [hcs t' hmem] at hop
    cases hop
  have hopening : t' ∉ os := fun hmem => by
    rw [hos t' hmem] at hop
    cases hop
  obtain ⟨hcs, -, hos⟩ := (List.append_cons_inj_of_notMem hclosing hopening).mp h
  exact ⟨hcs, hos⟩

/-- How many parentheses are left out follows from the tokens inside the span. -/
theorem length_eq (h : e.Lies n ps us qs) (h' : e.Lies n ps' us qs') (horder : InOrder n us) :
    ps.length = ps'.length ∧ qs.length = qs'.length := by
  induction h generalizing ps' qs' with
  | single hne =>
    obtain ⟨rfl, rfl⟩ := h'.eq_nil hne
    exact ⟨rfl, rfl⟩
  | @operation op left right t ls ps us qs rs ls₁ ps₁ us₁ qs₁ rs₁ hleft hparens hop hright hparens₁
      ihleft ihright =>
    generalize hall : us ++ ((qs ++ rs ++ t :: (ls₁ ++ ps₁)) ++ us₁) = all at h' horder
    cases h' with
    | single hne => exact absurd rfl (hne _ _ _ _)
    | @operation _ _ _ t' ls' ps' us' qs' rs' ls₁' ps₁' us₁' qs₁' rs₁' hleft' hparens' hop' hright'
        hparens₁' =>
      generalize hall' : us' ++ ((qs' ++ rs' ++ t' :: (ls₁' ++ ps₁')) ++ us₁') = all' at hall horder
      have hfront : us <:+: all' := hall ▸ (List.prefix_append ..).isInfix
      have hfront' : us' <:+: all' := hall' ▸ (List.prefix_append ..).isInfix
      have hback : us₁ <:+: all' :=
        hall ▸ ((List.suffix_append ..).trans (List.suffix_append ..)).isInfix
      have hback' : us₁' <:+: all' :=
        hall' ▸ ((List.suffix_append ..).trans (List.suffix_append ..)).isInfix
      have hinside := horder.sublist hfront.sublist
      have hinside₁ := horder.sublist hback.sublist
      obtain rfl := horder.eq_of_reaches hfront hfront' (hleft.reaches hinside)
        (hleft'.reaches (horder.sublist hfront'.sublist))
      obtain rfl := horder.eq_of_reaches hback hback' (hright.reaches hinside₁)
        (hright'.reaches (horder.sublist hback'.sublist))
      -- Both operands have the same tokens inside their spans, so the same stands between them.
      obtain ⟨hlength, hlength'⟩ := ihleft hleft' hinside
      obtain ⟨hlength₁, hlength₁'⟩ := ihright hright' hinside₁
      have hbetween := List.append_cancel_right (List.append_cancel_left (hall.trans hall'.symm))
      obtain ⟨hclose, hopen⟩ := parens_inj
        (List.forall_mem_append.mpr ⟨hleft.closing, hparens.closing⟩)
        (List.forall_mem_append.mpr ⟨hparens₁.opening, hright.opening⟩) hop' hbetween
      have hclose := congrArg List.length hclose
      have hopen := congrArg List.length hopen
      have hbalance := hparens.length_eq
      have hbalance' := hparens'.length_eq
      have hbalance₁ := hparens₁.length_eq
      have hbalance₁' := hparens₁'.length_eq
      simp only [List.length_append] at hclose hopen ⊢
      omega

end Expr.Lies

/-! ### Tokens that are read as an expression -/

/-- An expression is read from all of some tokens behind `k` function literals. -/
def SpellsExpr (k : Nat) (ts : List Token) (e : Expr) : Prop :=
  ∃ d, Parser.expression (Cursor.behindLiterals k ts) = (.ok e, d) ∧ d.rest = []

/-- What any grammar with enough room reads to the end as an expression, is read as one. -/
theorem spellsExpr_of_operandStep {m : Nat} {c d : Cursor} {e : Expr}
    (hn : c.rest.length ≤ m + 1) (heof : ∀ t ∈ c.rest, t.kind ≠ .eof)
    (h : Parser.operandStep (Grammar.within m) 0 c = (.ok e, d)) (hd : d.rest = []) :
    SpellsExpr c.literals c.rest e := by
  have hrest := Cursor.rest_behindLiterals heof c.literals
  have hexpression : Parser.expression (Cursor.behindLiterals c.literals c.rest) =
      (Grammar.within c.rest.length).operand 0 (Cursor.behindLiterals c.literals c.rest) := by
    rw [Parser.expression, Parser.remaining, Parser.look_bind, hrest]
  have hc : (Cursor.behindLiterals c.literals c.rest).rest.length ≤
      (Grammar.within c.rest.length).size := by rw [hrest, Grammar.size_within]
  obtain ⟨e', d', hok, hd'⟩ := ((Grammar.performs_within (m + 1)).operand 0).exists_ok
    ((Grammar.performs_within c.rest.length).operand 0) trivial trivial
    (by rwa [Grammar.size_within]) hc (by rw [Cursor.kinds, hrest, Cursor.kinds]) h hd
  -- With more room, the same is read.
  have hprolongs : (Grammar.within c.rest.length).Prolongs [] (Grammar.within (m + 1)) :=
    Grammar.prolongs_within (by simpa using hn)
  have hsame : (Cursor.behindLiterals c.literals c.rest).Prolonged [] false c :=
    .of_rest (by rw [hrest, List.append_nil]) rfl
  obtain ⟨d'', hok', -⟩ := (hprolongs.operand false 0).goes hsame hc hok fun _ =>
    TokenKind.endsOperand_eof 0
  obtain rfl : e' = e := by
    have heq := hok'.symm.trans h
    simpa using congrArg Prod.fst heq
  exact ⟨d', hexpression.trans hok, hd'⟩

/-- An expression is written with some tokens, in any number of parentheses. -/
def Expr.Written (n : Nat) (e : Expr) (ts : List Token) : Prop :=
  ∃ ls ps us qs rs, Parens ls rs ∧ e.Lies n ps us qs ∧ ts = ls ++ (ps ++ (us ++ (qs ++ rs)))

namespace Expr.Written

variable {n : Nat} {e left right : Expr} {ts us vs : List Token} {t u : Token}

theorem of_lies {ps qs : List Token} (h : e.Lies n ps us qs) : e.Written n (ps ++ (us ++ qs)) :=
  ⟨[], ps, us, qs, [], .nil, h, by simp⟩

theorem group (h : e.Written n ts) (ht : t.kind = .punct .lparen) (hu : u.kind = .punct .rparen) :
    e.Written n (t :: (ts ++ [u])) := by
  obtain ⟨ls, ps, us, qs, rs, hparens, hlies, rfl⟩ := h
  exact ⟨t :: ls, ps, us, qs, rs ++ [u], hparens.group ht hu, hlies, by simp⟩

/-- What closes the first operand and opens the second one lies between the two. -/
theorem operation {op : BinaryOp} (h : left.Written n us) (hop : t.kind.binaryOp? = some op)
    (h' : right.Written n vs) :
    ∃ ps ws qs, (Expr.binary op left right (left.span.merge right.span)).Lies n ps ws qs ∧
      us ++ t :: vs = ps ++ (ws ++ qs) := by
  obtain ⟨ls, ps, us, qs, rs, hparens, hlies, rfl⟩ := h
  obtain ⟨ls', ps', us', qs', rs', hparens', hlies', rfl⟩ := h'
  exact ⟨_, _, _, .operation hlies hparens hop hlies' hparens', by simp⟩

end Expr.Written

/-- The tokens `us` of a text are read as an expression, and how its span lies over them. -/
structure Expr.ReadFrom (n : Nat) (ts us : List Token) (e : Expr) : Prop where
  /-- They stand next to each other in the text. -/
  run : us <:+: ts
  /-- They are read as the expression, behind some number of function literals. -/
  spells : ∃ k, SpellsExpr k us e
  /-- Those inside the span are all but the parentheses around operands at both ends. -/
  lies : ∃ ps qs, us = ps ++ (e.span.tokens ts ++ qs) ∧ e.Lies n ps (e.span.tokens ts) qs
  /-- They are just these, unless the expression is an operation. -/
  exact : (∀ op left right span, e ≠ .binary op left right span) → us = e.span.tokens ts
  /-- Those of an operation are its operands, with what parentheses they have, and the operator. -/
  operands : ∀ op left right span, e = .binary op left right span →
    ∃ vs t ws, us = vs ++ t :: ws ∧ t.kind.binaryOp? = some op ∧ (∃ k, SpellsExpr k vs left) ∧
      ∃ k, SpellsExpr k ws right

/-- Some tokens of a text are read as an expression. -/
def Expr.Readable (n : Nat) (ts : List Token) (e : Expr) : Prop := ∃ us, e.ReadFrom n ts us

/-- An expression with a span over all tokens that it is read from. -/
theorem InOrder.readable_of_reaches {n : Nat} {ts us : List Token} {e : Expr} (h : InOrder n ts)
    (hrun : us <:+: ts) {k : Nat} (hspells : SpellsExpr k us e) (hs : e.span.Reaches n us)
    (hne : ∀ op left right span, e ≠ .binary op left right span) : e.Readable n ts := by
  obtain rfl := h.tokens_of_reaches hrun hs
  exact ⟨_, hrun, ⟨k, hspells⟩, ⟨[], [], by simp, .single hne hs⟩, fun _ => rfl,
    fun _ _ _ _ he => absurd he (hne _ _ _ _)⟩

/-! ### Rules -/

namespace Parser

variable {α β : Type}

/--
Started in front of at most `m` of the last tokens of a text, a parser reads forward, and a token if
it is `strict`; and what it yields has a property.
-/
def Covers (ts : List Token) (strict : Bool) (m : Nat) (p : Parser α) (Q : α → Prop) : Prop :=
  ∀ c a d, c.rest <:+ ts → c.rest.length ≤ m → p c = (.ok a, d) →
    d.rest <:+ c.rest ∧ d.rest.length + strict.toNat ≤ c.rest.length ∧ Q a

variable {ts : List Token} {b s r : Bool} {m m' : Nat} {p : Parser α} {f : α → Parser β}
  {Q : α → Prop} {R : β → Prop}

theorem Retraces.covers (hp : p.Retraces true s) : p.Covers ts s m fun _ => True := by
  intro c a d _ _ h
  obtain ⟨us, hus, hs⟩ := hp.takes h
  have hlength := hus.length
  exact ⟨hus.suffix, by omega, trivial⟩

theorem covers_pure {a : α} (h : Q a) : (pure a : Parser α).Covers ts false m Q := by
  rintro c _ _ - - ⟨⟩
  exact ⟨List.suffix_refl _, Nat.le_refl _, h⟩

theorem covers_fail (e : Span → SyntaxError) : (fail e : Parser α).Covers ts s m Q := by
  rintro c a d - - ⟨⟩

theorem covers_unexpected (e : Expectation) : (unexpected e : Parser α).Covers ts s m Q := by
  rintro c a d - - ⟨⟩

theorem covers_look {g : Cursor → α} (h : ∀ a, (f a).Covers ts s m R) :
    (look g >>= f).Covers ts s m R := fun c => h (g c) c

theorem Covers.seq (hp : p.Covers ts s m Q) (hf : ∀ a, Q a → (f a).Covers ts r m' R)
    (hm : m ≤ m' + s.toNat) : (p >>= f).Covers ts (s || r) m R := by
  intro c x e hc hlength he
  obtain ⟨a, d, hpc, hfd⟩ := bind_eq_ok he
  obtain ⟨hd, hs, ha⟩ := hp c a d hc hlength hpc
  obtain ⟨he', hr, hx⟩ := hf a ha d x e (hd.trans hc) (by omega) hfd
  refine ⟨he'.trans hd, ?_, hx⟩
  cases s <;> cases r <;> simp_all <;> omega

theorem Covers.bind (hp : p.Covers ts s m Q) (hf : ∀ a, Q a → (f a).Covers ts r m R) :
    (p >>= f).Covers ts (s || r) m R := hp.seq hf (Nat.le_add_right _ _)

/-- The second parser finds one token less. -/
theorem Covers.then_less (hp : p.Covers ts true (m + 1) Q)
    (hf : ∀ a, Q a → (f a).Covers ts r m R) : (p >>= f).Covers ts true (m + 1) R :=
  hp.seq hf (Nat.le_refl _)

theorem Covers.map {g : α → β} (hp : p.Covers ts true m Q) (h : ∀ a, Q a → R (g a)) :
    (g <$> p).Covers ts true m R := hp.bind fun a ha => covers_pure (h a ha)

theorem Covers.ite {c : Prop} [Decidable c] {q : Parser α} (hp : p.Covers ts s m Q)
    (hq : q.Covers ts s m Q) : (if c then p else q).Covers ts s m Q := by
  split
  · exact hp
  · exact hq

theorem Covers.of_le (hp : p.Covers ts s m Q) (hm : m' ≤ m) : p.Covers ts s m' Q :=
  fun c a d hc hlength => hp c a d hc (hlength.trans hm)

theorem Covers.loose (hp : p.Covers ts true m Q) : p.Covers ts false m Q := by
  intro c a d hc hlength h
  obtain ⟨hd, hs, ha⟩ := hp c a d hc hlength h
  exact ⟨hd, (Nat.le_add_right _ _).trans hs, ha⟩

theorem covers_skip : skip.Covers ts false m fun _ => True := by
  rintro c _ _ - - ⟨⟩
  rw [Cursor.advance]
  split
  · exact ⟨List.suffix_refl _, Nat.le_refl _, trivial⟩
  · next hrest => exact ⟨by simp [hrest], by simp [hrest], trivial⟩

theorem covers_accept (k : TokenKind) : (accept k).Covers ts false m fun _ => True := by
  intro c a d hc hlength h
  unfold accept at h
  split at h
  · cases h
    exact covers_skip c () _ hc hlength rfl
  · cases h
    exact ⟨List.suffix_refl _, Nat.le_refl _, trivial⟩

theorem Covers.moreItems (hp : p.Covers ts true m Q) (k : Nat) :
    (moreItems p k).Covers ts false m fun as => ∀ a ∈ as, Q a := by
  induction k with
  | zero => exact covers_pure nofun
  | succ k ih =>
    refine (covers_accept _).bind fun _ _ => .ite (.loose ?_) (covers_pure nofun)
    exact hp.bind fun _ ha => ih.bind fun _ has => covers_pure (List.forall_mem_cons.mpr ⟨ha, has⟩)

theorem Covers.items (hp : p.Covers ts true m Q) (k : Nat) :
    (items k p).Covers ts true m fun as => ∀ a ∈ as, Q a :=
  hp.bind fun _ ha => (hp.moreItems k).bind fun _ has =>
    covers_pure (List.forall_mem_cons.mpr ⟨ha, has⟩)

end Parser

end Sable
