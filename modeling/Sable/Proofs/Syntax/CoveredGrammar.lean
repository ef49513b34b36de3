import Sable.Proofs.Syntax.Covering

/-!
# Every expression of a text is read from tokens of its own

All expressions of a parsed text can be read again from some of its tokens. A parser of expressions
yields one with all tokens that it reads. The expressions below it are read by the parsers for its
parts; but those that grow on the left, of an operation or of a call, are read up to some moment of
the loop that goes on with them.
-/

namespace Sable

/-- Some tokens have been read as an expression, with all of the expressions in it. -/
def Cursor.Finds (n : Nat) (ts : List Token) (c : Cursor) (e : Expr) (d : Cursor) : Prop :=
  ∃ us, c.Takes us d ∧ us ≠ [] ∧ e.Written n us ∧ SpellsExpr c.literals us e ∧
    ∀ x ∈ e.exprs, x.Readable n ts

theorem Cursor.Finds.covers {n : Nat} {ts : List Token} {c d : Cursor} {e : Expr}
    (h : c.Finds n ts e d) : d.rest <:+ c.rest ∧ d.rest.length + true.toNat ≤ c.rest.length ∧
      ∀ x ∈ e.exprs, x.Readable n ts := by
  obtain ⟨us, hus, hne, -, -, hexprs⟩ := h
  have hle := hus.length
  have hpos := List.length_pos_of_ne_nil hne
  exact ⟨hus.suffix, by simp only [Bool.toNat_true]; omega, hexprs⟩

/-- The parsers for nested constructs yield expressions that can be read again. -/
structure Grammar.Covers (n : Nat) (ts : List Token) (g : Grammar) : Prop where
  /-- Tokens behind may be left out. -/
  retraces : g.Retraces
  /-- What the next grammar reads to the end, is read as an expression. -/
  spells : ∀ {c d : Cursor} {e : Expr}, c.rest.length ≤ g.size + 1 → (∀ t ∈ c.rest, t.kind ≠ .eof) →
    Parser.operandStep g 0 c = (.ok e, d) → d.rest = [] → SpellsExpr c.literals c.rest e
  /-- The expressions between operators. -/
  operand : ∀ level {c d : Cursor} {e : Expr}, c.rest <:+ ts → c.rest.length ≤ g.size →
    g.operand level c = (.ok e, d) → c.Finds n ts e d
  /-- The operands. -/
  unary : g.unary.Covers ts true g.size fun e => ∀ x ∈ e.exprs, x.Readable n ts
  /-- The statements. -/
  statement : g.statement.Covers ts true g.size fun s => ∀ x ∈ s.exprs, x.Readable n ts
  /-- The conditions. -/
  conditional : g.conditional.Covers ts true g.size fun c => ∀ x ∈ c.exprs, x.Readable n ts

theorem Grammar.Covers.covers {n : Nat} {ts : List Token} {g : Grammar} (hg : g.Covers n ts)
    (level : Nat) :
    (g.operand level).Covers ts true g.size fun e => ∀ x ∈ e.exprs, x.Readable n ts :=
  fun _ _ _ hc hlength h => (hg.operand level hc hlength h).covers

namespace Parser

variable {n : Nat} {ts : List Token} {g : Grammar} {start : Span}

/-! ### Blocks and functions -/

theorem covers_statements {stmt : Parser Stmt} {m : Nat}
    (h : stmt.Covers ts true m fun s => ∀ x ∈ s.exprs, x.Readable n ts) (close : TokenKind)
    (k : Nat) : (statements stmt close k).Covers ts false m
      fun ss => ∀ x ∈ Stmt.exprsAll ss, x.Readable n ts := by
  induction k with
  | zero => exact covers_pure nofun
  | succ k ih =>
    refine covers_look fun _ => .ite (covers_pure nofun) ?_
    refine (covers_accept _).bind fun _ _ => .ite ih (.loose ?_)
    exact h.bind fun s hs => ih.bind fun ss hss =>
      covers_pure (List.forall_mem_append.mpr ⟨hs, hss⟩)

theorem covers_block (hg : g.Covers n ts) :
    (block g).Covers ts true (g.size + 1) fun b => ∀ x ∈ b.exprs, x.Readable n ts :=
  covers_look fun _ => (retraces_mark _).covers.then_less fun _ _ =>
    (covers_statements hg.statement _ _).bind fun _ hss => (retraces_mark _).covers.bind fun _ _ =>
      (retraces_spanSince _).covers.bind fun _ _ => covers_pure hss

theorem covers_functionRest (hg : g.Covers n ts) (name : Ident) :
    (functionRest g name start).Covers ts true g.size fun f => ∀ x ∈ f.exprs, x.Readable n ts :=
  (retraces_mark _).covers.bind fun _ _ =>
    (Retraces.itemsUntil (fun _ => retraces_param _) _ _).covers.bind fun _ _ =>
      ((retraces_typeWithin _).behind (by nofun)).covers.bind fun _ _ =>
        ((covers_block hg).of_le (Nat.le_succ _)).bind fun _ hbody =>
          (retraces_spanSince _).covers.bind fun _ _ => covers_pure hbody

/-! ### Expressions -/

theorem covers_expressions (hg : g.Covers n ts) :
    (expressions g).Covers ts true g.size fun es => ∀ x ∈ Expr.exprsAll es, x.Readable n ts := by
  intro c es d hc hlength h
  obtain ⟨hd, hle, hall⟩ := (hg.covers 0).items g.size c es d hc hlength h
  refine ⟨hd, hle, fun x hx => ?_⟩
  rw [Expr.exprsAll_eq_flatMap] at hx
  obtain ⟨e, he, hx⟩ := List.mem_flatMap.mp hx
  exact hall e he x hx

theorem covers_expressionsUntil (hg : g.Covers n ts) (close : Punct) :
    (expressionsUntil g (.punct close)).Covers ts false g.size
      fun es => ∀ x ∈ Expr.exprsAll es, x.Readable n ts :=
  (covers_accept _).bind fun _ _ => .ite (covers_pure nofun) (.loose
    ((covers_expressions hg).bind fun _ hes => (retraces_mark _).covers.bind fun _ _ =>
      covers_pure hes))

/-! ### Single expressions -/

/--
An expression has been made of all tokens read since a cursor, with expressions in it that can be
read again.
-/
structure Builds (n : Nat) (ts : List Token) (c : Cursor) (e : Expr) (d : Cursor) : Prop where
  /-- The span reaches from the next token at the first cursor to the last one that is read. -/
  span : e.span = c.here.merge d.last
  /-- The expressions in it. -/
  inner : ∀ x ∈ e.inner, x.Readable n ts
  /-- It is no operation. -/
  single : ∀ op left right span, e ≠ .binary op left right span

variable {c d : Cursor} {e : Expr} {us : List Token}

theorem run_of_takes (hc : c.rest <:+ ts) (h : c.Takes us d) : us <:+: ts := by
  have hprefix : us <+: c.rest := ⟨d.rest, h.rest.symm⟩
  exact hprefix.isInfix.trans hc.isInfix

/-- The span from the next token to the last one that is read reaches over all that is read. -/
theorem reaches_of_takes (hts : InOrder n ts) (hc : c.rest <:+ ts) (h : c.Takes us d)
    (hne : us ≠ []) : (c.here.merge d.last).Reaches n us := by
  have horder := hts.sublist (run_of_takes hc h).sublist
  obtain ⟨t, vs, rfl⟩ := List.exists_cons_of_ne_nil hne
  have hhere : c.here = t.span := by simp [Cursor.here, Cursor.current, h.rest]
  have hlast : d.last = ((t :: vs).getLast (by simp)).span := by
    rw [h.last, List.getLast?_eq_some_getLast (by simp)]
    rfl
  rw [hhere, hlast]
  exact horder.reaches_merge rfl (List.getLast?_eq_some_getLast _)

theorem Builds.finds (h : Builds n ts c e d) (hts : InOrder n ts) (hc : c.rest <:+ ts)
    (htakes : c.Takes us d) (hne : us ≠ []) (hspells : SpellsExpr c.literals us e) :
    c.Finds n ts e d := by
  have hreaches : e.span.Reaches n us := h.span ▸ reaches_of_takes hts hc htakes hne
  have hwritten : e.Written n us := by
    simpa using Expr.Written.of_lies (.single h.single hreaches)
  refine ⟨us, htakes, hne, hwritten, hspells, List.forall_mem_cons.mpr ⟨?_, h.inner⟩⟩
  exact hts.readable_of_reaches (run_of_takes hc htakes) hspells hreaches h.single

theorem last_advance (hc : c.rest ≠ []) : c.advance.last = c.here := by
  obtain ⟨t, vs, hvs⟩ := List.exists_cons_of_ne_nil hc
  simp [Cursor.advance, Cursor.here, Cursor.current, hvs]

theorem skip_bind {α : Type} {f : Unit → Parser α} : (skip >>= f) c = f () c.advance := rfl

theorem behind_eq_none {α : Type} {p : Parser α} {mark : TokenKind}
    (h : behind mark p c = (.ok none, d)) : d = c := by
  obtain ⟨_ | _, m, haccept, hrest⟩ := bind_eq_ok h
  · cases hrest
    unfold accept at haccept
    split at haccept <;> cases haccept
    rfl
  · obtain ⟨_, _, -, hsome⟩ := bind_eq_ok hrest
    cases hsome

theorem expect_eq_ok {k : TokenKind} {u : Unit} (h : expect k c = (.ok u, d)) :
    c.kind = k ∧ d = c.advance := by
  unfold expect at h
  split at h
  · next hk =>
    cases h
    exact ⟨hk, rfl⟩
  · cases h

theorem span_functionRest {name : Ident} {f : FunctionDef}
    (h : functionRest g name start c = (.ok f, d)) : f.span = start.merge d.last := by
  obtain ⟨_, _, -, h⟩ := bind_eq_ok h
  obtain ⟨_, _, -, h⟩ := bind_eq_ok h
  obtain ⟨_, _, -, h⟩ := bind_eq_ok h
  obtain ⟨_, _, -, h⟩ := bind_eq_ok h
  cases h
  rfl

theorem builds_nameExpr (h : nameExpr c.here c = (.ok e, d)) : Builds n ts c e d := by
  obtain ⟨name, m, hname, h⟩ := bind_eq_ok h
  obtain ⟨member?, m', hmember, h⟩ := bind_eq_ok h
  cases member? with
  | some member =>
    cases h
    exact ⟨rfl, nofun, nofun⟩
  | none =>
    cases h
    obtain ⟨hkind, hspan, rfl⟩ := ident_eq_ok hname
    obtain rfl := behind_eq_none hmember
    have hne := Cursor.rest_ne_nil_of_kind (by simp) hkind
    exact ⟨by rw [last_advance hne, Span.merge_self]; exact hspan, nofun, nofun⟩

theorem builds_literal {v : Literal} (hne : c.rest ≠ []) (h : literal v c.here c = (.ok e, d)) :
    Builds n ts c e d := by
  cases h
  exact ⟨by rw [last_advance hne, Span.merge_self]; rfl, nofun, nofun⟩

/-- Behind a token, there is one token less. -/
theorem advance_within {m : Nat} (hc : c.rest <:+ ts) (hlength : c.rest.length ≤ m + 1)
    (hne : c.rest ≠ []) : c.advance.rest <:+ ts ∧ c.advance.rest.length ≤ m := by
  have htakes := Cursor.Takes.advance hne
  have hle := htakes.length
  rw [List.length_singleton] at hle
  exact ⟨htakes.suffix.trans hc, by omega⟩

/-- An atom stands in parentheses, or is made of all of its tokens. -/
theorem atom_cases (hg : g.Covers n ts) (hc : c.rest <:+ ts) (hlength : c.rest.length ≤ g.size + 1)
    (h : atom g c = (.ok e, d)) :
    (∃ m, c.kind = .punct .lparen ∧ g.operand 0 c.advance = (.ok e, m) ∧
      m.kind = .punct .rparen ∧ d = m.advance) ∨ Builds n ts c e d := by
  rw [atom, look_bind, look_bind] at h
  generalize hk : c.kind = k at h
  split at h
  case h_6 => exact .inr (builds_nameExpr h)
  case h_7 =>
    rw [skip_bind] at h
    obtain ⟨e', m, he, h⟩ := bind_eq_ok h
    obtain ⟨_, m', hexpect, h⟩ := bind_eq_ok h
    obtain ⟨hclose, rfl⟩ := expect_eq_ok hexpect
    cases h
    exact .inl ⟨m, rfl, he, hclose, rfl⟩
  case h_8 =>
    obtain ⟨hadvance, hless⟩ := advance_within hc hlength (Cursor.rest_ne_nil_of_kind (by simp) hk)
    rw [skip_bind] at h
    obtain ⟨es, m, hes, h⟩ := bind_eq_ok h
    cases h
    exact .inr ⟨rfl, (covers_expressionsUntil hg _ _ _ _ hadvance hless hes).2.2, nofun⟩
  case h_9 =>
    obtain ⟨hadvance, hless⟩ := advance_within hc hlength (Cursor.rest_ne_nil_of_kind (by simp) hk)
    rw [skip_bind] at h
    obtain ⟨_, _, ⟨⟩, h⟩ := bind_eq_ok h
    obtain ⟨f, m, hf, h⟩ := bind_eq_ok h
    cases h
    have hspan : f.span = c.here.merge d.last := span_functionRest hf
    have hexprs := covers_functionRest hg _
      { c.advance with literals := c.advance.literals + 1 } f d hadvance hless hf
    exact .inr ⟨hspan, hexprs.2.2, nofun⟩
  case h_10 => cases h
  all_goals exact .inr (builds_literal (Cursor.rest_ne_nil_of_kind (by simp) hk) h)

/-- A call, a field or an index is made of all tokens since the start of what stands in front. -/
theorem builds_applicationStep (hg : g.Covers n ts) {o : Cursor} (hc : c.rest <:+ ts)
    (hlength : c.rest.length ≤ g.size + 1) {x : Expr} (he : ∀ y ∈ e.exprs, y.Readable n ts)
    (h : applicationStep g o.here e c.kind c = (.ok x, d)) : Builds n ts o x d := by
  generalize hk : c.kind = k at h
  unfold applicationStep at h
  split at h
  · obtain ⟨hadvance, hless⟩ := advance_within hc hlength (Cursor.rest_ne_nil_of_kind (by simp) hk)
    rw [skip_bind] at h
    obtain ⟨args, m, hargs, h⟩ := bind_eq_ok h
    cases h
    have hall := (covers_expressionsUntil hg _ _ _ _ hadvance hless hargs).2.2
    exact ⟨rfl, List.forall_mem_append.mpr ⟨he, hall⟩, nofun⟩
  · rw [skip_bind] at h
    obtain ⟨name, m, -, h⟩ := bind_eq_ok h
    cases h
    exact ⟨rfl, he, nofun⟩
  · obtain ⟨hadvance, hless⟩ := advance_within hc hlength (Cursor.rest_ne_nil_of_kind (by simp) hk)
    rw [skip_bind] at h
    obtain ⟨index, m, hindex, h⟩ := bind_eq_ok h
    obtain ⟨_, m', -, h⟩ := bind_eq_ok h
    cases h
    have hall := (hg.covers 0 _ _ _ hadvance hless hindex).2.2
    exact ⟨rfl, List.forall_mem_append.mpr ⟨he, hall⟩, nofun⟩
  · cases h

/-! ### Moments of a loop -/

/-- The cursor in front of some tokens that have been read, without those behind them. -/
theorem prolonged_of_takes {b : Bool} (h : c.Takes us d) :
    Cursor.Prolonged d.rest b { c with rest := us } c := ⟨h.rest, rfl, fun _ => rfl⟩

/--
Started at `c`, a parser comes to `d` and goes on as another one; and so it does where tokens that
are left at `d` are left out.
-/
def Passes {α : Type} (p q : Parser α) (c d : Cursor) : Prop :=
  ∀ w o, Cursor.Prolonged w false o c → w.length ≤ d.rest.length →
    ∃ o', Cursor.Prolonged w true o' d ∧ p o = q o'

/-- The second parser goes on as a third one. -/
theorem Passes.trans {α : Type} {p q r : Parser α} {m : Cursor} (h : p.Passes q c d)
    (hm : m.rest.length ≤ d.rest.length)
    (hstep : ∀ w o, Cursor.Prolonged w true o d → w.length ≤ m.rest.length →
      ∃ o', Cursor.Prolonged w true o' m ∧ q o = r o') : p.Passes r c m := by
  intro w o ho hw
  obtain ⟨o₁, ho₁, hpq⟩ := h w o ho (hw.trans hm)
  obtain ⟨o₂, ho₂, hqr⟩ := hstep w o₁ ho₁ hw
  exact ⟨o₂, ho₂, hpq.trans hqr⟩

/-- Where all tokens left are left out, the second parser ends the reading. -/
theorem Passes.ends {α : Type} {p q : Parser α} {a : α} (h : p.Passes q c d) (htakes : c.Takes us d)
    (hq : ∀ o : Cursor, o.kind = .eof → q o = (.ok a, o)) :
    ∃ o, p { c with rest := us } = (.ok a, o) ∧ o.rest = [] := by
  obtain ⟨o, ho, hp⟩ := h d.rest _ (prolonged_of_takes htakes) (Nat.le_refl _)
  have hrest : o.rest = [] := List.self_eq_append_left.mp ho.rest
  exact ⟨o, hp.trans (hq o (Cursor.kind_of_rest_eq_nil hrest)), hrest⟩

/-- The tokens that have been read are fewer than those of the text, and none ends a file. -/
theorem spells_of_takes (hts : InOrder n ts) (hg : g.Covers n ts) (hc : c.rest <:+ ts)
    (hlength : c.rest.length ≤ g.size + 1) (htakes : c.Takes us d) {o : Cursor}
    (h : operandStep g 0 { c with rest := us } = (.ok e, o)) (ho : o.rest = []) :
    SpellsExpr c.literals us e := by
  have hle := htakes.length
  have hproper : ∀ t ∈ us, t.kind ≠ .eof := fun t ht =>
    hts.proper t ((run_of_takes hc htakes).subset ht)
  exact hg.spells (c := { c with rest := us }) (by dsimp only; omega) hproper h ho

/-- What is read without free operators is an operand at the end of its tokens. -/
theorem operandStep_of_unaryStep {o : Cursor} (h : unaryStep g c = (.ok e, o)) (ho : o.rest = []) :
    operandStep g 0 c = (.ok e, o) := by
  rw [operandStep, bind_of_ok h]
  refine operations_of_ends ?_
  rw [Cursor.kind_of_rest_eq_nil ho]
  exact (TokenKind.endsOperand_eof 0).2

/-! ### Calls, fields and indices -/

theorem passes_atom (hg : g.Retraces) (h : atom g c = (.ok e, d)) :
    (applied g).Passes (applications g c.here g.size e) c d := by
  intro w o ho hw
  obtain ⟨o', hatom, ho'⟩ := (retraces_atom hg).again ho h hw
  refine ⟨o', ho', ?_⟩
  rw [applied, look_bind, bind_of_ok hatom, ho.here_eq ((retraces_atom hg).rest_ne_nil ho h hw)]

theorem passes_applications (hg : g.Retraces) {j : Nat} {x : Expr} {m : Cursor}
    (hk : ¬ d.kind.EndsApplications) (h : applicationStep g start e d.kind d = (.ok x, m))
    (hpasses : (applied g).Passes (applications g start (j + 1) e) c d) :
    (applied g).Passes (applications g start j x) c m := by
  have hretraces := retraces_applicationStep (b := true) hg start e d.kind
  have hon : on d.kind (applicationStep g start e d.kind) d = (.ok x, m) :=
    (on_of_kind rfl).trans h
  refine hpasses.trans ((Nat.le_add_right _ _).trans (hretraces.length_le hon)) ?_
  intro w o ho hw
  obtain ⟨o', hstep, ho'⟩ := hretraces.again ho hon hw
  obtain ⟨hkind, hstep⟩ := on_eq_ok hstep
  refine ⟨o', ho', ?_⟩
  rw [applications_go (hkind ▸ hk), hkind]
  exact bind_of_ok hstep

/-- In front of the end, what has been read so far is read as an expression. -/
theorem spells_of_passes (hts : InOrder n ts) (hg : g.Covers n ts) (hc : c.rest <:+ ts)
    (hlength : c.rest.length ≤ g.size + 1) (hop : unaryOp? c.kind = none) {j : Nat}
    (htakes : c.Takes us d) (hne : us ≠ [])
    (hpasses : (applied g).Passes (applications g start j e) c d) :
    SpellsExpr c.literals us e := by
  obtain ⟨o, happlied, ho⟩ := hpasses.ends htakes fun o hk => applications_of_ends (by
    rw [hk]
    decide)
  refine spells_of_takes hts hg hc hlength htakes (operandStep_of_unaryStep ?_ ho) ho
  have hkind := (prolonged_of_takes (b := true) htakes).kind_eq hne
  rw [unaryStep, look_bind, look_bind, ← hkind, hop]
  exact happlied

theorem finds_applications (hts : InOrder n ts) (hg : g.Covers n ts) (hc : c.rest <:+ ts)
    (hlength : c.rest.length ≤ g.size + 1) (hop : unaryOp? c.kind = none) {j : Nat} {x : Expr}
    {m : Cursor} (hfinds : c.Finds n ts e m)
    (hpasses : (applied g).Passes (applications g c.here j e) c m)
    (h : applications g c.here j e m = (.ok x, d)) : c.Finds n ts x d := by
  induction j generalizing e m with
  | zero =>
    cases h
    exact hfinds
  | succ j ih =>
    by_cases hk : m.kind.EndsApplications
    · rw [applications_of_ends hk] at h
      cases h
      exact hfinds
    · rw [applications_go hk] at h
      obtain ⟨y, m', hstep, h⟩ := bind_eq_ok h
      obtain ⟨us, htakes, hne, -, -, hexprs⟩ := hfinds
      have hretraces := retraces_applicationStep (b := true) hg.retraces c.here e m.kind
      obtain ⟨vs, hvs, -⟩ := hretraces.takes ((on_of_kind rfl).trans hstep)
      have hm := htakes.length
      have hbuilds := builds_applicationStep hg (htakes.suffix.trans hc) (by omega) hexprs hstep
      have hpasses' := passes_applications hg.retraces hk hstep hpasses
      have htakes' := htakes.trans hvs
      have hne' : us ++ vs ≠ [] := by simp [hne]
      have hspells := spells_of_passes hts hg hc hlength hop htakes' hne' hpasses'
      exact ih (hbuilds.finds hts hc htakes' hne' hspells) hpasses' h

theorem finds_applied (hts : InOrder n ts) (hg : g.Covers n ts) (hc : c.rest <:+ ts)
    (hlength : c.rest.length ≤ g.size + 1) (hop : unaryOp? c.kind = none)
    (h : applied g c = (.ok e, d)) : c.Finds n ts e d := by
  rw [applied, look_bind] at h
  obtain ⟨x, m, hatom, h⟩ := bind_eq_ok h
  have hpasses := passes_atom hg.retraces hatom
  refine finds_applications hts hg hc hlength hop ?_ hpasses h
  rcases atom_cases hg hc hlength hatom with ⟨m', hopen, hoperand, hclose, rfl⟩ | hbuilds
  · have hne := Cursor.rest_ne_nil_of_kind (by simp) hopen
    obtain ⟨hadvance, hless⟩ := advance_within hc hlength hne
    obtain ⟨us, htakes, -, hwritten, -, hexprs⟩ := hg.operand 0 hadvance hless hoperand
    have hne' := Cursor.rest_ne_nil_of_kind (by simp) hclose
    have htakes' : c.Takes (c.current :: (us ++ [m'.current])) m'.advance :=
      (Cursor.Takes.advance hne).trans (htakes.trans (.advance hne'))
    exact ⟨_, htakes', by simp, hwritten.group hopen hclose,
      spells_of_passes hts hg hc hlength hop htakes' (by simp) hpasses, hexprs⟩
  · obtain ⟨us, htakes, hpos⟩ := (retraces_atom (b := true) hg.retraces).takes hatom
    have hne : us ≠ [] := List.ne_nil_of_length_pos hpos
    exact hbuilds.finds hts hc htakes hne
      (spells_of_passes hts hg hc hlength hop htakes hne hpasses)

/-! ### Operators -/

theorem finds_unaryStep (hts : InOrder n ts) (hg : g.Covers n ts) (hc : c.rest <:+ ts)
    (hlength : c.rest.length ≤ g.size + 1) (h : unaryStep g c = (.ok e, d)) :
    c.Finds n ts e d := by
  have hrun := h
  rw [unaryStep, look_bind, look_bind] at h
  cases hop : unaryOp? c.kind with
  | none =>
    rw [hop] at h
    exact finds_applied hts hg hc hlength hop h
  | some op =>
    have hne := Cursor.rest_ne_nil_of_kind (ne_eof_of_unaryOp? hop) rfl
    obtain ⟨hadvance, hless⟩ := advance_within hc hlength hne
    simp only [hop, skip_bind] at h
    obtain ⟨x, m, hunary, h⟩ := bind_eq_ok h
    cases h
    have hexprs := (hg.unary _ _ _ hadvance hless hunary).2.2
    have hretraces := retraces_unaryStep (b := false) hg.retraces
    obtain ⟨us, htakes, hpos⟩ := hretraces.takes hrun
    obtain ⟨o, ho, hod⟩ := hretraces.again (prolonged_of_takes htakes) hrun (Nat.le_refl _)
    have hrest := List.self_eq_append_left.mp hod.rest
    have hbuilds : Builds n ts c (.unary op x (c.here.merge d.last)) d := ⟨rfl, hexprs, nofun⟩
    exact hbuilds.finds hts hc htakes (List.ne_nil_of_length_pos hpos)
      (spells_of_takes hts hg hc hlength htakes (operandStep_of_unaryStep ho hrest) hrest)

theorem passes_unaryStep (hg : g.Retraces) (h : unaryStep g c = (.ok e, d)) :
    (operandStep g 0).Passes (operations g 0 g.size e) c d := by
  intro w o ho hw
  obtain ⟨o', hunary, ho'⟩ := (retraces_unaryStep hg).again ho h hw
  exact ⟨o', ho', bind_of_ok hunary⟩

theorem passes_operations (hg : g.Retraces) {j : Nat} {op : BinaryOp} {x : Expr} {m : Cursor}
    (hop : d.kind.binaryOp? = some op) (h : operationStep g e op d = (.ok x, m))
    (hpasses : (operandStep g 0).Passes (operations g 0 (j + 1) e) c d) :
    (operandStep g 0).Passes (operations g 0 j x) c m := by
  have hretraces :=
    retraces_operationStep (b := true) hg e op (TokenKind.ne_eof_of_binaryOp? hop)
  have hon : on d.kind (operationStep g e op) d = (.ok x, m) := (on_of_kind rfl).trans h
  refine hpasses.trans ((Nat.le_add_right _ _).trans (hretraces.length_le hon)) ?_
  intro w o ho hw
  obtain ⟨o', hstep, ho'⟩ := hretraces.again ho hon hw
  obtain ⟨hkind, hstep⟩ := on_eq_ok hstep
  refine ⟨o', ho', ?_⟩
  rw [operations_go (hkind ▸ hop) (Nat.zero_le _)]
  exact bind_of_ok hstep

/-- In front of the end, what has been read so far is read as an expression. -/
theorem spells_of_passes_operations (hts : InOrder n ts) (hg : g.Covers n ts) (hc : c.rest <:+ ts)
    (hlength : c.rest.length ≤ g.size + 1) {j : Nat} (htakes : c.Takes us d)
    (hpasses : (operandStep g 0).Passes (operations g 0 j e) c d) :
    SpellsExpr c.literals us e := by
  obtain ⟨o, hoperand, ho⟩ := hpasses.ends htakes fun o hk => operations_of_ends (by
    rw [hk]
    exact (TokenKind.endsOperand_eof 0).2)
  exact spells_of_takes hts hg hc hlength htakes hoperand ho

/-- An operation has the tokens of both operands, and between them the operator. -/
theorem finds_operation (hts : InOrder n ts) (hc : c.rest <:+ ts) {op : BinaryOp} {x : Expr}
    {m : Cursor} (hop : m.kind.binaryOp? = some op) (hleft : c.Finds n ts e m)
    (hright : m.advance.Finds n ts x d)
    (hspells : ∀ us, c.Takes us d → SpellsExpr c.literals us
      (.binary op e x (e.span.merge x.span))) :
    c.Finds n ts (.binary op e x (e.span.merge x.span)) d := by
  obtain ⟨us, htakes, -, hwritten, hus, hexprs⟩ := hleft
  obtain ⟨vs, htakes', -, hwritten', hvs, hexprs'⟩ := hright
  have hm := Cursor.rest_ne_nil_of_kind (TokenKind.ne_eof_of_binaryOp? hop) rfl
  have hall : c.Takes (us ++ m.current :: vs) d :=
    htakes.trans ((Cursor.Takes.advance hm).trans htakes')
  have hrun := run_of_takes hc hall
  obtain ⟨ps, ws, qs, hlies, hsplit⟩ := hwritten.operation hop hwritten'
  have hws : ws <:+: ts :=
    List.IsInfix.trans ⟨ps, qs, by rw [hsplit, List.append_assoc]⟩ hrun
  have hinside : (e.span.merge x.span).tokens ts = ws :=
    hts.tokens_of_reaches hws (hlies.reaches (hts.sublist hws.sublist))
  have hreadFrom : (Expr.binary op e x (e.span.merge x.span)).ReadFrom n ts
      (us ++ m.current :: vs) := by
    refine ⟨hrun, ⟨_, hspells _ hall⟩, ⟨ps, qs, ?_, ?_⟩, fun hne => absurd rfl (hne _ _ _ _), ?_⟩
    · rw [Expr.span, hinside, hsplit]
    · rw [Expr.span, hinside]
      exact hlies
    · intro op' left' right' span' heq
      obtain ⟨rfl, rfl, rfl, -⟩ := Expr.binary.inj heq
      exact ⟨us, m.current, vs, rfl, hop, ⟨_, hus⟩, _, hvs⟩
  refine ⟨_, hall, by simp, hsplit ▸ .of_lies hlies, hspells _ hall,
    List.forall_mem_cons.mpr ⟨⟨_, hreadFrom⟩, ?_⟩⟩
  exact List.forall_mem_append.mpr ⟨hexprs, hexprs'⟩

theorem finds_operations (hts : InOrder n ts) (hg : g.Covers n ts) (hc : c.rest <:+ ts)
    (hlength : c.rest.length ≤ g.size + 1) {level j : Nat} {x : Expr} {m : Cursor}
    (hfinds : c.Finds n ts e m)
    (hpasses : (operandStep g 0).Passes (operations g 0 j e) c m)
    (h : operations g level j e m = (.ok x, d)) : c.Finds n ts x d := by
  induction j generalizing e m with
  | zero =>
    cases h
    exact hfinds
  | succ j ih =>
    by_cases hk : ∀ op, m.kind.binaryOp? = some op → op.precedence < level
    · rw [operations_of_ends hk] at h
      cases h
      exact hfinds
    · obtain ⟨op, hop, hlevel⟩ := exists_binaryOp? hk
      rw [operations_go hop hlevel] at h
      obtain ⟨y, m', hstep, h⟩ := bind_eq_ok h
      have hpasses' := passes_operations hg.retraces hop hstep hpasses
      have hspells : ∀ us, c.Takes us m' → SpellsExpr c.literals us y := fun us htakes =>
        spells_of_passes_operations hts hg hc hlength htakes hpasses'
      obtain ⟨us, htakes, -⟩ := id hfinds
      have hm := htakes.length
      obtain ⟨hadvance, hless⟩ := advance_within (m := g.size) (htakes.suffix.trans hc) (by omega)
        (Cursor.rest_ne_nil_of_kind (TokenKind.ne_eof_of_binaryOp? hop) rfl)
      rw [operationStep, skip_bind] at hstep
      obtain ⟨right, m'', hright, hstep⟩ := bind_eq_ok hstep
      cases hstep
      have hfinds' := hg.operand _ hadvance hless hright
      exact ih (finds_operation hts hc hop hfinds hfinds' hspells) hpasses' h

theorem finds_operandStep (hts : InOrder n ts) (hg : g.Covers n ts) (hc : c.rest <:+ ts)
    (hlength : c.rest.length ≤ g.size + 1) {level : Nat} (h : operandStep g level c = (.ok e, d)) :
    c.Finds n ts e d := by
  obtain ⟨left, m, hunary, hoperations⟩ := bind_eq_ok h
  exact finds_operations hts hg hc hlength (finds_unaryStep hts hg hc hlength hunary)
    (passes_unaryStep hg.retraces hunary) hoperations

/-! ### Statements -/

theorem covers_operandStep (hts : InOrder n ts) (hg : g.Covers n ts) (level : Nat) :
    (operandStep g level).Covers ts true (g.size + 1) fun e => ∀ x ∈ e.exprs, x.Readable n ts :=
  fun _ _ _ hc hlength h => (finds_operandStep hts hg hc hlength h).covers

theorem covers_unaryStep (hts : InOrder n ts) (hg : g.Covers n ts) :
    (unaryStep g).Covers ts true (g.size + 1) fun e => ∀ x ∈ e.exprs, x.Readable n ts :=
  fun _ _ _ hc hlength h => (finds_unaryStep hts hg hc hlength h).covers

theorem covers_functionDecl (hg : g.Covers n ts) :
    (functionDecl g).Covers ts true (g.size + 1) fun f => ∀ x ∈ f.exprs, x.Readable n ts :=
  covers_look fun _ => (retraces_word _).covers.then_less fun _ _ => retraces_ident.covers.bind
    fun name _ => covers_functionRest hg name

theorem covers_methodDecl (hg : g.Covers n ts) :
    (methodDecl g).Covers ts true (g.size + 1) fun r => ∀ x ∈ r.2.exprs, x.Readable n ts :=
  covers_look fun _ => (retraces_word _).covers.then_less fun _ _ => (retraces_mark _).covers.bind
    fun _ _ => (retraces_param _).covers.bind fun _ _ => (retraces_mark _).covers.bind fun _ _ =>
      retraces_ident.covers.bind fun name _ => (covers_functionRest hg name).bind fun _ hf =>
        covers_pure hf

theorem covers_initialValues (hg : g.Covers n ts) :
    (initialValues g).Covers ts false g.size fun es => ∀ x ∈ Expr.exprsAll es, x.Readable n ts :=
  (covers_accept _).bind fun _ _ => .ite (.loose (covers_expressions hg)) <|
    (covers_accept _).bind fun _ _ => .ite (.loose (covers_expressions hg)) (covers_pure nofun)

theorem covers_varDecl (hg : g.Covers n ts) :
    (varDecl g).Covers ts true (g.size + 1) fun s => ∀ x ∈ s.exprs, x.Readable n ts :=
  covers_look fun _ => covers_look fun _ => covers_skip.bind fun _ _ =>
    (Retraces.items (fun _ => retraces_varBinder _) _).covers.then_less fun _ _ =>
      (covers_initialValues hg).bind fun _ hvalues => (retraces_spanSince _).covers.bind fun _ _ =>
        covers_pure hvalues

theorem covers_alternative (hg : g.Covers n ts) :
    (alternative g).Covers ts false g.size fun a => ∀ x ∈ a.exprs, x.Readable n ts := by
  refine (covers_accept _).bind fun _ _ => .ite (.loose (covers_look fun _ => .ite ?_ ?_))
    (covers_pure nofun)
  · exact hg.conditional.bind fun _ hnext => covers_pure hnext
  · exact ((covers_block hg).of_le (Nat.le_succ _)).bind fun _ hbody => covers_pure hbody

theorem covers_conditionalStep (hg : g.Covers n ts) :
    (conditionalStep g).Covers ts true (g.size + 1) fun c => ∀ x ∈ c.exprs, x.Readable n ts :=
  covers_look fun _ => (retraces_word _).covers.then_less fun _ _ => (hg.covers 0).bind
    fun _ hcond => ((covers_block hg).of_le (Nat.le_succ _)).bind fun _ hbody =>
      (covers_alternative hg).bind fun _ hotherwise => (retraces_spanSince _).covers.bind
        fun _ _ => covers_pure (List.forall_mem_append.mpr
          ⟨List.forall_mem_append.mpr ⟨hcond, hbody⟩, hotherwise⟩)

theorem covers_returning (hg : g.Covers n ts) :
    (returning g).Covers ts true (g.size + 1) fun s => ∀ x ∈ s.exprs, x.Readable n ts :=
  covers_look fun _ => (retraces_word _).covers.then_less fun _ _ => covers_look fun _ => .ite
    ((retraces_spanSince _).covers.bind fun _ _ => covers_pure nofun)
    (.loose ((hg.covers 0).bind fun _ he => (retraces_spanSince _).covers.bind fun _ _ =>
      covers_pure he))

theorem covers_assignmentOrExpr (hts : InOrder n ts) (hg : g.Covers n ts) :
    (assignmentOrExpr g).Covers ts true (g.size + 1) fun s => ∀ x ∈ s.exprs, x.Readable n ts := by
  have htargets := (covers_operandStep hts hg 0).items g.size
  refine covers_look fun _ => htargets.then_less (r := false) fun targets hall =>
    (covers_accept _).bind fun _ _ => .ite ?_ ?_
  · refine .loose ((covers_expressions hg).bind fun values hvalues =>
      (retraces_spanSince _).covers.bind fun _ _ => covers_pure ?_)
    refine List.forall_mem_append.mpr ⟨?_, hvalues⟩
    rw [Expr.exprsAll_eq_flatMap]
    exact List.forall_mem_flatMap.mpr hall
  · match targets, hall with
    | [], _ | _ :: _ :: _, _ => exact covers_unexpected _
    | [e], hall => exact covers_pure (hall e (List.mem_singleton_self e))

theorem covers_statementBody (hts : InOrder n ts) (hg : g.Covers n ts) :
    (statementBody g).Covers ts true (g.size + 1) fun s => ∀ x ∈ s.exprs, x.Readable n ts := by
  refine covers_look fun kind => ?_
  split
  · exact retraces_importing.covers.map nofun
  · refine covers_look fun _ => .ite ?_ ?_
    · exact (covers_methodDecl hg).bind fun _ hf => covers_pure hf
    · exact (covers_functionDecl hg).map fun _ hf => hf
  · exact covers_varDecl hg
  · exact covers_varDecl hg
  · exact (retraces_typeDecl _).covers.map nofun
  · exact (covers_conditionalStep hg).map fun _ hc => hc
  · exact covers_returning hg
  · exact (covers_block hg).map fun _ hb => hb
  · exact covers_assignmentOrExpr hts hg

theorem covers_statementStep (hts : InOrder n ts) (hg : g.Covers n ts) :
    (statementStep g).Covers ts true (g.size + 1) fun s => ∀ x ∈ s.exprs, x.Readable n ts :=
  (covers_statementBody hts hg).bind fun _ hs => (covers_accept _).bind fun _ _ => covers_pure hs

end Parser

/-- Every expression that a grammar yields can be read again from tokens of the text. -/
theorem Grammar.covers_within {n : Nat} {ts : List Token} (hts : InOrder n ts) (m : Nat) :
    (Grammar.within m).Covers n ts := by
  induction m with
  | zero =>
    exact ⟨retraces_within 0, fun hlength heof h hd => spellsExpr_of_operandStep hlength heof h hd,
      fun _ _ _ _ _ _ => nofun, Parser.covers_fail _, Parser.covers_fail _,
      Parser.covers_unexpected _⟩
  | succ m ih =>
    refine ⟨retraces_within (m + 1), fun hlength heof h hd => ?_,
      fun level _ _ _ hc hlength h => ?_, Parser.covers_unaryStep hts ih,
      Parser.covers_statementStep hts ih, Parser.covers_conditionalStep ih⟩
    · rw [size_within] at hlength
      exact spellsExpr_of_operandStep hlength heof h hd
    · exact Parser.finds_operandStep hts ih hc hlength h

/-! ### Programs -/

/-- The tokens of a text but the end of the file stand one behind the other. -/
theorem Cursor.Spaced.inOrder {n : Nat} {c : Cursor} (h : c.Spaced n)
    (heof : ∀ t ∈ c.rest, t.kind ≠ .eof) : InOrder n c.rest :=
  ⟨heof, h.file, h.nonempty, h.disjoint⟩

theorem Cursor.proper_ofTokens {ts : List Token} :
    ∀ t ∈ (Cursor.ofTokens ts).rest, t.kind ≠ .eof := by
  intro t ht
  simpa using List.mem_takeWhile_imp ht

/-- Every expression of a program can be read again from the tokens of the program. -/
theorem Parser.readable_of_program {n : Nat} {c d : Cursor} {p : Program} (hc : InOrder n c.rest)
    (h : program c = (.ok p, d)) : ∀ e ∈ p.exprs, e.Readable n c.rest := by
  rw [program, look_bind, remaining, look_bind] at h
  obtain ⟨stmts, m, hstmts, h⟩ := bind_eq_ok h
  cases h
  have hg := Grammar.covers_within hc c.rest.length
  have hsize : c.rest.length ≤ (Grammar.within c.rest.length).size :=
    Nat.le_of_eq (Grammar.size_within _).symm
  exact (covers_statements hg.statement _ _ _ _ _ (List.suffix_refl _) hsize hstmts).2.2

/-- The end of the file does not matter. -/
theorem Span.tokens_append_eof (s : Span) (ts : List Token) {t : Token} (ht : t.kind = .eof) :
    s.tokens (ts ++ [t]) = s.tokens ts := by
  simp [Span.tokens, ht]

theorem Expr.ReadFrom.append_eof {n : Nat} {ts us : List Token} {e : Expr} {t : Token}
    (ht : t.kind = .eof) (h : e.ReadFrom n ts us) : e.ReadFrom n (ts ++ [t]) us := by
  have htokens := Span.tokens_append_eof e.span ts ht
  have hrun : us <:+: ts ++ [t] := h.run.trans (List.prefix_append ts [t]).isInfix
  exact ⟨hrun, h.spells, by simpa only [htokens] using h.lies,
    by simpa only [htokens] using h.exact, h.operands⟩

/-! ### The tokens inside a span -/

/-- Whatever is read as an expression is written with all of its tokens. -/
theorem SpellsExpr.written {n k : Nat} {us : List Token} {e : Expr} (h : SpellsExpr k us e)
    (hus : InOrder n us) : e.Written n us := by
  obtain ⟨d, hok, hd⟩ := h
  have hrest := Cursor.rest_behindLiterals hus.proper k
  rw [Parser.expression, Parser.remaining, Parser.look_bind, hrest] at hok
  have hlength : (Cursor.behindLiterals k us).rest.length ≤ (Grammar.within us.length).size := by
    rw [hrest, Grammar.size_within]
  have hsuffix : (Cursor.behindLiterals k us).rest <:+ us := ⟨[], hrest⟩
  obtain ⟨vs, htakes, -, hwritten, -⟩ := (Grammar.covers_within hus us.length).operand 0
    hsuffix hlength hok
  have hvs : us = vs := by rw [← hrest, htakes.rest, hd, List.append_nil]
  exact hvs ▸ hwritten

/-- Where parentheses are missing, the tokens inside the span of an expression are not read as it. -/
theorem Expr.ReadFrom.eq_tokens {n k : Nat} {ts us : List Token} {e : Expr} (hts : InOrder n ts)
    (h : e.ReadFrom n ts us) (hspells : SpellsExpr k (e.span.tokens ts) e) :
    us = e.span.tokens ts := by
  obtain ⟨ps, qs, hus, hlies⟩ := h.lies
  generalize e.span.tokens ts = inside at hspells hus hlies
  have hinside : InOrder n inside := (hts.sublist h.run.sublist).sublist (by rw [hus]; simp)
  obtain ⟨ls, ps', us', qs', rs, hparens, hlies', hall⟩ := hspells.written hinside
  have hus' : us' <:+: inside := ⟨ls ++ ps', qs' ++ rs, by rw [hall]; simp⟩
  -- The span reaches over all of these tokens, so there are no parentheses among them.
  obtain rfl := hinside.eq_of_reaches hus' List.infix_rfl
    (hlies'.reaches (hinside.sublist hus'.sublist)) (hlies.reaches hinside)
  obtain ⟨hps, hqs⟩ := hlies.length_eq hlies' hinside
  have hlength := congrArg List.length hall
  simp only [List.length_append] at hlength
  have hnil : ps = [] := List.eq_nil_of_length_eq_zero (by omega)
  have hnil' : qs = [] := List.eq_nil_of_length_eq_zero (by omega)
  rw [hus, hnil, hnil', List.nil_append, List.append_nil]

/--
Every expression of a parsed text can be read again from some of its tokens, which stand next to
each other. The tokens inside the span of the expression are read as it just if they are the same.
For an operation they are not where its first operand or its last one stands in parentheses: of
these, one is outside the span. For all other expressions they are.
-/
theorem readFrom_of_parse {text : String} {n : Nat} {p : Program} {e : Expr}
    (h : parse text n = .ok p) (he : e ∈ p.exprs) :
    ∃ ts us, tokenize text n = .ok ts ∧ e.ReadFrom n ts us ∧
      ((∃ k, SpellsExpr k (e.span.tokens ts) e) ↔ us = e.span.tokens ts) := by
  rw [parse] at h
  cases htokens : tokenize text n with
  | error x =>
    rw [htokens] at h
    cases h
  | ok ts =>
    rw [htokens] at h
    obtain ⟨hspaced, -, hts⟩ := spaced_of_tokenize htokens
    have horder := hspaced.inOrder Cursor.proper_ofTokens
    have hprogram : Parser.program (Cursor.ofTokens ts) =
        (.ok p, (Parser.program (Cursor.ofTokens ts)).2) := Prod.ext h rfl
    obtain ⟨us, hus⟩ := Parser.readable_of_program horder hprogram e he
    refine ⟨ts, us, rfl, ?_⟩
    rw [hts, Span.tokens_append_eof _ _ rfl]
    refine ⟨hus.append_eof rfl, ?_, fun heq => heq ▸ hus.spells⟩
    rintro ⟨k, hspells⟩
    exact hus.eq_tokens horder hspells

/-- The expression `(a) + b`: its span starts behind the parenthesis in front of `a`. -/
def groupedSum : Expr :=
  .binary .add (.ident ⟨"a", ⟨1, 2, 4⟩⟩) (.ident ⟨"b", ⟨6, 7, 4⟩⟩) ⟨1, 7, 4⟩

theorem readFrom_groupedSum :
    parse "(a) + b" 4 = .ok ⟨[.expr groupedSum], ⟨0, 7, 4⟩⟩ ∧
      ∃ ts us, tokenize "(a) + b" 4 = .ok ts ∧ groupedSum.ReadFrom 4 ts us ∧
        ((∃ k, SpellsExpr k (groupedSum.span.tokens ts) groupedSum) ↔
          us = groupedSum.span.tokens ts) := by
  have htokens : tokenize "(a) + b" 4 = .ok [⟨.punct .lparen, ⟨0, 1, 4⟩⟩, ⟨.ident "a", ⟨1, 2, 4⟩⟩,
      ⟨.punct .rparen, ⟨2, 3, 4⟩⟩, ⟨.punct .plus, ⟨4, 5, 4⟩⟩, ⟨.ident "b", ⟨6, 7, 4⟩⟩,
      ⟨.eof, ⟨7, 7, 4⟩⟩] := by
    decide +kernel
  have hparse : parse "(a) + b" 4 = .ok ⟨[.expr groupedSum], ⟨0, 7, 4⟩⟩ := by
    rw [parse, htokens]
    rfl
  exact ⟨hparse, readFrom_of_parse hparse (List.mem_cons_self ..)⟩

end Sable
