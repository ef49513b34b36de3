import Sable.Proofs.Syntax.Layout
import Sable.Proofs.Token.Respacing
import Sable.Syntax.Grammar

/-!
# Spans nest

The tokens of a text stand one behind the other. A parser gives a node the span from the first
token that it reads to the last one, or the smallest span around two operands; it reads the parts of
a node one behind the other, between these two tokens. So the layout of a parsed text is nested, and
lies in the text.
-/

namespace Sable

open Layout (Fits)

/-! ### Cursors -/

/-- The tokens still to be read stand one behind the other, all of them in front of the end. -/
structure Cursor.Spaced (n : Nat) (c : Cursor) : Prop where
  /-- All of them stand in the file. -/
  file : ∀ t ∈ c.rest, t.span.file = n
  /-- All of them take characters. -/
  nonempty : ∀ t ∈ c.rest, t.span.start < t.span.stop
  /-- Each one ends in front of those behind it. -/
  disjoint : c.rest.Pairwise fun t u => t.span.stop ≤ u.span.start
  /-- Each one ends in front of the end of the file. -/
  before : ∀ t ∈ c.rest, t.span.stop ≤ c.eof.start

/--
Some tokens have been read from a cursor `o` up to a cursor `c`, and the trees made of them lie
between the first and the last of these tokens.
-/
structure Cursor.Read (n : Nat) (o : Cursor) (xs : List Layout) (c : Cursor) : Prop where
  /-- The first token stands in the file. -/
  file : o.here.file = n
  /-- The first token takes characters. -/
  proper : o.here.start < o.here.stop
  /-- The last token does not start in front of the first one. -/
  start : o.here.start ≤ c.last.start
  /-- The last token does not end in front of the end of the first one. -/
  stop : o.here.stop ≤ c.last.stop
  /-- The next token stands behind the last one. -/
  next : c.last.stop ≤ c.here.start
  /-- The end of the file is the same. -/
  eof : c.eof = o.eof
  /-- The trees lie between the first and the last token. -/
  fits : Fits ⟨o.here.start, c.last.stop, n⟩ xs

/-- How far reading has come from a cursor `o`; if it has `moved`, it has read a token. -/
inductive Cursor.Reached (n : Nat) (o : Cursor) : Bool → List Layout → Cursor → Prop
  /-- Nothing has been read. -/
  | here (k : Nat) : o.Spaced n → Reached n o false [] { o with literals := k }
  /-- Some tokens have been read. -/
  | behind {moved : Bool} {xs : List Layout} {c : Cursor} : c.Spaced n → o.Read n xs c →
    Reached n o moved xs c

namespace Cursor

variable {n : Nat} {o c d : Cursor} {moved moved' : Bool} {xs ys : List Layout}

theorem Spaced.advance {t : Token} {rest : List Token} (h : c.Spaced n)
    (hrest : c.rest = t :: rest) : c.advance.Spaced n := by
  obtain ⟨hfile, hnonempty, hdisjoint, hbefore⟩ := h
  rw [hrest] at hfile hnonempty hdisjoint hbefore
  rw [Cursor.advance, hrest]
  exact ⟨(List.forall_mem_cons.mp hfile).2, (List.forall_mem_cons.mp hnonempty).2,
    (List.pairwise_cons.mp hdisjoint).2, (List.forall_mem_cons.mp hbefore).2⟩

/-- The next token is read. -/
theorem Spaced.read_advance {t : Token} {rest : List Token} (h : c.Spaced n)
    (hrest : c.rest = t :: rest) : c.Read n [.leaf c.here] c.advance := by
  have hmem : t ∈ c.rest := hrest ▸ List.mem_cons_self ..
  have hhere : c.here = t.span := by simp [here, current, hrest]
  have hlast : c.advance.last = t.span := by simp [Cursor.advance, hrest]
  have hnext : t.span.stop ≤ c.advance.here.start := by
    have hdisjoint := h.disjoint
    rw [hrest] at hdisjoint
    cases rest with
    | nil => simpa [Cursor.advance, here, current, hrest] using h.before t hmem
    | cons u rest =>
      simpa [Cursor.advance, here, current, hrest] using
        (List.pairwise_cons.mp hdisjoint).1 u (List.mem_cons_self ..)
  have hproper := h.nonempty t hmem
  rw [hhere]
  refine ⟨hhere ▸ h.file t hmem, hhere ▸ hproper, by rw [hhere, hlast], by rw [hhere, hlast],
    hlast ▸ hnext, by simp [Cursor.advance, hrest], .singleton (Layout.nested_leaf hproper) ?_⟩
  rw [hhere, hlast]
  exact ⟨Nat.le_refl _, Nat.le_refl _, h.file t hmem⟩

theorem Read.quiet (h : o.Read n xs c) : o.Read n [] c := { h with fits := .nil }

/-- What is read later stands behind what has been read before. -/
theorem Read.trans (h : o.Read n xs c) (h' : c.Read n ys d) : o.Read n (xs ++ ys) d := by
  have hproper := h'.proper
  have hnext := h.next
  have hstart := h'.start
  have hstop := h'.stop
  refine ⟨h.file, h.proper, ?_, ?_, h'.next, h'.eof.trans h.eof,
    h.fits.append h'.fits ⟨Nat.le_refl _, ?_, rfl⟩ ⟨?_, Nat.le_refl _, rfl⟩ hnext⟩
  · have := h.proper
    have := h.stop
    omega
  · have := h.stop
    omega
  · dsimp
    omega
  · have := h.proper
    have := h.stop
    dsimp
    omega

/-- The span from the first token to the last one is a node around all that has been read. -/
theorem Read.node (h : o.Read n xs c) : o.Read n [.node (o.here.merge c.last) xs] c := by
  have hspan : o.here.merge c.last = ⟨o.here.start, c.last.stop, n⟩ := by
    rw [Span.merge, Nat.min_eq_left h.start, Nat.max_eq_right h.stop, h.file]
  have hproper := h.proper
  have hstop := h.stop
  rw [hspan]
  exact { h with fits := .singleton (h.fits.node (by dsimp; omega)) (.refl _) }

theorem Reached.spaced (h : o.Reached n moved xs c) : c.Spaced n := by
  cases h with
  | here k ho => exact ⟨ho.file, ho.nonempty, ho.disjoint, ho.before⟩
  | behind hc _ => exact hc

theorem Reached.read (h : o.Reached n true xs c) : o.Read n xs c := by
  cases h with
  | behind _ hread => exact hread

/-- Whether anything has been read may be left open. -/
theorem Reached.loose (h : o.Reached n moved xs c) : o.Reached n false xs c := by
  cases h with
  | here k ho => exact .here k ho
  | behind hc hread => exact .behind hc hread

theorem Reached.trans (h : o.Reached n moved xs c) (h' : c.Reached n moved' ys d) :
    o.Reached n (moved || moved') (xs ++ ys) d := by
  cases h' with
  | here k hc =>
    rw [List.append_nil, Bool.or_false]
    cases h with
    | here k' ho => exact .here k ho
    | behind _ hread =>
      exact .behind ⟨hc.file, hc.nonempty, hc.disjoint, hc.before⟩ { hread with }
  | behind hd hread' =>
    cases h with
    | here k ho => exact .behind hd { hread' with }
    | behind hc hread => exact .behind hd (hread.trans hread')

end Cursor

/-! ### Rules -/

namespace Parser

variable {α β : Type}

/--
What a parser yields, started at a cursor, is made of trees that lie between the tokens it reads; if
it has to have `moved`, it reads a token.
-/
def LaysAt (n : Nat) (o : Cursor) (p : Parser α) (moved : Bool) (f : α → List Layout) : Prop :=
  ∀ a d, p o = (.ok a, d) → o.Reached n moved (f a) d

/-- The same of a parser wherever it is started. -/
def Lays (p : Parser α) (moved : Bool) (f : α → List Layout) : Prop :=
  ∀ n o, o.Spaced n → p.LaysAt n o moved f

/-- The same of a parser that goes on from trees read before, since reading started at `o`. -/
def LaysOn (n : Nat) (o : Cursor) (moved : Bool) (xs : List Layout) (p : Parser α) (moved' : Bool)
    (f : α → List Layout) : Prop :=
  ∀ c, o.Reached n moved xs c → ∀ a d, p c = (.ok a, d) → o.Reached n moved' (f a) d

variable {n : Nat} {o : Cursor} {m m' : Bool} {xs : List Layout} {p : Parser α} {q : α → Parser β}
  {f : α → List Layout} {g : β → List Layout}

/-- Trees are read behind those that are there already. -/
theorem Lays.after (hp : p.Lays m' f) : p.LaysOn n o m xs (m || m') fun a => xs ++ f a :=
  fun _ hc a d he => hc.trans (hp n _ hc.spaced a d he)

theorem LaysOn.start (hp : p.LaysOn n o false [] m f) (ho : o.Spaced n) : p.LaysAt n o m f :=
  hp o (.here o.literals ho)

theorem lays_of (h : ∀ n o, p.LaysOn n o false [] m f) : p.Lays m f := fun n o => (h n o).start

/-- The second parser goes on from the trees that the first one has read. -/
theorem LaysOn.bind {m'' : Bool} (hp : p.LaysOn n o m xs m' f)
    (hq : ∀ a, (q a).LaysOn n o m' (f a) m'' g) : (p >>= q).LaysOn n o m xs m'' g := by
  intro c hc b e he
  simp only [Bind.bind, Parser.bind] at he
  rcases hpc : p c with ⟨x | a, d⟩
  · simp [hpc] at he
  · rw [hpc] at he
    exact hq a d (hp c hc a d hpc) b e he

theorem LaysAt.bind (hp : p.LaysAt n o m f) (hq : ∀ a, (q a).LaysOn n o m (f a) m' g) :
    (p >>= q).LaysAt n o m' g := by
  intro b e he
  simp only [Bind.bind, Parser.bind] at he
  rcases hpc : p o with ⟨x | a, d⟩
  · simp [hpc] at he
  · rw [hpc] at he
    exact hq a d (hp a d hpc) b e he

/-- What is put together from trees that have been read has just these for its trees. -/
theorem lays_eq {a : α} (h : f a = xs) : (pure a : Parser α).LaysOn n o m xs m f := by
  intro c hc b d he
  obtain ⟨rfl, rfl⟩ : a = b ∧ c = d := by simpa [pure, Parser.pure] using he
  rwa [h]

theorem LaysOn.map {h : α → β} (hp : p.LaysOn n o m xs m' f) (hg : ∀ a, g (h a) = f a) :
    (h <$> p).LaysOn n o m xs m' g := hp.bind fun a => lays_eq (hg a)

theorem Lays.map {h : α → β} (hp : p.Lays m f) (hg : ∀ a, g (h a) = f a) : (h <$> p).Lays m g :=
  lays_of fun _ _ => LaysOn.map hp.after hg

theorem LaysOn.ite {b : Prop} [Decidable b] {p' : Parser α} (hp : p.LaysOn n o m xs m' f)
    (hp' : p'.LaysOn n o m xs m' f) : (if b then p else p').LaysOn n o m xs m' f := by
  split
  · exact hp
  · exact hp'

/-- Whether a parser reads anything may be left open. -/
theorem LaysOn.loose (hp : p.LaysOn n o m xs m' f) : p.LaysOn n o m xs false f :=
  fun c hc a d he => (hp c hc a d he).loose

theorem lays_fail (e : Span → SyntaxError) : (fail e : Parser α).LaysOn n o m xs m' f := by
  intro c _ a d he
  simp [fail] at he

theorem lays_unexpected (e : Expectation) :
    (unexpected e : Parser α).LaysOn n o m xs m' f := by
  intro c _ a d he
  simp [unexpected] at he

theorem lays_look (h : Cursor → α) : (look h).Lays false fun _ => [] := by
  intro n o ho a d he
  obtain ⟨-, rfl⟩ : h o = a ∧ o = d := by simpa [look] using he
  exact .here o.literals ho

/-- A parser may be told where it stands. -/
theorem lays_here {r : Span → Parser α}
    (h : ∀ n o, (r o.here).LaysOn n o false [] m f) : (look Cursor.here >>= r).Lays m f :=
  fun n o => (h n o).start

/-- A parser may be told where it stands and what comes next. -/
theorem lays_next {r : Span → TokenKind → Parser α}
    (h : ∀ n o, o.Spaced n → (r o.here o.kind).LaysAt n o m f) :
    (look Cursor.here >>= fun start => look Cursor.kind >>= r start).Lays m f := h

/-- The next token is read, unless the tokens are at their end. -/
theorem laysAt_skip (ho : o.Spaced n) (h : o.kind ≠ .eof) :
    skip.LaysAt n o true fun _ => [.leaf o.here] := by
  intro a d he
  obtain rfl : o.advance = d := by simpa [skip] using he
  cases hrest : o.rest with
  | nil => simp [Cursor.kind, Cursor.current, hrest] at h
  | cons t rest => exact .behind (ho.advance hrest) (ho.read_advance hrest)

theorem LaysAt.quiet (hp : p.LaysAt n o true f) : p.LaysAt n o true fun _ => [] := by
  intro a d he
  have h := hp a d he
  exact .behind h.spaced h.read.quiet

theorem lays_skip : skip.Lays false fun _ => [] := by
  intro n o ho a d he
  by_cases h : o.kind = .eof
  · obtain rfl : o.advance = d := by simpa [skip] using he
    cases hrest : o.rest with
    | nil =>
      rw [Cursor.advance, hrest]
      exact .here o.literals ho
    | cons t rest => exact .behind (ho.advance hrest) (ho.read_advance hrest).quiet
  · exact ((laysAt_skip ho h).quiet a d he).loose

theorem lays_expect {k : TokenKind} (hk : k ≠ .eof) : (expect k).Lays true fun _ => [] := by
  intro n o ho a d he
  unfold expect at he
  split at he
  · next h => exact (laysAt_skip ho (h ▸ hk)).quiet a d he
  · simp [unexpected] at he

theorem lays_mark (mark : Punct) : (expect (.punct mark)).Lays true fun _ => [] :=
  lays_expect nofun

theorem lays_word (word : Keyword) : (expect (.keyword word)).Lays true fun _ => [] :=
  lays_expect nofun

theorem lays_accept (k : TokenKind) : (accept k).Lays false fun _ => [] := by
  intro n o ho a d he
  unfold accept at he
  split at he
  · exact lays_skip n o ho () d (by simpa [skip] using (Prod.mk.inj he).2)
  · obtain ⟨-, rfl⟩ := Prod.mk.inj he
    exact .here o.literals ho

theorem lays_ident : ident.Lays true fun name => [name.layout] := by
  intro n o ho a d he
  unfold ident at he
  split at he
  · next name hkind =>
    obtain ⟨rfl, rfl⟩ : (⟨name, o.here⟩ : Ident) = a ∧ o.advance = d := by simpa using he
    exact laysAt_skip ho (by simp [hkind]) () _ rfl
  · simp [fail] at he

/-- The span since the start makes all that has been read the parts of one node. -/
theorem lays_spanSince {r : Span → Parser α}
    (h : ∀ span, (r span).LaysOn n o true [.node span xs] m f) :
    (spanSince o.here >>= r).LaysOn n o true xs m f :=
  fun c hc a d he => h (o.here.merge c.last) c (.behind hc.spaced hc.read.node) a d he

/-- Two operands are the parts of the smallest node around them. -/
theorem LaysOn.merge {x y : Layout}
    (hp : p.LaysOn n o true [.node (x.span.merge y.span) [x, y]] m f) :
    p.LaysOn n o true [x, y] m f :=
  fun c hc => hp c (.behind hc.spaced { hc.read with fits := hc.read.fits.merge })

theorem Lays.behind (hp : p.Lays m f) (mark : TokenKind) :
    (behind mark p).Lays false fun a? => a?.toList.flatMap f := by
  refine lays_of fun n o => (lays_accept mark).after.bind fun _ => .ite ?_ (lays_eq rfl)
  exact .loose (hp.after.bind fun a => lays_eq (by simp))

/-! ### Repetitions -/

theorem Lays.moreItems (hp : p.Lays m f) (k : Nat) :
    (moreItems p k).Lays false fun as => as.flatMap f := by
  induction k with
  | zero => exact lays_of fun _ _ => lays_eq rfl
  | succ k ih =>
    refine lays_of fun n o => (lays_accept _).after.bind fun _ => .ite ?_ (lays_eq rfl)
    exact .loose (hp.after.bind fun a => ih.after.bind fun as => lays_eq (by simp))

theorem Lays.items (hp : p.Lays m f) (k : Nat) : (items k p).Lays m fun as => as.flatMap f := by
  refine lays_of fun n o => hp.after.bind fun a => (hp.moreItems k).after.bind fun as => ?_
  rw [Bool.or_false, Bool.false_or]
  exact lays_eq (by simp)

theorem Lays.itemsUntil (hp : p.Lays m f) (close : Punct) (k : Nat) :
    (itemsUntil k (.punct close) p).Lays true fun as => as.flatMap f := by
  have hbefore : (itemsBefore (.punct close) p k).Lays false fun as => as.flatMap f := by
    induction k with
    | zero => exact lays_of fun _ _ => lays_eq rfl
    | succ k ih =>
      refine lays_of fun n o => (lays_look _).after.bind fun _ => .ite (lays_eq rfl) <|
        hp.after.bind fun a => (lays_accept _).after.bind fun _ => .ite ?_ ?_
      · exact .loose (ih.after.bind fun as => lays_eq (by simp))
      · exact .loose (lays_eq (by simp))
  exact lays_of fun n o => hbefore.after.bind fun as => (lays_mark close).after.bind fun _ =>
    lays_eq (by simp)

/-! ### Types -/

theorem lays_fieldDecl {nested : Parser TypeExpr} (h : nested.Lays true fun ty => [ty.layout]) :
    (fieldDecl nested).Lays true fun field => [field.layout] :=
  lays_here fun _ _ => (lays_accept _).after.bind fun _ => lays_ident.after.bind fun _ =>
    (lays_mark _).after.bind fun _ => h.after.bind fun _ => lays_spanSince fun _ => lays_eq rfl

theorem typeOfName_layout (name : Ident) : (typeOfName name).layout = name.layout := by
  unfold typeOfName
  split <;> rfl

theorem lays_typeWithin (k : Nat) : (typeWithin k).Lays true fun ty => [ty.layout] := by
  induction k with
  | zero => exact lays_of fun _ _ => lays_fail _
  | succ k ih =>
    refine lays_here fun n o => (lays_look _).after.bind fun kind => ?_
    split
    · exact lays_skip.after.bind fun _ => (lays_mark _).after.bind fun _ =>
        ih.after.bind fun _ => lays_spanSince fun _ => lays_eq rfl
    · exact lays_skip.after.bind fun _ => (lays_mark _).after.bind fun _ =>
        ((lays_fieldDecl ih).itemsUntil _ _).after.bind fun fields => lays_spanSince fun _ =>
          lays_eq (by simp [TypeExpr.layout, FieldDecl.layouts_eq_map, List.map_eq_flatMap])
    · refine lays_skip.after.bind fun _ => (lays_mark _).after.bind fun _ =>
        (ih.itemsUntil _ _).after.bind fun params => (ih.behind _).after.bind fun ret =>
          lays_spanSince fun _ => lays_eq ?_
      cases ret <;> simp [TypeExpr.layout, TypeExpr.layouts_eq_map, List.map_eq_flatMap]
    · refine lays_ident.after.bind fun name => (lays_ident.behind _).after.bind fun member? => ?_
      split
      · exact lays_spanSince fun _ => lays_eq rfl
      · exact lays_eq (by simp [typeOfName_layout])
    · exact lays_fail _

theorem lays_param (k : Nat) : (param k).Lays true fun p => [p.layout] :=
  lays_here fun _ _ => lays_ident.after.bind fun _ => (lays_mark _).after.bind fun _ =>
    (lays_typeWithin k).after.bind fun _ => lays_spanSince fun _ => lays_eq rfl

end Parser

/-! ### The grammar -/

/-- The parsers for nested constructs yield the trees of these. -/
structure Grammar.Lays (g : Grammar) : Prop where
  /-- The expressions between operators. -/
  operand : ∀ level, (g.operand level).Lays true fun e => [e.layout]
  /-- The operands. -/
  unary : g.unary.Lays true fun e => [e.layout]
  /-- The statements. -/
  statement : g.statement.Lays true fun s => [s.layout]
  /-- The conditions. -/
  conditional : g.conditional.Lays true fun c => [c.layout]

namespace Parser

variable {n : Nat} {o : Cursor} {m : Bool} {xs : List Layout} {g : Grammar}

/-! ### Blocks and functions -/

theorem lays_statements {stmt : Parser Stmt} (h : stmt.Lays true fun s => [s.layout])
    (close : TokenKind) (k : Nat) : (statements stmt close k).Lays false Stmt.layouts := by
  induction k with
  | zero => exact lays_of fun _ _ => lays_eq rfl
  | succ k ih =>
    refine lays_of fun n o => (lays_look _).after.bind fun _ => .ite (lays_eq rfl) <|
      (lays_accept _).after.bind fun _ => .ite ih.after ?_
    exact .loose (h.after.bind fun s => ih.after.bind fun ss => lays_eq rfl)

theorem lays_block (hg : g.Lays) : (block g).Lays true fun b => [b.layout] :=
  lays_here fun _ _ => (lays_mark _).after.bind fun _ =>
    (lays_statements hg.statement _ _).after.bind fun stmts => (lays_mark _).after.bind fun _ =>
      lays_spanSince fun _ => lays_eq (by simp [Block.layout])

/-- The name of a function has been read before the rest of it, behind the receiver of a method. -/
theorem lays_functionRest (hg : g.Lays) (name : Ident) :
    (functionRest g name o.here).LaysOn n o true (xs ++ [name.layout]) true fun f =>
      [.node f.span (xs ++ f.layouts)] := by
  refine (lays_mark _).after.bind fun _ => ((lays_param _).itemsUntil _ _).after.bind fun params =>
    ((lays_typeWithin _).behind _).after.bind fun ret => (lays_block hg).after.bind fun body =>
      lays_spanSince fun _ => lays_eq ?_
  simp [FunctionDef.layouts, FunctionDef.span, List.map_eq_flatMap]

/-! ### Expressions -/

theorem lays_expressions (hg : g.Lays) : (expressions g).Lays true Expr.layouts := by
  have h := (hg.operand 0).items g.size
  simp only [← List.map_eq_flatMap, ← Expr.layouts_eq_map] at h
  exact h

theorem lays_expressionsUntil (hg : g.Lays) (close : Punct) :
    (expressionsUntil g (.punct close)).Lays false Expr.layouts :=
  lays_of fun _ _ => (lays_accept _).after.bind fun _ => .ite (lays_eq rfl) <| .loose <|
    (lays_expressions hg).after.bind fun _ => (lays_mark _).after.bind fun _ => lays_eq (by simp)

theorem lays_nextLiteral : nextLiteral.Lays false fun _ => [] := by
  intro n o ho a d he
  obtain ⟨-, rfl⟩ := Prod.mk.inj he
  exact .here _ ho

theorem laysAt_literal (value : Literal) (ho : o.Spaced n) (h : o.kind ≠ .eof) :
    (literal value o.here).LaysAt n o true fun e => [e.layout] :=
  (laysAt_skip ho h).bind fun _ => lays_eq rfl

theorem lays_nameExpr :
    (nameExpr o.here).LaysOn n o false [] true fun e => [e.layout] := by
  refine lays_ident.after.bind fun name => (lays_ident.behind _).after.bind fun member? => ?_
  split
  · exact lays_spanSince fun _ => lays_eq rfl
  · exact lays_eq rfl

theorem lays_atom (hg : g.Lays) : (atom g).Lays true fun e => [e.layout] := by
  refine lays_next fun n o ho => ?_
  split
  case h_6 => exact lays_nameExpr.start ho
  case h_7 hkind =>
    exact (laysAt_skip ho (by simp [hkind])).quiet.bind fun _ => (hg.operand 0).after.bind fun _ =>
      (lays_mark _).after.bind fun _ => lays_eq rfl
  case h_8 hkind =>
    exact (laysAt_skip ho (by simp [hkind])).quiet.bind fun _ =>
      (lays_expressionsUntil hg _).after.bind fun _ => lays_spanSince fun _ => lays_eq rfl
  case h_9 hkind =>
    -- The name of a function literal stands at the word that opens it.
    exact (laysAt_skip ho (by simp [hkind])).bind fun _ => lays_nextLiteral.after.bind fun k =>
      (@lays_functionRest _ _ [] _ hg ⟨literalName k, o.here⟩).bind fun f => lays_eq rfl
  case h_10 => exact (lays_fail _).start ho
  all_goals
    next hkind => exact laysAt_literal _ ho (by simp [hkind])

theorem lays_applications (hg : g.Lays) (k : Nat) (e : Expr) :
    (applications g o.here k e).LaysOn n o true [e.layout] true fun e => [e.layout] := by
  induction k generalizing e with
  | zero => exact lays_eq rfl
  | succ k ih =>
    refine (lays_look _).after.bind fun kind => ?_
    split
    · exact lays_skip.after.bind fun _ => (lays_expressionsUntil hg _).after.bind fun args =>
        lays_spanSince fun span => ih (.call e args span)
    · exact lays_skip.after.bind fun _ => lays_ident.after.bind fun field =>
        lays_spanSince fun span => ih (.field e field span)
    · exact lays_skip.after.bind fun _ => (hg.operand 0).after.bind fun index =>
        (lays_mark _).after.bind fun _ => lays_spanSince fun span => ih (.index e index span)
    · exact lays_eq rfl

theorem lays_applied (hg : g.Lays) : (applied g).Lays true fun e => [e.layout] :=
  lays_here fun _ _ => (lays_atom hg).after.bind fun e => lays_applications hg _ e

theorem lays_unaryStep (hg : g.Lays) : (unaryStep g).Lays true fun e => [e.layout] := by
  refine lays_here fun n o => (lays_look _).after.bind fun kind => ?_
  split
  · exact lays_skip.after.bind fun _ => hg.unary.after.bind fun _ => lays_spanSince fun _ =>
      lays_eq rfl
  · exact (lays_applied hg).after

theorem span_layout (e : Expr) : e.layout.span = e.span := by
  cases e <;> rfl

theorem lays_operations (hg : g.Lays) (level k : Nat) (left : Expr) :
    (operations g level k left).LaysOn n o true [left.layout] true fun e => [e.layout] := by
  induction k generalizing left with
  | zero => exact lays_eq rfl
  | succ k ih =>
    refine (lays_look _).after.bind fun kind => ?_
    split
    · next op hop =>
      refine .ite (lays_eq rfl) (lays_skip.after.bind fun _ =>
        (hg.operand _).after.bind fun right => LaysOn.merge ?_)
      have h := ih (.binary op left right (left.span.merge right.span))
      simpa only [Expr.layout, span_layout] using h
    · exact lays_eq rfl

theorem lays_operandStep (hg : g.Lays) (level : Nat) :
    (operandStep g level).Lays true fun e => [e.layout] :=
  lays_of fun _ _ => (lays_unaryStep hg).after.bind fun left => lays_operations hg level _ left

/-! ### Statements -/

theorem lays_importing : importing.Lays true fun i => [i.layout] := by
  refine lays_here fun n o => (lays_word _).after.bind fun _ =>
    (lays_look _).after.bind fun kind => ?_
  split
  · exact lays_skip.after.bind fun _ => (lays_ident.behind _).after.bind fun alias? =>
      lays_spanSince fun _ => lays_eq (by simp [Import.layout, List.map_eq_flatMap])
  · exact lays_unexpected _

theorem lays_functionDecl (hg : g.Lays) :
    (functionDecl g).Lays true fun f => [(Stmt.function f).layout] :=
  lays_here fun _ _ => (lays_word _).after.bind fun _ => lays_ident.after.bind fun name =>
    lays_functionRest hg name

theorem lays_methodDecl (hg : g.Lays) :
    (methodDecl g).Lays true fun r => [(Stmt.method r.1 r.2).layout] :=
  lays_here fun _ _ => (lays_word _).after.bind fun _ => (lays_mark _).after.bind fun _ =>
    (lays_param _).after.bind fun _ => (lays_mark _).after.bind fun _ =>
      lays_ident.after.bind fun name => (lays_functionRest hg name).bind fun _ => lays_eq rfl

theorem lays_varBinder (k : Nat) : (varBinder k).Lays true VarBinder.layouts :=
  lays_of fun _ _ => lays_ident.after.bind fun _ => ((lays_typeWithin k).behind _).after.bind
    fun _ => lays_eq (by simp [VarBinder.layouts, List.map_eq_flatMap])

theorem lays_initialValues (hg : g.Lays) : (initialValues g).Lays false Expr.layouts :=
  lays_of fun _ _ => (lays_accept _).after.bind fun _ =>
    .ite (.loose (lays_expressions hg).after) <| (lays_accept _).after.bind fun _ =>
      .ite (.loose (lays_expressions hg).after) (lays_eq rfl)

theorem lays_varDecl (hg : g.Lays) : (varDecl g).Lays true fun s => [s.layout] :=
  lays_here fun _ _ => (lays_look _).after.bind fun _ => lays_skip.after.bind fun _ =>
    ((lays_varBinder _).items _).after.bind fun _ => (lays_initialValues hg).after.bind fun _ =>
      lays_spanSince fun _ => lays_eq (by simp [Stmt.layout])

theorem lays_typeDecl (k : Nat) : (typeDecl k).Lays true fun d => [d.layout] :=
  lays_here fun _ _ => (lays_word _).after.bind fun _ => lays_ident.after.bind fun _ =>
    (lays_typeWithin k).after.bind fun _ => lays_spanSince fun _ => lays_eq rfl

theorem lays_alternative (hg : g.Lays) : (alternative g).Lays false Alternative.layouts :=
  lays_of fun _ _ => (lays_accept _).after.bind fun _ => .ite
    (.loose <| (lays_look _).after.bind fun _ => .ite
      (hg.conditional.after.bind fun _ => lays_eq rfl)
      ((lays_block hg).after.bind fun _ => lays_eq rfl))
    (lays_eq rfl)

theorem lays_conditionalStep (hg : g.Lays) :
    (conditionalStep g).Lays true fun c => [c.layout] :=
  lays_here fun _ _ => (lays_word _).after.bind fun _ => (hg.operand 0).after.bind fun _ =>
    (lays_block hg).after.bind fun _ => (lays_alternative hg).after.bind fun _ =>
      lays_spanSince fun _ => lays_eq (by simp [Conditional.layout])

theorem lays_returning (hg : g.Lays) : (returning g).Lays true fun s => [s.layout] :=
  lays_here fun _ _ => (lays_word _).after.bind fun _ => (lays_look _).after.bind fun _ => .ite
    (lays_spanSince fun _ => lays_eq rfl)
    ((hg.operand 0).after.bind fun _ => lays_spanSince fun _ => lays_eq rfl)

theorem lays_assignmentOrExpr (hg : g.Lays) :
    (assignmentOrExpr g).Lays true fun s => [s.layout] := by
  have htargets : (items g.size (operandStep g 0)).Lays true Expr.layouts := by
    have h := (lays_operandStep hg 0).items g.size
    simpa only [← List.map_eq_flatMap, ← Expr.layouts_eq_map] using h
  refine lays_here fun n o => htargets.after.bind fun targets => (lays_accept _).after.bind fun _ =>
    .ite ?_ ?_
  · exact (lays_expressions hg).after.bind fun values => lays_spanSince fun _ =>
      lays_eq (by simp [Stmt.layout])
  · split
    · exact lays_eq rfl
    · exact lays_unexpected _

theorem lays_statementStep (hg : g.Lays) : (statementStep g).Lays true fun s => [s.layout] := by
  have hbody : (statementBody g).Lays true fun s => [s.layout] := by
    refine lays_of fun n o => (lays_look _).after.bind fun kind => ?_
    split
    · exact (lays_importing.map fun _ => rfl).after
    · exact (lays_look _).after.bind fun _ => .ite
        ((lays_methodDecl hg).after.bind fun _ => lays_eq rfl)
        ((lays_functionDecl hg).map fun _ => rfl).after
    · exact (lays_varDecl hg).after
    · exact (lays_varDecl hg).after
    · exact ((lays_typeDecl _).map fun _ => rfl).after
    · exact ((lays_conditionalStep hg).map fun _ => rfl).after
    · exact (lays_returning hg).after
    · exact ((lays_block hg).map fun _ => rfl).after
    · exact (lays_assignmentOrExpr hg).after
  exact lays_of fun _ _ => hbody.after.bind fun _ => (lays_accept _).after.bind fun _ => lays_eq rfl

end Parser

/-! ### Programs -/

theorem Grammar.lays_within (k : Nat) : (Grammar.within k).Lays := by
  induction k with
  | zero =>
    exact ⟨fun _ => Parser.lays_of fun _ _ => Parser.lays_fail _,
      Parser.lays_of fun _ _ => Parser.lays_fail _, Parser.lays_of fun _ _ => Parser.lays_fail _,
      Parser.lays_of fun _ _ => Parser.lays_unexpected _⟩
  | succ k ih =>
    exact ⟨Parser.lays_operandStep ih, Parser.lays_unaryStep ih, Parser.lays_statementStep ih,
      Parser.lays_conditionalStep ih⟩

/-- Where the tokens of a text stand once they are to be read. -/
theorem spaced_of_tokenize {text : String} {n : Nat} {ts : List Token}
    (h : tokenize text n = .ok ts) :
    (Cursor.ofTokens ts).Spaced n ∧ (Cursor.ofTokens ts).eof = ⟨text.length, text.length, n⟩ ∧
      ts = (Cursor.ofTokens ts).rest ++ [⟨.eof, (Cursor.ofTokens ts).eof⟩] := by
  have hlaid : Laid n 0 text.toList ts :=
    Lexer.laid_tokensWithin (.ofSource text n) (Nat.le_refl _) h
  have hordered := ordered_tokenize h
  have hdisjoint := hlaid.disjoint
  obtain ⟨init, hts, hinit⟩ := hlaid.final
  have hbounds := hlaid.bounds
  rw [String.length_toList, Nat.zero_add] at hts hbounds
  have hrest : (Cursor.ofTokens ts).rest = init := by
    rw [hts, Cursor.ofTokens, List.takeWhile_append_of_pos fun t ht => by simp [(hinit t ht).1]]
    simp
  have heof : (Cursor.ofTokens ts).eof = ⟨text.length, text.length, n⟩ := by
    have hfind : (init.find? fun t => t.kind = .eof) = none :=
      List.find?_eq_none.mpr fun t ht => by simp [(hinit t ht).1]
    simp [Cursor.ofTokens, Cursor.eofSpan, hts, List.find?_append, hfind]
  have hmem : ∀ t ∈ init, t ∈ ts := fun t ht => hts ▸ List.mem_append_left _ ht
  refine ⟨⟨?_, ?_, ?_, ?_⟩, heof, by rw [hrest, heof, hts]⟩
  · exact hrest ▸ fun t ht => hordered.file t (hmem t ht)
  · exact hrest ▸ fun t ht => (hinit t ht).2
  · rw [hts] at hdisjoint
    exact hrest ▸ (List.pairwise_append.mp hdisjoint).1
  · intro t ht
    rw [heof]
    exact (hbounds t (hmem t (hrest ▸ ht))).2

/-- How the spans of a program lie in the text that it was read from. -/
structure Program.Nests (text : String) (n : Nat) (p : Program) : Prop where
  /--
  Every node takes characters and lies inside the node above it, and the parts of a node stand one
  behind the other. Only the program itself takes none if the text has no tokens.
  -/
  nested : p.layout.Nested ∨ p.stmts = [] ∧ tokenize text n = .ok [⟨.eof, p.span⟩]
  /-- All spans lie in the text and in its file. -/
  inside : ∀ s ∈ p.spans, s.Inside ⟨0, text.length, n⟩

namespace Cursor

variable {n : Nat} {o c : Cursor} {xs : List Layout}

theorem Spaced.here_le (h : c.Spaced n) (heof : c.eof.start = c.eof.stop) :
    c.here.start ≤ c.here.stop ∧ c.here.stop ≤ c.eof.stop := by
  cases hrest : c.rest with
  | nil => simp [here, current, hrest, heof]
  | cons t rest =>
    have hmem : t ∈ c.rest := hrest ▸ List.mem_cons_self ..
    have hproper := h.nonempty t hmem
    have hbefore := h.before t hmem
    have hhere : c.here = t.span := by simp [here, current, hrest]
    rw [hhere]
    omega

theorem Reached.eof {moved : Bool} (h : o.Reached n moved xs c) : c.eof = o.eof := by
  cases h with
  | here k _ => rfl
  | behind _ hread => exact hread.eof

/-- The trees that have been read lie between the first token and the next one. -/
theorem Reached.fits {moved : Bool} (h : o.Reached n moved xs c) (hc : c.here.start ≤ c.here.stop)
    (ho : o.here.file = n) :
    Fits (o.here.merge c.here) xs ∧ o.here.start ≤ c.here.start := by
  cases h with
  | here k _ => exact ⟨.nil, Nat.le_refl _⟩
  | behind _ hread =>
    have hproper := hread.proper
    have hstop := hread.stop
    have hnext := hread.next
    have hle : o.here.start ≤ c.here.start := by omega
    refine ⟨hread.fits.wider ⟨?_, ?_, ho.symm⟩, hle⟩
    · exact Nat.min_le_left _ _
    · exact (hnext.trans hc).trans (Nat.le_max_right _ _)

end Cursor

theorem Parser.reached_of_program {n : Nat} {o d : Cursor} {p : Program} (ho : o.Spaced n)
    (h : program o = (.ok p, d)) :
    o.Reached n false (Stmt.layouts p.stmts) d ∧ p.span = o.here.merge d.here := by
  simp only [program, look, remaining, Bind.bind, Parser.bind] at h
  rcases hss : statements (Grammar.within o.rest.length).statement .eof o.rest.length o with
    ⟨e | stmts, c⟩
  · simp [hss] at h
  · simp only [hss, pure, Parser.pure, Prod.mk.injEq, Except.ok.injEq] at h
    obtain ⟨rfl, rfl⟩ := h
    exact ⟨lays_statements (Grammar.lays_within _).statement _ _ n o ho stmts c hss, rfl⟩

/-- A program without tokens is empty; any other one is nested. -/
theorem Parser.nested_of_program {n : Nat} {o d : Cursor} {p : Program} (ho : o.Spaced n)
    (hfile : o.eof.file = n) (hempty : o.eof.start = o.eof.stop) (h : program o = (.ok p, d)) :
    p.span.Inside ⟨o.here.start, o.eof.stop, n⟩ ∧
      (p.layout.Nested ∨ o.rest = [] ∧ p.stmts = [] ∧ p.span = o.eof) := by
  obtain ⟨hreached, hspan⟩ := reached_of_program ho h
  have heof := hreached.eof
  have hfirst := ho.here_le hempty
  have hnext := hreached.spaced.here_le (by rw [heof, hempty])
  have hhere : o.here.file = n := by
    cases hrest : o.rest with
    | nil => simpa [Cursor.here, Cursor.current, hrest] using hfile
    | cons t rest => simpa [Cursor.here, Cursor.current, hrest] using ho.file t (by simp [hrest])
  obtain ⟨hfits, hle⟩ := hreached.fits hnext.1 hhere
  rw [heof] at hnext
  rw [← hspan] at hfits
  refine ⟨?_, ?_⟩
  · rw [hspan]
    exact ⟨Nat.le_min.mpr ⟨Nat.le_refl _, hle⟩, Nat.max_le.mpr ⟨hfirst.2, hnext.2⟩, hhere⟩
  · cases hrest : o.rest with
    | nil =>
      have hend : o.here = o.eof := by simp [Cursor.here, Cursor.current, hrest]
      right
      generalize hxs : Stmt.layouts p.stmts = xs at hreached
      cases hreached with
      | here k _ =>
        rw [Stmt.layouts_eq_map] at hxs
        exact ⟨rfl, List.map_eq_nil_iff.mp hxs, hspan.trans ((Span.merge_self o.here).trans hend)⟩
      | behind _ hread =>
        have hproper := hread.proper
        rw [hend, hempty] at hproper
        exact absurd hproper (Nat.lt_irrefl _)
    | cons t rest =>
      have hproper := ho.nonempty t (by simp [hrest])
      have hend : o.here = t.span := by simp [Cursor.here, Cursor.current, hrest]
      refine .inl (hfits.node ?_)
      rw [hspan, hend]
      exact Nat.lt_of_le_of_lt (Nat.min_le_left _ _) (hproper.trans_le (Nat.le_max_left _ _))

/-- The spans of a parsed text nest, and lie in the text. -/
theorem nests_of_parse {text : String} {n : Nat} {p : Program} (h : parse text n = .ok p) :
    p.Nests text n := by
  rw [parse] at h
  cases htokens : tokenize text n with
  | error e => simp [htokens, Except.bind] at h
  | ok ts =>
    obtain ⟨ho, heof, hts⟩ := spaced_of_tokenize htokens
    have hprogram : Parser.program (Cursor.ofTokens ts) =
        (.ok p, (Parser.program (Cursor.ofTokens ts)).2) := by
      rw [htokens] at h
      exact Prod.ext h rfl
    obtain ⟨hinside, hnested⟩ :=
      Parser.nested_of_program ho (by rw [heof]) (by rw [heof]) hprogram
    have hspan : p.span.Inside ⟨0, text.length, n⟩ := by
      rw [heof] at hinside
      exact ⟨Nat.zero_le _, hinside.stop, hinside.file⟩
    rcases hnested with hnested | ⟨hrest, hstmts, hend⟩
    · refine ⟨.inl hnested, fun s hs => ?_⟩
      have hmem := (Program.spans_layout p).mem_iff.mpr hs
      exact (hnested.inside_of_mem s hmem).1.trans hspan
    · refine ⟨.inr ⟨hstmts, ?_⟩, fun s hs => ?_⟩
      · rw [htokens, hts, hrest, hend]
        rfl
      · have hs' : s = p.span := by
          simpa [Program.spans, Program.sites, hstmts, Stmt.sitesAll, Site.span] using hs
        exact hs' ▸ hspan

/-- The program `(a)(1) + x[2]`: the call starts at the parenthesis in front of what is called. -/
def callPlusElement : Program :=
  ⟨[.expr (.binary .add
    (.call (.ident ⟨"a", ⟨1, 2, 4⟩⟩) [.literal (.int 1) ⟨4, 5, 4⟩] ⟨0, 6, 4⟩)
    (.index (.ident ⟨"x", ⟨9, 10, 4⟩⟩) (.literal (.int 2) ⟨11, 12, 4⟩) ⟨9, 13, 4⟩)
    ⟨0, 13, 4⟩)], ⟨0, 13, 4⟩⟩

theorem nests_callPlusElement :
    parse "(a)(1) + x[2]" 4 = .ok callPlusElement ∧ callPlusElement.Nests "(a)(1) + x[2]" 4 := by
  have htokens : tokenize "(a)(1) + x[2]" 4 = .ok [⟨.punct .lparen, ⟨0, 1, 4⟩⟩,
    ⟨.ident "a", ⟨1, 2, 4⟩⟩, ⟨.punct .rparen, ⟨2, 3, 4⟩⟩, ⟨.punct .lparen, ⟨3, 4, 4⟩⟩,
    ⟨.int 1, ⟨4, 5, 4⟩⟩, ⟨.punct .rparen, ⟨5, 6, 4⟩⟩, ⟨.punct .plus, ⟨7, 8, 4⟩⟩,
    ⟨.ident "x", ⟨9, 10, 4⟩⟩, ⟨.punct .lbracket, ⟨10, 11, 4⟩⟩, ⟨.int 2, ⟨11, 12, 4⟩⟩,
    ⟨.punct .rbracket, ⟨12, 13, 4⟩⟩, ⟨.eof, ⟨13, 13, 4⟩⟩] := by
    decide +kernel
  have hparse : parse "(a)(1) + x[2]" 4 = .ok callPlusElement := by
    rw [parse, htokens]
    rfl
  exact ⟨hparse, nests_of_parse hparse⟩

end Sable
