import Mathlib.Logic.Relation
import Sable.Proofs.Syntax.Retracing

/-!
# Parsers advance

A parser moves a cursor token by token, also where it fails in the end, and no parser turns back. A
parser that has to read a token does so wherever it succeeds. So a parser that is told how many
tokens there are goes no deeper than that: told of more tokens, it does the same. The rules here
pass this on from the parts of a grammar to the whole.
-/

namespace Sable

namespace Cursor

/-- A cursor moves over the next token, or past one more function literal. -/
inductive Moves : Cursor → Cursor → Prop
  /-- The next token is read. -/
  | token {c : Cursor} : c.rest ≠ [] → Moves c c.advance
  /-- A function literal is counted. -/
  | literal (c : Cursor) : Moves c { c with literals := c.literals + 1 }

/-- A cursor gets to another one by moves. -/
def Passes : Cursor → Cursor → Prop := Relation.ReflTransGen Moves

variable {c d e : Cursor}

theorem Passes.refl (c : Cursor) : c.Passes c := Relation.ReflTransGen.refl

theorem Passes.trans (h : c.Passes d) (h' : d.Passes e) : c.Passes e :=
  Relation.ReflTransGen.trans h h'

theorem passes_advance (c : Cursor) : c.Passes c.advance := by
  by_cases h : c.rest = []
  · rw [advance, h]
    exact .refl c
  · exact .single (.token h)

theorem rest_advance_length (h : c.rest ≠ []) : c.advance.rest.length + 1 = c.rest.length :=
  (Takes.advance h).length.symm ▸ Nat.add_comm _ _

end Cursor

namespace Parser

variable {α β : Type}

/--
The parser `p` moves a cursor from token to token, and over a token if it is `strict` and succeeds.
On at most `n` tokens it does the same as the parser `q`.
-/
structure Advances (strict : Bool) (n : Nat) (p q : Parser α) : Prop where
  /-- The cursor is only moved. -/
  passes : ∀ c : Cursor, c.Passes (p c).2
  /-- A strict parser reads a token. -/
  reads : ∀ {c a d}, p c = (.ok a, d) → d.rest.length + strict.toNat ≤ c.rest.length
  /-- Both parsers succeed or fail in the same way. -/
  same : ∀ {c}, c.rest.length ≤ n → p c = q c

variable {s r : Bool} {n m : Nat} {p q : Parser α} {f f' : α → Parser β}

/-! ### Rules -/

theorem Advances.of_le (hp : p.Advances s n q) (hmn : m ≤ n) : p.Advances s m q :=
  ⟨hp.passes, hp.reads, fun hc => hp.same (hc.trans hmn)⟩

/-- Whether a parser reads a token may be left open. -/
theorem Advances.loose (hp : p.Advances true n q) : p.Advances false n q :=
  ⟨hp.passes, fun h => (Nat.le_add_right _ _).trans (hp.reads h), hp.same⟩

theorem advances_pure (a : α) : (pure a : Parser α).Advances false n (pure a) :=
  ⟨.refl, by rintro c _ _ ⟨⟩; exact Nat.le_refl _, fun _ => rfl⟩

theorem advances_fail (e : Span → SyntaxError) : (fail e : Parser α).Advances s n (fail e) :=
  ⟨.refl, nofun, fun _ => rfl⟩

theorem advances_unexpected (e : Expectation) :
    (unexpected e : Parser α).Advances s n (unexpected e) := ⟨.refl, nofun, fun _ => rfl⟩

theorem bind_of_error {c d : Cursor} {e : SyntaxError} (h : p c = (.error e, d)) :
    (p >>= f) c = (.error e, d) := by
  simp only [Bind.bind, Parser.bind, h]

/-- The second parser finds fewer tokens if the first one is strict. -/
theorem Advances.seq (hp : p.Advances s n q) (hf : ∀ a, (f a).Advances r m (f' a))
    (hm : n ≤ m + s.toNat) : (p >>= f).Advances (s || r) n (q >>= f') where
  passes c := by
    rcases hpc : p c with ⟨e | a, d⟩
    · rw [bind_of_error hpc]
      exact congrArg Prod.snd hpc ▸ hp.passes c
    · rw [bind_of_ok hpc]
      exact (congrArg Prod.snd hpc ▸ hp.passes c).trans ((hf a).passes d)
  reads {c x e} he := by
    obtain ⟨a, d, hpc, hfd⟩ := bind_eq_ok he
    have hd := hp.reads hpc
    have he' := (hf a).reads hfd
    cases s <;> cases r <;> simp only [Bool.toNat_true, Bool.toNat_false, Bool.or_true,
      Bool.or_false] at hd he' ⊢ <;> omega
  same {c} hc := by
    have hqc := hp.same hc
    rcases hpc : p c with ⟨e | a, d⟩
    · rw [bind_of_error hpc, bind_of_error (hqc ▸ hpc)]
    · have hd := hp.reads hpc
      rw [bind_of_ok hpc, bind_of_ok (hqc ▸ hpc), (hf a).same (by omega)]

theorem Advances.bind (hp : p.Advances s n q) (hf : ∀ a, (f a).Advances r n (f' a)) :
    (p >>= f).Advances (s || r) n (q >>= f') := hp.seq hf (Nat.le_add_right _ _)

/-- The second parser finds one token less. -/
theorem Advances.then_less (hp : p.Advances true (n + 1) q)
    (hf : ∀ a, (f a).Advances r n (f' a)) : (p >>= f).Advances true (n + 1) (q >>= f') :=
  hp.seq hf (Nat.le_refl _)

/-- It is enough that the second parser reads a token. -/
theorem Advances.then (hp : p.Advances s n q) (hf : ∀ a, (f a).Advances true n (f' a)) :
    (p >>= f).Advances true n (q >>= f') := by
  have h := hp.bind hf
  rwa [Bool.or_true] at h

theorem Advances.map {g : α → β} (hp : p.Advances true n q) :
    (g <$> p).Advances true n (g <$> q) := hp.bind fun a => advances_pure (g a)

theorem Advances.ite {b : Prop} [Decidable b] {p' q' : Parser α} (hp : p.Advances s n q)
    (hp' : p'.Advances s n q') :
    (if b then p else p').Advances s n (if b then q else q') := by
  split
  · exact hp
  · exact hp'

/-! ### Looks -/

theorem advances_look {g : Cursor → α} (h : ∀ x, (f x).Advances s n (f' x)) :
    (look g >>= f).Advances s n (look g >>= f') :=
  ⟨fun c => (h (g c)).passes c, fun {c _ _} => (h (g c)).reads, fun {c} => (h (g c)).same⟩

theorem Advances.on {k : TokenKind} (hp : p.Advances s n q) :
    (on k p).Advances s n (on k q) where
  passes c := by
    unfold Parser.on
    split
    · exact hp.passes c
    · exact .refl c
  reads h := hp.reads (on_eq_ok h).2
  same {c} hc := by
    unfold Parser.on
    split
    · exact hp.same hc
    · rfl

/-- What a parser does in front of a token may rest on the kind of the token. -/
theorem advances_kind {f f' : TokenKind → Parser α}
    (h : ∀ k, (on k (f k)).Advances s n (on k (f' k))) :
    (look Cursor.kind >>= f).Advances s n (look Cursor.kind >>= f') := by
  have hon : ∀ {f : TokenKind → Parser α} (c : Cursor),
      (look Cursor.kind >>= f) c = Parser.on c.kind (f c.kind) c :=
    fun c => (look_bind c).trans (on_of_kind rfl).symm
  refine ⟨fun c => ?_, fun {c _ _} hc => ?_, fun {c} hc => ?_⟩
  · rw [hon]
    exact (h c.kind).passes c
  · exact (h c.kind).reads ((hon c).symm.trans hc)
  · rw [hon, hon]
    exact (h c.kind).same hc

/-! ### Single tokens -/

/-- A token is read, of which the kind is known. -/
theorem advances_skip {f f' : Unit → Parser α} {k : TokenKind} (hk : k ≠ .eof)
    (hf : ∀ u, (f u).Advances s n (f' u)) :
    (on k (skip >>= f)).Advances true (n + 1) (on k (skip >>= f')) where
  passes c := by
    unfold on
    split
    · exact c.passes_advance.trans ((hf ()).passes c.advance)
    · exact .refl c
  reads {c a d} h := by
    obtain ⟨hkind, h⟩ := on_eq_ok h
    have hadvance := Cursor.rest_advance_length (Cursor.rest_ne_nil_of_kind hk hkind)
    have hreads := (hf ()).reads (c := c.advance) h
    simp only [Bool.toNat_true]
    omega
  same {c} hc := by
    unfold on
    split
    · next hkind =>
      have hadvance := Cursor.rest_advance_length (Cursor.rest_ne_nil_of_kind hk hkind)
      exact (hf ()).same (c := c.advance) (by omega)
    · rfl

theorem advances_expect {k : TokenKind} (hk : k ≠ .eof) :
    (expect k).Advances true n (expect k) := by
  have h : (on k (skip >>= fun u => pure u)).Advances true (n + 1)
      (on k (skip >>= fun u => pure u)) := advances_skip hk fun u => advances_pure u
  rw [bind_pure] at h
  exact h.of_le (Nat.le_succ n)

theorem advances_mark (mark : Punct) :
    (expect (.punct mark)).Advances true n (expect (.punct mark)) := advances_expect nofun

theorem advances_word (word : Keyword) :
    (expect (.keyword word)).Advances true n (expect (.keyword word)) := advances_expect nofun

theorem advances_ident : ident.Advances true n ident where
  passes c := by
    unfold ident
    split
    · exact c.passes_advance
    · exact .refl c
  reads {c a d} h := by
    obtain ⟨hkind, -, rfl⟩ := ident_eq_ok h
    have hne : c.kind ≠ .eof := by
      rw [hkind]
      nofun
    exact (Cursor.rest_advance_length (Cursor.rest_ne_nil_of_kind hne rfl)).le
  same _ := rfl

/-- A token that may be missing. -/
theorem advances_accept {f f' : Bool → Parser α} {k : TokenKind} (hk : k ≠ .eof) (hm : n ≤ m + 1)
    (hyes : (f true).Advances r m (f' true)) (hno : (f false).Advances s n (f' false)) :
    (accept k >>= f).Advances s n (accept k >>= f') := by
  have hread : (on k (skip >>= fun _ => f true)).Advances true (m + 1)
      (on k (skip >>= fun _ => f' true)) := advances_skip hk fun _ => hyes
  refine ⟨fun c => ?_, fun {c a d} h => ?_, fun {c} hc => ?_⟩ <;> by_cases hkind : c.kind = k
  · exact accept_bind_of_kind hkind ▸ hread.passes c
  · exact accept_bind_of_ne hkind ▸ hno.passes c
  · have hreads := hread.reads ((accept_bind_of_kind hkind).symm.trans h)
    exact (Nat.add_le_add_left (Bool.toNat_le s) _).trans hreads
  · exact hno.reads ((accept_bind_of_ne hkind).symm.trans h)
  · rw [accept_bind_of_kind hkind, accept_bind_of_kind hkind, hread.same (hc.trans hm)]
  · rw [accept_bind_of_ne hkind, accept_bind_of_ne hkind, hno.same hc]

theorem advances_acceptMark {f f' : Bool → Parser α} {mark : Punct} (hm : n ≤ m + 1)
    (hyes : (f true).Advances r m (f' true)) (hno : (f false).Advances s n (f' false)) :
    (accept (.punct mark) >>= f).Advances s n (accept (.punct mark) >>= f') :=
  advances_accept nofun hm hyes hno

theorem advances_acceptWord {f f' : Bool → Parser α} {word : Keyword} (hm : n ≤ m + 1)
    (hyes : (f true).Advances r m (f' true)) (hno : (f false).Advances s n (f' false)) :
    (accept (.keyword word) >>= f).Advances s n (accept (.keyword word) >>= f') :=
  advances_accept nofun hm hyes hno

theorem advances_nextLiteral : nextLiteral.Advances false n nextLiteral :=
  ⟨fun c => .single (.literal c), by rintro c _ _ ⟨⟩; exact Nat.le_refl _, fun _ => rfl⟩

theorem Advances.behindMark {mark : Punct} (hp : p.Advances true n q) :
    (behind (.punct mark) p).Advances false n (behind (.punct mark) q) :=
  advances_acceptMark (Nat.le_succ n) (hp.bind fun a => advances_pure (some a)) (advances_pure none)

theorem Advances.behindWord {word : Keyword} (hp : p.Advances true n q) :
    (behind (.keyword word) p).Advances false n (behind (.keyword word) q) :=
  advances_acceptWord (Nat.le_succ n) (hp.bind fun a => advances_pure (some a)) (advances_pure none)

/-! ### Repetitions -/

/-- Where no token is left, it is enough to know what a parser does at the end of the file. -/
theorem Advances.at_end (hp : p.Advances s 0 p) (h : ∀ c : Cursor, c.kind = .eof → q c = p c) :
    p.Advances s 0 q :=
  ⟨hp.passes, hp.reads, fun {c} hc =>
    (h c (Cursor.kind_of_rest_eq_nil (List.length_eq_zero_iff.mp (Nat.le_zero.mp hc)))).symm⟩

theorem Advances.moreItems {j j' : Nat} (hp : p.Advances true n q) (hj : j ≤ n) (hj' : j ≤ j') :
    (moreItems p j).Advances false j (moreItems q j') := by
  induction j generalizing j' with
  | zero =>
    refine (advances_pure []).at_end fun c hc => ?_
    cases j' with
    | zero => rfl
    | succ j' => simp [Parser.moreItems, accept, Bind.bind, Parser.bind, hc, pure, Parser.pure]
  | succ j ih =>
    obtain _ | j' := j'
    · omega
    refine advances_acceptMark le_rfl (r := true) ?_ (advances_pure [])
    exact (hp.of_le (by omega)).bind fun a => (ih (by omega) (by omega)).bind fun as =>
      advances_pure (a :: as)

theorem Advances.items {j j' : Nat} (hp : p.Advances true n q) (hj : j ≤ n) (hn : n ≤ j + 1)
    (hj' : j ≤ j') : (items j p).Advances true n (items j' q) :=
  hp.seq (fun a => (hp.moreItems hj hj').bind fun as => advances_pure (a :: as)) hn

theorem Advances.itemsBefore {j j' : Nat} {close : TokenKind} (hp : p.Advances true n q)
    (hj : j ≤ n) (hj' : j ≤ j') : (itemsBefore close p j).Advances false j
      (itemsBefore close q j') := by
  induction j generalizing j' with
  | zero =>
    refine (advances_pure []).at_end fun c hc => ?_
    cases j' with
    | zero => rfl
    | succ j' => simp [Parser.itemsBefore, look, Bind.bind, Parser.bind, hc, pure, Parser.pure]
  | succ j ih =>
    obtain _ | j' := j'
    · omega
    refine advances_look fun k => .ite (advances_pure []) (.loose ?_)
    refine (hp.of_le hj).then_less (r := false) fun a => ?_
    refine advances_acceptMark (Nat.le_succ _) (r := false) ?_ (advances_pure [a])
    exact (ih (by omega) (by omega)).bind fun as => advances_pure (a :: as)

theorem Advances.itemsUntil {j' : Nat} {close : Punct} (hp : p.Advances true n q) (hj' : n ≤ j') :
    (itemsUntil n (.punct close) p).Advances true n (itemsUntil j' (.punct close) q) :=
  (hp.itemsBefore le_rfl hj').then fun as => (advances_mark close).bind fun _ => advances_pure as

end Parser

end Sable
