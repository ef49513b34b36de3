import Sable.Proofs.Syntax.Performing

/-!
# Tokens behind an expression

A parser that has read some tokens to their end reads the same from them if others follow, unless
it would go on with the first of these. Two parsers are compared: one that is given the tokens alone
and one that is given more tokens, and is therefore told that there may be more. The rules here pass
such a comparison on from the parts of a grammar to the whole.
-/

namespace Sable

/-- The kind of the first of some tokens, which is the end of the file if there is none. -/
def nextOf (w : List Token) : TokenKind := headKind (w.map Token.kind)

/--
A cursor stands in front of the same tokens as another one, with the tokens `w` behind them; if both
are `settled`, they have read the same token last.
-/
structure Cursor.Prolonged (w : List Token) (settled : Bool) (c c' : Cursor) : Prop where
  /-- The tokens. -/
  rest : c'.rest = c.rest ++ w
  /-- The number of function literals met. -/
  literals : c'.literals = c.literals
  /-- The token read last. -/
  last : settled = true → c'.last = c.last

namespace Cursor.Prolonged

variable {w : List Token} {settled : Bool} {c c' : Cursor}

theorem of_rest (h : c'.rest = c.rest ++ w) (h' : c'.literals = c.literals) :
    c.Prolonged w false c' := ⟨h, h', nofun⟩

theorem loose (h : c.Prolonged w true c') : c.Prolonged w settled c' :=
  ⟨h.rest, h.literals, fun _ => h.last rfl⟩

theorem kind_of_nil (h : c.Prolonged w settled c') (hc : c.rest = []) : c'.kind = nextOf w := by
  rw [← c'.headKind_kinds, Cursor.kinds, h.rest, hc, List.nil_append, nextOf]

theorem current_eq (h : c.Prolonged w settled c') (hc : c.rest ≠ []) : c'.current = c.current := by
  obtain ⟨t, ts, hts⟩ := List.exists_cons_of_ne_nil hc
  rw [Cursor.current, Cursor.current, h.rest, hts]
  rfl

theorem kind_eq (h : c.Prolonged w settled c') (hc : c.rest ≠ []) : c'.kind = c.kind :=
  congrArg Token.kind (h.current_eq hc)

theorem here_eq (h : c.Prolonged w settled c') (hc : c.rest ≠ []) : c'.here = c.here :=
  congrArg Token.span (h.current_eq hc)

theorem advance (h : c.Prolonged w settled c') (hc : c.rest ≠ []) :
    c.advance.Prolonged w true c'.advance := by
  obtain ⟨t, ts, hts⟩ := List.exists_cons_of_ne_nil hc
  have hts' : c'.rest = t :: (ts ++ w) := by rw [h.rest, hts, List.cons_append]
  refine ⟨?_, ?_, fun _ => ?_⟩ <;> simp [Cursor.advance, hts, hts', h.literals]

end Cursor.Prolonged

namespace Parser

variable {α β : Type}

/--
On at most `n` tokens, reading a token if it is `strict`, the parser `p` reads what the parser `q`
reads if the tokens `w` follow. Where `p` has read all tokens this may rest on a condition on `w`.
-/
structure Prolongs (w : List Token) (settled strict : Bool) (K : Prop) (n : Nat)
    (p q : Parser α) : Prop where
  /-- A strict parser reads a token. -/
  reads : ∀ {c a d}, c.rest.length ≤ n → p c = (.ok a, d) →
    d.rest.length + strict.toNat ≤ c.rest.length
  /-- Both yield the same. -/
  goes : ∀ {c c' a d}, c.Prolonged w settled c' → c.rest.length ≤ n → p c = (.ok a, d) →
    (d.rest = [] → K) → ∃ d', q c' = (.ok a, d') ∧ d.Prolonged w (strict || settled) d'

variable {w : List Token} {b s r : Bool} {K L : Prop} {n m : Nat} {p q : Parser α}
  {f f' : α → Parser β}

/-! ### Rules -/

theorem Prolongs.mono (hp : p.Prolongs w b s K n q) (hLK : L → K) (hmn : m ≤ n) :
    p.Prolongs w b s L m q :=
  ⟨fun hc => hp.reads (hc.trans hmn),
    fun hc hn hpc hd => hp.goes hc (hn.trans hmn) hpc fun h => hLK (hd h)⟩

theorem Prolongs.of_le (hp : p.Prolongs w b s K n q) (hmn : m ≤ n) : p.Prolongs w b s K m q :=
  hp.mono id hmn

theorem prolongs_pure (a : α) : (pure a : Parser α).Prolongs w b false K n (pure a) := by
  constructor
  · rintro c _ _ - ⟨⟩
    exact Nat.le_refl _
  · rintro c c' _ _ hc - ⟨⟩ -
    exact ⟨c', rfl, hc⟩

theorem prolongs_fail (e : Span → SyntaxError) : (fail e : Parser α).Prolongs w b s K n q :=
  ⟨nofun, nofun⟩

theorem prolongs_unexpected (e : Expectation) :
    (unexpected e : Parser α).Prolongs w b s K n q := ⟨nofun, nofun⟩

/-- A parser that succeeds behind another one does so from where that one stops. -/
theorem bind_eq_ok {c : Cursor} {x : β} {e : Cursor} (h : (p >>= f) c = (.ok x, e)) :
    ∃ a d, p c = (.ok a, d) ∧ f a d = (.ok x, e) := by
  simp only [Bind.bind, Parser.bind] at h
  rcases hpc : p c with ⟨y | a, d⟩
  · simp [hpc] at h
  · exact ⟨a, d, rfl, by simpa [hpc] using h⟩

theorem bind_of_ok {c d : Cursor} {a : α} (h : p c = (.ok a, d)) : (p >>= f) c = f a d := by
  simp only [Bind.bind, Parser.bind, h]

theorem look_bind {f : Cursor → α} {q : α → Parser β} (c : Cursor) :
    (look f >>= q) c = q (f c) c := rfl

/-- The condition on the first of two parsers holds if the second one reads a token. -/
theorem Prolongs.seq (hp : p.Prolongs w b s L n q)
    (hf : ∀ a, (f a).Prolongs w (s || b) r K m (f' a)) (hm : n ≤ m + s.toNat)
    (hKL : r = false → K → L) : (p >>= f).Prolongs w b (s || r) K n (q >>= f') := by
  constructor
  · intro c x e hn he
    obtain ⟨a, d, hpc, hfd⟩ := bind_eq_ok he
    have hd := hp.reads hn hpc
    have he' := (hf a).reads (by omega) hfd
    cases s <;> cases r <;> simp only [Bool.toNat_true, Bool.toNat_false, Bool.or_true,
      Bool.or_false] at hd he' ⊢ <;> omega
  · intro c c' x e hc hn he hK
    obtain ⟨a, d, hpc, hfd⟩ := bind_eq_ok he
    have hd := hp.reads hn hpc
    have he' := (hf a).reads (by omega) hfd
    have hL : d.rest = [] → L := by
      intro hnil
      rw [hnil, List.length_nil] at he'
      have hr : r = false := by
        cases r
        · rfl
        · simp at he'
      exact hKL hr (hK (List.length_eq_zero_iff.mp (by omega)))
    obtain ⟨d', hq, hdd'⟩ := hp.goes hc hn hpc hL
    obtain ⟨e', hf', hee'⟩ := (hf a).goes hdd' (by omega) hfd hK
    refine ⟨e', (bind_of_ok hq).trans hf', ?_⟩
    rwa [← Bool.or_assoc, Bool.or_comm r s] at hee'

/-- The second parser may read nothing. -/
theorem Prolongs.bind (hp : p.Prolongs w b s K n q)
    (hf : ∀ a, (f a).Prolongs w (s || b) r K n (f' a)) :
    (p >>= f).Prolongs w b (s || r) K n (q >>= f') :=
  hp.seq hf (Nat.le_add_right _ _) fun _ => id

/-- The second parser reads a token. -/
theorem Prolongs.then (hp : p.Prolongs w b s L n q)
    (hf : ∀ a, (f a).Prolongs w (s || b) true K n (f' a)) :
    (p >>= f).Prolongs w b true K n (q >>= f') := by
  have h := hp.seq hf (Nat.le_add_right _ _) nofun
  rwa [Bool.or_true] at h

/-- The second parser finds one token less. -/
theorem Prolongs.then_less (hp : p.Prolongs w b true L (n + 1) q)
    (hf : ∀ a, (f a).Prolongs w true s K n (f' a)) (hKL : s = false → K → L) :
    (p >>= f).Prolongs w b true K (n + 1) (q >>= f') :=
  hp.seq hf (Nat.le_refl _) hKL

theorem Prolongs.map {g : α → β} (hp : p.Prolongs w b true K n q) :
    (g <$> p).Prolongs w b true K n (g <$> q) := hp.bind fun a => prolongs_pure (g a)

theorem Prolongs.ite {c : Prop} [Decidable c] {p' q' : Parser α} (hp : p.Prolongs w b s K n q)
    (hp' : p'.Prolongs w b s K n q') :
    (if c then p else p').Prolongs w b s K n (if c then q else q') := by
  split
  · exact hp
  · exact hp'

/-- Whether a parser reads a token may be left open. -/
theorem Prolongs.loose (hp : p.Prolongs w b true K n q) : p.Prolongs w b false K n q := by
  constructor
  · intro c a d hn hpc
    exact (Nat.le_add_right _ _).trans (hp.reads hn hpc)
  · intro c c' a d hc hn hpc hK
    obtain ⟨d', hq, hd⟩ := hp.goes hc hn hpc hK
    exact ⟨d', hq, hd.loose⟩

/-- Where a parser reads a token, or may not come to the end of the tokens, there is one. -/
theorem Prolongs.rest_ne_nil {c d : Cursor} {a : α} (hp : p.Prolongs w b s K n q)
    (hK : s = false → ¬ K) (hn : c.rest.length ≤ n) (hpc : p c = (.ok a, d))
    (hd : d.rest = [] → K) : c.rest ≠ [] := by
  intro hnil
  have hlength := hp.reads hn hpc
  rw [hnil, List.length_nil] at hlength
  cases s
  · exact hK rfl (hd (List.length_eq_zero_iff.mp (by omega)))
  · simp at hlength

/-! ### Looks -/

theorem prolongs_here {f f' : Span → Parser α} (hK : s = false → ¬ K)
    (h : ∀ x, (f x).Prolongs w b s K n (f' x)) :
    (look Cursor.here >>= f).Prolongs w b s K n (look Cursor.here >>= f') := by
  constructor
  · intro c a d
    exact (h c.here).reads
  · intro c c' a d hc hn hpc hd
    have hne := (h c.here).rest_ne_nil hK hn hpc hd
    have hgoes := (h c.here).goes hc hn hpc hd
    rwa [← hc.here_eq hne] at hgoes

/-- A parser that may be started in front of tokens of one kind only. -/
def on (k : TokenKind) (p : Parser α) : Parser α := fun c =>
  if c.kind = k then p c else unexpected (.token k) c

theorem on_eq_ok {k : TokenKind} {c d : Cursor} {a : α} (h : on k p c = (.ok a, d)) :
    c.kind = k ∧ p c = (.ok a, d) := by
  unfold on at h
  split at h
  · next hk => exact ⟨hk, h⟩
  · cases h

theorem on_of_kind {k : TokenKind} {c : Cursor} (h : c.kind = k) : on k p c = p c := if_pos h

theorem prolongs_kind {f f' : TokenKind → Parser α} (hK : s = false → ¬ K)
    (h : ∀ k, (on k (f k)).Prolongs w b s K n (on k (f' k))) :
    (look Cursor.kind >>= f).Prolongs w b s K n (look Cursor.kind >>= f') := by
  have hon : ∀ {f : TokenKind → Parser α} {c : Cursor}, on c.kind (f c.kind) c = f c.kind c := by
    intro f c
    simp [on]
  constructor
  · intro c a d hn hpc
    exact (h c.kind).reads hn (hon.trans hpc)
  · intro c c' a d hc hn hpc hd
    have hne := (h c.kind).rest_ne_nil hK hn (hon.trans hpc) hd
    have hgoes := (h c.kind).goes hc hn (hon.trans hpc) hd
    rw [← hc.kind_eq hne, hon] at hgoes
    exact hgoes

theorem Prolongs.on {k : TokenKind} (hp : p.Prolongs w b s K n q) (hK : s = false → ¬ K) :
    (on k p).Prolongs w b s K n (on k q) := by
  constructor
  · intro c a d hn hpc
    exact hp.reads hn (on_eq_ok hpc).2
  · intro c c' a d hc hn hpc hd
    obtain ⟨hk, hpc⟩ := on_eq_ok hpc
    have hne := hp.rest_ne_nil hK hn hpc hd
    obtain ⟨d', hq, hdd'⟩ := hp.goes hc hn hpc hd
    exact ⟨d', by rw [Parser.on, if_pos ((hc.kind_eq hne).trans hk), hq], hdd'⟩

theorem prolongs_nextKind {f f' : TokenKind → Parser α}
    (h : ∀ k, (f k).Prolongs w b true False n (f' k)) :
    (look Cursor.nextKind >>= f).Prolongs w b true False n (look Cursor.nextKind >>= f') := by
  constructor
  · intro c a d
    exact (h c.nextKind).reads
  · intro c c' a d hc hn hpc hd
    have hlength := (h c.nextKind).reads hn hpc
    have hpos : d.rest.length ≠ 0 := fun h0 => hd (List.length_eq_zero_iff.mp h0)
    have hnext : c'.nextKind = c.nextKind := by
      rw [Cursor.nextKind, Cursor.nextKind, hc.rest]
      rcases hrest : c.rest with _ | ⟨_, _ | ⟨_, _⟩⟩
      · simp [hrest] at hlength
      · rw [hrest] at hlength
        simp only [Bool.toNat_true, List.length_singleton] at hlength
        omega
      · rfl
    have hgoes := (h c.nextKind).goes hc hn hpc hd
    rwa [← hnext] at hgoes

/-! ### Single tokens -/

/-- A token is read, of which the kind is known. -/
theorem prolongs_skip {f f' : Unit → Parser α} {k : TokenKind} (hk : k ≠ .eof)
    (hf : ∀ u, (f u).Prolongs w true s K n (f' u)) :
    (on k (skip >>= f)).Prolongs w b true K (n + 1) (on k (skip >>= f')) := by
  have hne : ∀ {c : Cursor}, c.kind = k → c.rest ≠ [] := by
    intro c hkind hnil
    simp [Cursor.kind, Cursor.current, hnil] at hkind
    exact hk hkind.symm
  have hof : ∀ {c a d}, on k (skip >>= f) c = (.ok a, d) →
      c.kind = k ∧ f () c.advance = (.ok a, d) := on_eq_ok
  have hadvance : ∀ {c : Cursor}, c.kind = k → c.advance.rest.length + 1 = c.rest.length := by
    intro c hkind
    obtain ⟨t, ts, hts⟩ := List.exists_cons_of_ne_nil (hne hkind)
    simp [Cursor.advance, hts]
  constructor
  · intro c a d hn hpc
    obtain ⟨hkind, hpc⟩ := hof hpc
    have hlength := hadvance hkind
    have hreads := (hf ()).reads (by omega) hpc
    simp only [Bool.toNat_true]
    omega
  · intro c c' a d hc hn hpc hd
    obtain ⟨hkind, hpc⟩ := hof hpc
    have hlength := hadvance hkind
    obtain ⟨d', hq, hdd'⟩ := (hf ()).goes (hc.advance (hne hkind)) (by omega) hpc hd
    refine ⟨d', ?_, by rw [Bool.or_true] at hdd'; exact hdd'.loose⟩
    rw [on, if_pos ((hc.kind_eq (hne hkind)).trans hkind)]
    exact hq

theorem prolongs_expect {k : TokenKind} (hk : k ≠ .eof) :
    (expect k).Prolongs w b true K n (expect k) := by
  have h : (on k (skip >>= fun u => pure u)).Prolongs w b true K (n + 1)
      (on k (skip >>= fun u => pure u)) := prolongs_skip hk fun u => prolongs_pure u
  rw [bind_pure] at h
  exact h.of_le (Nat.le_succ n)

theorem ident_eq_ok {c d : Cursor} {a : Ident} (h : ident c = (.ok a, d)) :
    c.kind = .ident a.name ∧ a.span = c.here ∧ d = c.advance := by
  unfold ident at h
  split at h
  · next name hkind =>
    obtain ⟨rfl, rfl⟩ : (⟨name, c.here⟩ : Ident) = a ∧ c.advance = d := by simpa using h
    exact ⟨hkind, rfl, rfl⟩
  · simp [fail] at h

theorem prolongs_ident : ident.Prolongs w b true K n ident := by
  have hne : ∀ {c : Cursor} {x}, c.kind = .ident x → c.rest ≠ [] := by
    intro c x hkind hnil
    simp [Cursor.kind, Cursor.current, hnil] at hkind
  constructor
  · intro c a d _ hpc
    obtain ⟨hkind, -, rfl⟩ := ident_eq_ok hpc
    obtain ⟨t, ts, hts⟩ := List.exists_cons_of_ne_nil (hne hkind)
    simp [Cursor.advance, hts]
  · intro c c' a d hc _ hpc _
    obtain ⟨hkind, hspan, rfl⟩ := ident_eq_ok hpc
    have hcne := hne hkind
    refine ⟨c'.advance, ?_, hc.advance hcne⟩
    rw [ident, hc.kind_eq hcne, hkind, hc.here_eq hcne, ← hspan]

theorem prolongs_mark (mark : Punct) :
    (expect (.punct mark)).Prolongs w b true K n (expect (.punct mark)) := prolongs_expect nofun

theorem prolongs_word (word : Keyword) :
    (expect (.keyword word)).Prolongs w b true K n (expect (.keyword word)) :=
  prolongs_expect nofun

theorem accept_bind_of_kind {f : Bool → Parser α} {k : TokenKind} {c : Cursor}
    (hkind : c.kind = k) : (accept k >>= f) c = on k (skip >>= fun _ => f true) c := by
  simp only [accept, on, Bind.bind, Parser.bind, hkind, ↓reduceIte, skip]

theorem accept_bind_of_ne {f : Bool → Parser α} {k : TokenKind} {c : Cursor}
    (hkind : c.kind ≠ k) : (accept k >>= f) c = f false c := by
  simp only [accept, Bind.bind, Parser.bind, hkind, ↓reduceIte]

/-- A token that may be missing: it must not be the first one that follows. -/
theorem prolongs_accept {f f' : Bool → Parser α} {k : TokenKind} (hk : k ≠ .eof) (hm : n ≤ m + 1)
    (hyes : (f true).Prolongs w true r K m (f' true))
    (hno : (f false).Prolongs w b s K n (f' false)) (hK : s = false → K → nextOf w ≠ k) :
    (accept k >>= f).Prolongs w b s K n (accept k >>= f') := by
  have hread : (on k (skip >>= fun _ => f true)).Prolongs w b true K (m + 1)
      (on k (skip >>= fun _ => f' true)) := prolongs_skip hk fun _ => hyes
  constructor
  · intro c a d hn hpc
    by_cases hkind : c.kind = k
    · rw [accept_bind_of_kind hkind] at hpc
      have hlength := hread.reads (hn.trans hm) hpc
      exact (Nat.add_le_add_left (Bool.toNat_le s) _).trans hlength
    · rw [accept_bind_of_ne hkind] at hpc
      exact hno.reads hn hpc
  · intro c c' a d hc hn hpc hd
    by_cases hkind : c.kind = k
    · rw [accept_bind_of_kind hkind] at hpc
      have hne := hread.rest_ne_nil (by simp) (hn.trans hm) hpc hd
      obtain ⟨d', hq, hdd'⟩ := hread.goes hc (hn.trans hm) hpc hd
      exact ⟨d', (accept_bind_of_kind ((hc.kind_eq hne).trans hkind)).trans hq, hdd'.loose⟩
    · rw [accept_bind_of_ne hkind] at hpc
      obtain ⟨d', hq, hdd'⟩ := hno.goes hc hn hpc hd
      refine ⟨d', (accept_bind_of_ne fun hkind' => ?_).trans hq, hdd'⟩
      by_cases hne : c.rest = []
      · have hlength := hno.reads hn hpc
        rw [hne, List.length_nil] at hlength
        have hs : s = false := by
          cases s
          · rfl
          · simp at hlength
        have hnil : d.rest = [] := List.length_eq_zero_iff.mp (by omega)
        exact hK hs (hd hnil) ((hc.kind_of_nil hne).symm.trans hkind')
      · exact hkind ((hc.kind_eq hne).symm.trans hkind')

theorem prolongs_spanSince (start : Span) :
    (spanSince start).Prolongs w true false K n (spanSince start) := by
  constructor
  · rintro c _ _ - ⟨⟩
    exact Nat.le_refl _
  · rintro c c' _ _ hc - ⟨⟩ -
    exact ⟨c', by rw [spanSince, look, hc.last rfl], hc⟩

theorem prolongs_nextLiteral : nextLiteral.Prolongs w b false K n nextLiteral := by
  constructor
  · rintro c _ _ - ⟨⟩
    exact Nat.le_refl _
  · rintro c c' _ _ hc - ⟨⟩ -
    refine ⟨{ c' with literals := c'.literals + 1 }, by rw [nextLiteral, hc.literals], hc.rest, ?_,
      hc.last⟩
    exact congrArg (· + 1) hc.literals

theorem Prolongs.behind {mark : TokenKind} (hp : p.Prolongs w true true K n q)
    (hmark : mark ≠ .eof) (hK : K → nextOf w ≠ mark) :
    (behind mark p).Prolongs w b false K n (behind mark q) :=
  prolongs_accept hmark (Nat.le_succ n) (hp.bind fun a => prolongs_pure (some a))
    (prolongs_pure none) fun _ => hK

/-! ### Repetitions -/

/-- Where no token is left, a loop ends, and so does one that finds a token to end with. -/
theorem prolongs_end {a : α} (h : K → ∀ c' : Cursor, c'.kind = nextOf w → q c' = (.ok a, c')) :
    (pure a : Parser α).Prolongs w b false K 0 q := by
  constructor
  · rintro c _ _ - ⟨⟩
    exact Nat.le_refl _
  · rintro c c' _ _ hc hn ⟨⟩ hd
    have hnil := List.length_eq_zero_iff.mp (Nat.le_zero.mp hn)
    exact ⟨c', h (hd hnil) c' (hc.kind_of_nil hnil), hc⟩

theorem prolongs_zero (a : α) : (pure a : Parser α).Prolongs w b false False 0 q :=
  prolongs_end False.elim

/-- A loop that goes on in front of some tokens, and ends in front of all others. -/
theorem prolongs_loop (f f' : TokenKind → Parser α) (Stop : TokenKind → Prop) {a : α}
    (hstop : ∀ k, Stop k → f k = pure a ∧ f' k = pure a)
    (hgo : ∀ k, ¬ Stop k → (on k (f k)).Prolongs w b true K n (on k (f' k)))
    (hK : K → Stop (nextOf w)) :
    (look Cursor.kind >>= f).Prolongs w b false K n (look Cursor.kind >>= f') := by
  have hon : ∀ {f : TokenKind → Parser α} {c : Cursor}, on c.kind (f c.kind) c = f c.kind c := by
    intro f c
    simp [on]
  have hpure : ∀ {f : TokenKind → Parser α} {c : Cursor}, f c.kind = pure a →
      (look Cursor.kind >>= f) c = (.ok a, c) := by
    intro f c h
    simp [look, Bind.bind, Parser.bind, h, pure, Parser.pure]
  constructor
  · intro c x d hn hpc
    by_cases hk : Stop c.kind
    · rw [hpure (hstop _ hk).1] at hpc
      cases hpc
      exact Nat.le_refl _
    · exact (Nat.le_add_right _ _).trans ((hgo _ hk).reads hn (hon.trans hpc))
  · intro c c' x d hc hn hpc hd
    by_cases hk : Stop c.kind
    · rw [hpure (hstop _ hk).1] at hpc
      cases hpc
      refine ⟨c', hpure (hstop _ ?_).2, hc⟩
      by_cases hne : c.rest = []
      · exact hc.kind_of_nil hne ▸ hK (hd hne)
      · exact hc.kind_eq hne ▸ hk
    · have hne := (hgo _ hk).rest_ne_nil nofun hn (hon.trans hpc) hd
      obtain ⟨d', hq, hdd'⟩ := (hgo _ hk).goes hc hn (hon.trans hpc) hd
      rw [← hc.kind_eq hne, hon] at hq
      exact ⟨d', hq, hdd'.loose⟩

theorem Prolongs.moreItems {j j' : Nat} (hp : p.Prolongs w true true False n q) (hj : j ≤ n)
    (hj' : j + w.length ≤ j') :
    (moreItems p j).Prolongs w b false False j (moreItems q j') := by
  induction j generalizing b j' with
  | zero => exact prolongs_zero []
  | succ j ih =>
    obtain _ | j' := j'
    · omega
    refine prolongs_accept nofun le_rfl (r := true) ?_ (prolongs_pure []) fun _ => False.elim
    exact (hp.of_le (by omega)).bind fun a => (ih (by omega) (by omega)).bind fun as =>
      prolongs_pure (a :: as)

theorem Prolongs.items {j j' : Nat} (hp : ∀ b, p.Prolongs w b true False n q) (hj : j ≤ n)
    (hn : n ≤ j + 1) (hj' : j + w.length ≤ j') :
    (items j p).Prolongs w b true False n (items j' q) :=
  (hp b).seq (fun a => ((hp true).moreItems hj hj').bind fun as => prolongs_pure (a :: as)) hn
    fun _ => id

theorem Prolongs.itemsUntil {j' : Nat} {close : Punct}
    (hp : ∀ b, p.Prolongs w b true False n q) (hj' : n + w.length ≤ j') :
    (itemsUntil n (.punct close) p).Prolongs w b true K n (itemsUntil j' (.punct close) q) := by
  have hbefore : ∀ {b j j'}, j ≤ n → j + w.length ≤ j' →
      (itemsBefore (.punct close) p j).Prolongs w b false False j
        (itemsBefore (.punct close) q j') := by
    intro b j
    induction j generalizing b with
    | zero => exact fun _ _ => prolongs_zero []
    | succ j ih =>
      rintro (_ | j') hj hj'
      · omega
      refine prolongs_kind (fun _ => id) fun k => Prolongs.on ?_ fun _ => id
      refine .ite (prolongs_pure []) (.loose ?_)
      refine ((hp b).of_le hj).then_less (s := false) (fun a => ?_) fun _ => id
      refine prolongs_accept nofun (Nat.le_succ _) (r := false) ?_ (prolongs_pure [a])
        fun _ => False.elim
      exact (ih (by omega) (by omega)).bind fun as => prolongs_pure (a :: as)
  exact (hbefore le_rfl hj').then fun as => (prolongs_mark close).bind fun _ => prolongs_pure as

end Parser

end Sable
