import Sable.Proofs.Syntax.Prolonging

/-!
# Reading tokens without those behind them

A parser decides by the next token alone whether it goes on, and at the end of its tokens it stops.
So it reads the same from the tokens that it has read if the tokens behind these are left out, all
of them or the last ones only. The rules here pass this on from the parts of a grammar to the whole.
-/

namespace Sable

namespace Cursor

/-- The tokens `us` have been read from a cursor `c` up to a cursor `d`. -/
structure Takes (c : Cursor) (us : List Token) (d : Cursor) : Prop where
  /-- The tokens stand in front of those that are left. -/
  rest : c.rest = us ++ d.rest
  /-- The token read last is the last one of them, if there is one. -/
  last : d.last = (us.getLast?.map Token.span).getD c.last

namespace Takes

variable {c d e : Cursor} {us vs : List Token}

theorem refl (c : Cursor) : c.Takes [] c := ⟨rfl, rfl⟩

theorem trans (h : c.Takes us d) (h' : d.Takes vs e) : c.Takes (us ++ vs) e := by
  refine ⟨by rw [h.rest, h'.rest, List.append_assoc], ?_⟩
  rw [h'.last, h.last, List.getLast?_append]
  cases vs.getLast? <;> rfl

theorem length (h : c.Takes us d) : c.rest.length = us.length + d.rest.length := by
  rw [h.rest, List.length_append]

theorem suffix (h : c.Takes us d) : d.rest <:+ c.rest := ⟨us, h.rest.symm⟩

theorem advance (h : c.rest ≠ []) : c.Takes [c.current] c.advance := by
  obtain ⟨t, ts, hts⟩ := List.exists_cons_of_ne_nil h
  constructor <;> simp [Cursor.current, Cursor.advance, hts]

end Takes

theorem rest_ne_nil_of_kind {c : Cursor} {k : TokenKind} (hk : k ≠ .eof) (h : c.kind = k) :
    c.rest ≠ [] := by
  intro hnil
  rw [Cursor.kind, Cursor.current, hnil] at h
  exact hk h.symm

theorem kind_of_rest_eq_nil {c : Cursor} (h : c.rest = []) : c.kind = .eof := by
  rw [Cursor.kind, Cursor.current, h]
  rfl

/-- Where some of the further tokens have been read, none but these were left. -/
theorem Prolonged.rest_ne_nil {w : List Token} {settled : Bool} {c c' : Cursor}
    (h : c.Prolonged w settled c') (hw : w.length < c'.rest.length) : c.rest ≠ [] := by
  intro hnil
  rw [h.rest, hnil, List.nil_append] at hw
  exact Nat.lt_irrefl _ hw

end Cursor

namespace Parser

variable {α β : Type}

/--
The parser `p` reads forward, and a token if it is `strict`. What it reads, it reads again where
tokens behind are left out; if it is started `settled`, the token read before is the same one.
-/
structure Retraces (settled strict : Bool) (p : Parser α) : Prop where
  /-- Tokens are read one behind the other. -/
  takes : ∀ {c a d}, p c = (.ok a, d) → ∃ us, c.Takes us d ∧ strict.toNat ≤ us.length
  /-- The tokens `w`, which are not read, may be left out. -/
  again : ∀ {w c c' a d'}, Cursor.Prolonged w settled c c' → p c' = (.ok a, d') →
    w.length ≤ d'.rest.length →
    ∃ d, p c = (.ok a, d) ∧ d.Prolonged w (strict || settled) d'

variable {b s r : Bool} {p : Parser α} {f : α → Parser β}

/-! ### Rules -/

theorem Retraces.length_le {c d : Cursor} {a : α} (hp : p.Retraces b s) (h : p c = (.ok a, d)) :
    d.rest.length + s.toNat ≤ c.rest.length := by
  obtain ⟨us, hus, hs⟩ := hp.takes h
  have := hus.length
  omega

theorem retraces_pure (a : α) : (pure a : Parser α).Retraces b false := by
  constructor
  · rintro c _ _ ⟨⟩
    exact ⟨[], .refl c, Nat.le_refl _⟩
  · rintro w c c' _ _ hc ⟨⟩ -
    exact ⟨c, rfl, hc⟩

theorem retraces_fail (e : Span → SyntaxError) : (fail e : Parser α).Retraces b s :=
  ⟨nofun, nofun⟩

theorem retraces_unexpected (e : Expectation) : (unexpected e : Parser α).Retraces b s :=
  ⟨nofun, nofun⟩

theorem Retraces.bind (hp : p.Retraces b s) (hf : ∀ a, (f a).Retraces (s || b) r) :
    (p >>= f).Retraces b (s || r) := by
  constructor
  · intro c x e he
    obtain ⟨a, d, hpc, hfd⟩ := bind_eq_ok he
    obtain ⟨us, hus, hs⟩ := hp.takes hpc
    obtain ⟨vs, hvs, hr⟩ := (hf a).takes hfd
    refine ⟨us ++ vs, hus.trans hvs, ?_⟩
    rw [List.length_append]
    cases s <;> cases r <;> simp_all <;> omega
  · intro w c c' x e' hc he hw
    obtain ⟨a, d', hpc, hfd⟩ := bind_eq_ok he
    have hd' := (hf a).length_le hfd
    obtain ⟨d, hpd, hdd'⟩ := hp.again hc hpc (by omega)
    obtain ⟨e, hfe, hee'⟩ := (hf a).again hdd' hfd hw
    refine ⟨e, (bind_of_ok hpd).trans hfe, ?_⟩
    rwa [← Bool.or_assoc, Bool.or_comm r s] at hee'

theorem Retraces.map {g : α → β} (hp : p.Retraces b true) : (g <$> p).Retraces b true :=
  hp.bind fun a => retraces_pure (g a)

theorem Retraces.ite {c : Prop} [Decidable c] {p' : Parser α} (hp : p.Retraces b s)
    (hp' : p'.Retraces b s) : (if c then p else p').Retraces b s := by
  split
  · exact hp
  · exact hp'

/-- Whether a parser reads a token may be left open. -/
theorem Retraces.loose (hp : p.Retraces b true) : p.Retraces b false := by
  constructor
  · intro c a d hpc
    obtain ⟨us, hus, -⟩ := hp.takes hpc
    exact ⟨us, hus, Nat.zero_le _⟩
  · intro w c c' a d' hc hpc hw
    obtain ⟨d, hpd, hd⟩ := hp.again hc hpc hw
    exact ⟨d, hpd, hd.loose⟩

/-- A parser that reads a token has one to read without those that are left out. -/
theorem Retraces.rest_ne_nil {w : List Token} {c c' d' : Cursor} {a : α} (hp : p.Retraces b true)
    (hc : c.Prolonged w b c') (h : p c' = (.ok a, d')) (hw : w.length ≤ d'.rest.length) :
    c.rest ≠ [] :=
  hc.rest_ne_nil (hw.trans_lt (hp.length_le h))

/-- Two parsers read at least two tokens if both read one. -/
theorem Retraces.two_le {c d : Cursor} {x : β} (hp : p.Retraces b true)
    (hf : ∀ a, (f a).Retraces true true) (h : (p >>= f) c = (.ok x, d)) :
    d.rest.length + 2 ≤ c.rest.length := by
  obtain ⟨a, m, hpc, hfm⟩ := bind_eq_ok h
  have hm := hp.length_le hpc
  have hd := (hf a).length_le hfm
  simp only [Bool.toNat_true] at hm hd
  omega

/-! ### Looks -/

theorem retraces_here {f : Span → Parser α} (h : ∀ x, (f x).Retraces b true) :
    (look Cursor.here >>= f).Retraces b true := by
  constructor
  · intro c a d
    exact (h c.here).takes
  · intro w c c' a d' hc hpc hw
    have hne := (h c'.here).rest_ne_nil hc hpc hw
    obtain ⟨d, hd, hdd'⟩ := (h c'.here).again hc hpc hw
    rw [hc.here_eq hne] at hd
    exact ⟨d, hd, hdd'⟩

theorem on_bind (k : TokenKind) (p : Parser α) (f : α → Parser β) :
    on k (p >>= f) = on k p >>= f := by
  funext c
  by_cases hk : c.kind = k
  · simp only [on, Bind.bind, Parser.bind, hk, ↓reduceIte]
  · simp only [on, Bind.bind, Parser.bind, hk, ↓reduceIte, unexpected]

theorem retraces_kind {f : TokenKind → Parser α} (h : ∀ k, (on k (f k)).Retraces b true) :
    (look Cursor.kind >>= f).Retraces b true := by
  constructor
  · intro c a d hpc
    exact (h c.kind).takes ((on_of_kind rfl).trans hpc)
  · intro w c c' a d' hc hpc hw
    have hon : on c'.kind (f c'.kind) c' = (.ok a, d') := (on_of_kind rfl).trans hpc
    obtain ⟨d, hd, hdd'⟩ := (h c'.kind).again hc hon hw
    obtain ⟨hkind, hd⟩ := on_eq_ok hd
    rw [← hkind] at hd
    exact ⟨d, hd, hdd'⟩

theorem Retraces.on {k : TokenKind} (hp : p.Retraces b true) : (on k p).Retraces b true := by
  constructor
  · intro c a d h
    exact hp.takes (on_eq_ok h).2
  · intro w c c' a d' hc h hw
    obtain ⟨hk, hpc⟩ := on_eq_ok h
    obtain ⟨d, hd, hdd'⟩ := hp.again hc hpc hw
    have hkind := hc.kind_eq (hp.rest_ne_nil hc hpc hw)
    exact ⟨d, (on_of_kind (hkind ▸ hk)).trans hd, hdd'⟩

/-- The second token matters only to a parser that reads two. -/
theorem retraces_nextKind {f : TokenKind → Parser α} (h : ∀ k, (f k).Retraces b true)
    (htwo : ∀ {k c a d}, f k c = (.ok a, d) → d.rest.length + 2 ≤ c.rest.length) :
    (look Cursor.nextKind >>= f).Retraces b true := by
  constructor
  · intro c a d
    exact (h c.nextKind).takes
  · intro w c c' a d' hc hpc hw
    have hlength := htwo hpc
    rw [hc.rest, List.length_append] at hlength
    have hnext : c.nextKind = c'.nextKind := by
      rw [Cursor.nextKind, Cursor.nextKind, hc.rest]
      rcases hrest : c.rest with _ | ⟨_, _ | ⟨_, _⟩⟩
      · rw [hrest, List.length_nil] at hlength
        omega
      · rw [hrest, List.length_singleton] at hlength
        omega
      · rfl
    obtain ⟨d, hd, hdd'⟩ := (h c'.nextKind).again hc hpc hw
    rw [← hnext] at hd
    exact ⟨d, hd, hdd'⟩

/-- A parser that goes on in front of some tokens, but not in front of others or at the end. -/
theorem retraces_cases {q : Parser α} {f : TokenKind → Parser α} (Stop : TokenKind → Prop)
    (hq : q.Retraces b false) (hstop : ∀ c : Cursor, Stop c.kind → p c = q c)
    (hgo : ∀ c : Cursor, ¬ Stop c.kind → p c = f c.kind c)
    (hf : ∀ k, ¬ Stop k → (on k (f k)).Retraces b true) (heof : Stop .eof) :
    p.Retraces b false := by
  have hon : ∀ {c a d}, ¬ Stop c.kind → p c = (.ok a, d) →
      on c.kind (f c.kind) c = (.ok a, d) := by
    intro c a d hk hpc
    rw [on_of_kind rfl, ← hgo c hk, hpc]
  constructor
  · intro c a d hpc
    by_cases hk : Stop c.kind
    · exact hq.takes ((hstop c hk).symm.trans hpc)
    · exact (hf _ hk).loose.takes (hon hk hpc)
  · intro w c c' a d' hc hpc hw
    by_cases hk : Stop c'.kind
    · obtain ⟨d, hd, hdd'⟩ := hq.again hc ((hstop c' hk).symm.trans hpc) hw
      have hk' : Stop c.kind := by
        by_cases hne : c.rest = []
        · rwa [Cursor.kind_of_rest_eq_nil hne]
        · rwa [← hc.kind_eq hne]
      exact ⟨d, (hstop c hk').trans hd, hdd'⟩
    · obtain ⟨d, hd, hdd'⟩ := (hf _ hk).again hc (hon hk hpc) hw
      obtain ⟨hkind, hd⟩ := on_eq_ok hd
      rw [← hkind] at hd hk
      exact ⟨d, (hgo c hk).trans hd, hdd'.loose⟩

theorem retraces_stop {q : Parser α} {f : TokenKind → Parser α} (Stop : TokenKind → Prop)
    (hq : q.Retraces b false) (hstop : ∀ k, Stop k → f k = q)
    (hgo : ∀ k, ¬ Stop k → (on k (f k)).Retraces b true) (heof : Stop .eof) :
    (look Cursor.kind >>= f).Retraces b false :=
  retraces_cases Stop hq (fun c hk => congrFun (hstop _ hk) c) (fun _ _ => rfl) hgo heof

/-! ### Single tokens -/

/-- A token is read, of which the kind is known. -/
theorem retraces_skip {f : Unit → Parser α} {k : TokenKind} (hk : k ≠ .eof)
    (hf : ∀ u, (f u).Retraces true s) : (on k (skip >>= f)).Retraces b true := by
  have hread : ∀ {c a d}, on k (skip >>= f) c = (.ok a, d) →
      c.kind = k ∧ f () c.advance = (.ok a, d) := on_eq_ok
  constructor
  · intro c a d h
    obtain ⟨hkind, hfc⟩ := hread h
    obtain ⟨us, hus, -⟩ := (hf ()).takes hfc
    exact ⟨_, (Cursor.Takes.advance (Cursor.rest_ne_nil_of_kind hk hkind)).trans hus,
      Nat.le_add_left 1 _⟩
  · intro w c c' a d' hc h hw
    obtain ⟨hkind, hfc⟩ := hread h
    have hlength := (hf ()).length_le hfc
    have hadvance := (Cursor.Takes.advance (Cursor.rest_ne_nil_of_kind hk hkind)).length
    rw [List.length_singleton] at hadvance
    have hne := hc.rest_ne_nil (by omega)
    obtain ⟨d, hd, hdd'⟩ := (hf ()).again (hc.advance hne) hfc hw
    refine ⟨d, ?_, by rw [Bool.or_true] at hdd'; exact hdd'.loose⟩
    rw [on_of_kind ((hc.kind_eq hne).symm.trans hkind)]
    exact hd

theorem retraces_expect {k : TokenKind} (hk : k ≠ .eof) : (expect k).Retraces b true := by
  have h : (on k (skip >>= fun u => pure u)).Retraces b true :=
    retraces_skip hk fun u => retraces_pure u
  rwa [bind_pure] at h

theorem retraces_mark (mark : Punct) : (expect (.punct mark)).Retraces b true :=
  retraces_expect nofun

theorem retraces_word (word : Keyword) : (expect (.keyword word)).Retraces b true :=
  retraces_expect nofun

theorem retraces_ident : ident.Retraces b true := by
  constructor
  · intro c a d h
    obtain ⟨hkind, -, rfl⟩ := ident_eq_ok h
    have hne := Cursor.rest_ne_nil_of_kind (by simp) hkind
    exact ⟨_, .advance hne, Nat.le_refl _⟩
  · intro w c c' a d' hc h hw
    obtain ⟨hkind, hspan, rfl⟩ := ident_eq_ok h
    have hne' := Cursor.rest_ne_nil_of_kind (by simp) hkind
    have hadvance := (Cursor.Takes.advance hne').length
    rw [List.length_singleton] at hadvance
    have hne := hc.rest_ne_nil (by omega)
    refine ⟨c.advance, ?_, hc.advance hne⟩
    rw [ident, ← hc.kind_eq hne, hkind, ← hc.here_eq hne, ← hspan]

/-- A token that may be missing. -/
theorem retraces_accept {f : Bool → Parser α} {k : TokenKind} (hk : k ≠ .eof)
    (hyes : (f true).Retraces true r) (hno : (f false).Retraces b s) :
    (accept k >>= f).Retraces b s := by
  have hread : (on k (skip >>= fun _ => f true)).Retraces b true := retraces_skip hk fun _ => hyes
  constructor
  · intro c a d h
    by_cases hkind : c.kind = k
    · obtain ⟨us, hus, hlength⟩ := hread.takes ((accept_bind_of_kind hkind).symm.trans h)
      exact ⟨us, hus, (Bool.toNat_le s).trans hlength⟩
    · exact hno.takes ((accept_bind_of_ne hkind).symm.trans h)
  · intro w c c' a d' hc h hw
    by_cases hkind : c'.kind = k
    · have hon := (accept_bind_of_kind hkind).symm.trans h
      obtain ⟨d, hd, hdd'⟩ := hread.again hc hon hw
      exact ⟨d, (accept_bind_of_kind (on_eq_ok hd).1).trans hd, hdd'.loose⟩
    · obtain ⟨d, hd, hdd'⟩ := hno.again hc ((accept_bind_of_ne hkind).symm.trans h) hw
      refine ⟨d, (accept_bind_of_ne fun hkind' => ?_).trans hd, hdd'⟩
      exact hkind ((hc.kind_eq (Cursor.rest_ne_nil_of_kind hk hkind')).trans hkind')

theorem retraces_spanSince (start : Span) : (spanSince start).Retraces true false := by
  constructor
  · rintro c _ _ ⟨⟩
    exact ⟨[], .refl c, Nat.le_refl _⟩
  · rintro w c c' _ _ hc ⟨⟩ -
    exact ⟨c, by rw [spanSince, look, ← hc.last rfl], hc⟩

theorem retraces_nextLiteral : nextLiteral.Retraces b false := by
  constructor
  · rintro c _ _ ⟨⟩
    exact ⟨[], ⟨rfl, rfl⟩, Nat.le_refl _⟩
  · rintro w c c' _ _ hc ⟨⟩ -
    refine ⟨{ c with literals := c.literals + 1 }, by rw [nextLiteral, hc.literals], hc.rest, ?_,
      hc.last⟩
    exact congrArg (· + 1) hc.literals

theorem Retraces.behind {mark : TokenKind} (hp : p.Retraces true true) (hmark : mark ≠ .eof) :
    (behind mark p).Retraces b false :=
  retraces_accept hmark (hp.bind fun a => retraces_pure (some a)) (retraces_pure none)

/-! ### Repetitions -/

theorem Retraces.moreItems (hp : p.Retraces true true) (n : Nat) :
    (moreItems p n).Retraces b false := by
  induction n generalizing b with
  | zero => exact retraces_pure []
  | succ n ih =>
    refine retraces_accept (r := true) nofun ?_ (retraces_pure [])
    exact hp.bind fun a => ih.bind fun as => retraces_pure (a :: as)

theorem Retraces.items (hp : ∀ b, p.Retraces b true) (n : Nat) : (items n p).Retraces b true :=
  (hp b).bind fun a => ((hp true).moreItems n).bind fun as => retraces_pure (a :: as)

theorem Retraces.itemsUntil (hp : ∀ b, p.Retraces b true) (close : Punct) (n : Nat) :
    (itemsUntil n (.punct close) p).Retraces b true := by
  have hbefore : ∀ {b}, (itemsBefore (.punct close) p n).Retraces b false := by
    induction n with
    | zero => exact retraces_pure []
    | succ n ih =>
      intro b
      refine retraces_stop (fun k => k = .punct close ∨ k = .eof) (retraces_pure [])
        (fun k hk => if_pos hk) (fun k hk => ?_) (.inr rfl)
      rw [if_neg hk]
      refine ((hp b).bind (r := false) fun a => ?_).on
      refine retraces_accept (r := false) nofun ?_ (retraces_pure [a])
      exact ih.bind fun as => retraces_pure (a :: as)
  exact hbefore.bind fun as => (retraces_mark close).bind fun _ => retraces_pure as

end Parser

end Sable
