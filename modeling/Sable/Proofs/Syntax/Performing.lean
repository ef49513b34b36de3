import Sable.Proofs.Syntax.Pending

/-!
# Parsers and the machine

A parser performs a list of parts if it moves as the machine does that has these parts on top of
its stack: where the parser succeeds the parts have been read, and where it fails the machine has
come to a part that cannot stand in front of the next token, and the error is reported there.

A parser is told how many tokens there may be, since that bounds its depth, and which tokens it may
find first. What is said of how many tokens it has read at least lets a loop end in time.
-/

namespace Sable

open Pending

/-- The kinds of the tokens still to be read. -/
def Cursor.kinds (c : Cursor) : List TokenKind := c.rest.map Token.kind

theorem Cursor.headKind_kinds (c : Cursor) : headKind c.kinds = c.kind := by
  rw [headKind, kinds, Cursor.kind, Cursor.current]
  cases c.rest <;> rfl

/-- One cursor is at least `t` tokens ahead of another one in the same tokens. -/
structure Cursor.Reaches (c d : Cursor) (t : Nat) : Prop where
  /-- The tokens behind the one are the last ones behind the other. -/
  rest : d.rest <:+ c.rest
  /-- The tokens end at the same place. -/
  eof : d.eof = c.eof
  /-- Some tokens have been read. -/
  length : d.rest.length + t ≤ c.rest.length

namespace Cursor.Reaches

variable {c d e : Cursor} {t t' : Nat}

theorem refl (c : Cursor) : c.Reaches c 0 := ⟨List.suffix_refl _, rfl, Nat.le_refl _⟩

theorem trans (h : c.Reaches d t) (h' : d.Reaches e t') : c.Reaches e (t + t') := by
  refine ⟨h'.rest.trans h.rest, h'.eof.trans h.eof, ?_⟩
  have := h.length
  have := h'.length
  omega

theorem of_le (h : c.Reaches d t) (ht : t' ≤ t) : c.Reaches d t' :=
  ⟨h.rest, h.eof, (Nat.add_le_add_left ht _).trans h.length⟩

/-- Reading a token moves one token ahead. -/
theorem advance (h : c.kind ≠ .eof) :
    c.Reaches c.advance 1 ∧ c.kinds = c.kind :: c.advance.kinds := by
  cases hrest : c.rest with
  | nil => simp [Cursor.kind, Cursor.current, hrest] at h
  | cons t ts =>
    have hkinds : c.kinds = c.kind :: c.advance.kinds := by
      simp [Cursor.kinds, Cursor.kind, Cursor.current, Cursor.advance, hrest]
    refine ⟨⟨?_, ?_, ?_⟩, hkinds⟩ <;> simp [Cursor.advance, hrest]

end Cursor.Reaches

namespace Parser

variable {α β γ : Type}

instance : LawfulMonad Parser :=
  LawfulMonad.mk' Parser
    (fun p => by
      funext c
      simp only [Functor.map, Parser.bind, Function.comp]
      rcases p c with ⟨_ | _, _⟩ <;> rfl)
    (fun _ _ => rfl)
    (fun p f g => by
      funext c
      simp only [Bind.bind, Parser.bind]
      rcases p c with ⟨_ | _, _⟩ <;> rfl)

/--
A parser performs some parts on at most `n` tokens of which the first satisfies `K`, and reads at
least `t` of them.
-/
structure Performs (p : Parser α) (K : TokenKind → Prop) (n t : Nat) (A : List Pending) :
    Prop where
  /-- A success reads the parts. -/
  ok : ∀ {c a d}, K c.kind → c.rest.length ≤ n → p c = (.ok a, d) →
    c.Reaches d t ∧ ∀ S, Steps (A ++ S, c.kinds) (S, d.kinds)
  /-- A failure comes to a part that cannot stand there. -/
  error : ∀ {c e d}, K c.kind → c.rest.length ≤ n → p c = (.error e, d) →
    c.Reaches d 0 ∧ e.span = d.here ∧
      ∀ S, ∃ X T, Steps (A ++ S, c.kinds) (X :: T, d.kinds) ∧ X.act d.kind = .stop

variable {p : Parser α} {f : α → Parser β} {K L : TokenKind → Prop} {n m t t' : Nat}
  {A B : List Pending} {X Y : Pending} {k : TokenKind}

theorem Performs.mono (hp : p.Performs K n t A) (hKL : ∀ k, L k → K k) (hmn : m ≤ n)
    (ht : t' ≤ t) : p.Performs L m t' A := by
  constructor
  · intro c a d hk hlength hpc
    obtain ⟨hd, hrun⟩ := hp.ok (hKL _ hk) (hlength.trans hmn) hpc
    exact ⟨hd.of_le ht, hrun⟩
  · intro c e d hk hlength hpc
    exact hp.error (hKL _ hk) (hlength.trans hmn) hpc

theorem Performs.weaken (hp : p.Performs K n t A) : p.Performs K n 0 A :=
  hp.mono (fun _ hk => hk) le_rfl (Nat.zero_le t)

theorem Performs.of_le (hp : p.Performs K n t A) (hmn : m ≤ n) : p.Performs K m t A :=
  hp.mono (fun _ hk => hk) hmn le_rfl

theorem Performs.anywhere (hp : p.Performs (fun _ => True) n t A) : p.Performs K n t A :=
  hp.mono (fun _ _ => trivial) le_rfl le_rfl

/-- What one parser reads to the end of some tokens, another one that performs the same reads too. -/
theorem Performs.exists_ok {q : Parser β} (hp : p.Performs K n t A) (hq : q.Performs L m t' A)
    {c c' d : Cursor} {a : α} (hK : K c.kind) (hL : L c'.kind) (hn : c.rest.length ≤ n)
    (hm : c'.rest.length ≤ m) (hkinds : c'.kinds = c.kinds) (h : p c = (.ok a, d))
    (hd : d.rest = []) : ∃ b d', q c' = (.ok b, d') ∧ d'.rest = [] := by
  have hrun := (hp.ok hK hn h).2 []
  have hend : d.kinds = [] := by rw [Cursor.kinds, hd, List.map_nil]
  rw [hend, ← hkinds] at hrun
  rcases hres : q c' with ⟨x | b, d'⟩
  · obtain ⟨-, -, hstop⟩ := hq.error hL hm hres
    obtain ⟨X, T, hrun', hact⟩ := hstop []
    have hnext := next_of_stop (S := T) (by rwa [d'.headKind_kinds])
    cases Steps.end_unique hrun' hrun hnext rfl
  · have heq := Steps.end_unique ((hq.ok hL hm hres).2 []) hrun rfl rfl
    exact ⟨b, d', rfl, List.map_eq_nil_iff.mp (Prod.mk.inj heq).2⟩

theorem performs_pure (a : α) : (pure a : Parser α).Performs K n 0 [] := by
  constructor
  · rintro c a d - - ⟨⟩
    exact ⟨.refl c, fun S => Steps.refl⟩
  · rintro c e d - - ⟨⟩

/-- A failure in front of a token at which the machine stops. -/
theorem performs_stop {e : Cursor → SyntaxError} (hact : ∀ k, K k → X.act k = .stop)
    (he : ∀ c, (e c).span = c.here) :
    Performs (fun c => (.error (e c), c) : Parser α) K n t (X :: A) := by
  constructor
  · rintro c a d - - ⟨⟩
  · rintro c e d hk - ⟨⟩
    exact ⟨.refl c, he c, fun S => ⟨X, A ++ S, Steps.refl, hact _ hk⟩⟩

/--
One parser behind another one. The tokens that the first one reads at least are missing for the
second one.
-/
theorem Performs.bind (hp : p.Performs K n t A)
    (hf : ∀ a, (f a).Performs (fun _ => True) m t' B) (hm : n ≤ m + t) :
    (p >>= f).Performs K n (t + t') (A ++ B) := by
  constructor
  · intro c b d hk hlength hc
    rcases hpc : p c with ⟨e | a, c'⟩
    · simp [Bind.bind, Parser.bind, hpc] at hc
    · simp only [Bind.bind, Parser.bind, hpc] at hc
      obtain ⟨hc', hrun⟩ := hp.ok hk hlength hpc
      have hlength' : c'.rest.length ≤ m := by
        have := hc'.length
        omega
      obtain ⟨hd, hrun'⟩ := (hf a).ok trivial hlength' hc
      refine ⟨hc'.trans hd, fun S => ?_⟩
      rw [List.append_assoc]
      exact (hrun (B ++ S)).trans (hrun' S)
  · intro c e d hk hlength hc
    rcases hpc : p c with ⟨e' | a, c'⟩
    · simp only [Bind.bind, Parser.bind, hpc] at hc
      cases hc
      obtain ⟨hd, he, hstop⟩ := hp.error hk hlength hpc
      refine ⟨hd, he, fun S => ?_⟩
      rw [List.append_assoc]
      exact hstop (B ++ S)
    · simp only [Bind.bind, Parser.bind, hpc] at hc
      obtain ⟨hc', hrun⟩ := hp.ok hk hlength hpc
      have hlength' : c'.rest.length ≤ m := by
        have := hc'.length
        omega
      obtain ⟨hd, he, hstop⟩ := (hf a).error trivial hlength' hc
      refine ⟨(hc'.trans hd).of_le (Nat.zero_le _), he, fun S => ?_⟩
      obtain ⟨X, T, hrun', hact⟩ := hstop S
      rw [List.append_assoc]
      exact ⟨X, T, (hrun (B ++ S)).trans hrun', hact⟩

/-- The second parser may find as many tokens as the first one. -/
theorem Performs.then (hp : p.Performs K n t [X])
    (hf : ∀ a, (f a).Performs (fun _ => True) n t' B) : (p >>= f).Performs K n t (X :: B) :=
  (hp.bind hf (Nat.le_add_right n t)).mono (fun _ hk => hk) le_rfl (Nat.le_add_right t t')

/-- The second parser finds one token less. -/
theorem Performs.then_less (hp : p.Performs K (n + 1) 1 [X])
    (hf : ∀ a, (f a).Performs (fun _ => True) n t' B) :
    (p >>= f).Performs K (n + 1) 1 (X :: B) :=
  (hp.bind hf le_rfl).mono (fun _ hk => hk) le_rfl (Nat.le_add_right 1 t')

theorem Performs.map {g : α → β} (hp : p.Performs K n t A) : (g <$> p).Performs K n t A := by
  have h := hp.bind (fun a => performs_pure (g a)) (Nat.le_add_right n t)
  rwa [List.append_nil] at h

/-- Nothing is read by a look at the cursor. -/
theorem performs_look {g : Cursor → γ} {f : γ → Parser β} (hf : ∀ a, (f a).Performs K n t A) :
    (look g >>= f).Performs K n t A :=
  ⟨fun {c} => (hf (g c)).ok, fun {c} => (hf (g c)).error⟩

theorem performs_kind {f : TokenKind → Parser β}
    (hf : ∀ k, K k → (f k).Performs (· = k) n t A) : (look Cursor.kind >>= f).Performs K n t A :=
  ⟨fun {c _ _} hk => (hf c.kind hk).ok rfl, fun {c _ _} hk => (hf c.kind hk).error rfl⟩

theorem performs_nextLiteral {f : Nat → Parser β} (hf : ∀ a, (f a).Performs K n t A) :
    (nextLiteral >>= f).Performs K n t A := by
  constructor
  · intro c a d hk hlength hc
    obtain ⟨hd, hrun⟩ := (hf c.literals).ok (c := { c with literals := c.literals + 1 }) hk hlength hc
    exact ⟨⟨hd.rest, hd.eof, hd.length⟩, hrun⟩
  · intro c e d hk hlength hc
    obtain ⟨hd, he, hstop⟩ :=
      (hf c.literals).error (c := { c with literals := c.literals + 1 }) hk hlength hc
    exact ⟨⟨hd.rest, hd.eof, hd.length⟩, he, hstop⟩

/-- A part is performed by what performs the parts it consists of. -/
theorem performs_expand (hact : ∀ k, K k → X.act k = .expand A) (hp : p.Performs K n t (A ++ B)) :
    p.Performs K n t (X :: B) := by
  have hexpand : ∀ {c : Cursor} {S y}, K c.kind → Steps (A ++ B ++ S, c.kinds) y →
      Steps (X :: B ++ S, c.kinds) y := by
    intro c S y hk hrun
    rw [List.append_assoc] at hrun
    exact steps_expand (by rw [c.headKind_kinds]; exact hact _ hk) hrun
  constructor
  · intro c a d hk hlength hpc
    obtain ⟨hd, hrun⟩ := hp.ok hk hlength hpc
    exact ⟨hd, fun S => hexpand hk (hrun S)⟩
  · intro c e d hk hlength hpc
    obtain ⟨hd, he, hstop⟩ := hp.error hk hlength hpc
    refine ⟨hd, he, fun S => ?_⟩
    obtain ⟨Y, T, hrun, hY⟩ := hstop S
    exact ⟨Y, T, hexpand hk hrun, hY⟩

theorem performs_of_act (hact : ∀ k, K k → X.act k = .expand A) (hp : p.Performs K n t A) :
    p.Performs K n t [X] := performs_expand hact (by rwa [List.append_nil])

/-- Whether the first token is of a given kind or not. -/
theorem performs_by_cases (k : TokenKind) (hyes : p.Performs (· = k) n t A)
    (hno : p.Performs (fun k' => K k' ∧ k' ≠ k) n t A) : p.Performs K n t A := by
  constructor
  · intro c a d hk
    by_cases h : c.kind = k
    · exact hyes.ok h
    · exact hno.ok ⟨hk, h⟩
  · intro c e d hk
    by_cases h : c.kind = k
    · exact hyes.error h
    · exact hno.error ⟨hk, h⟩

/-! ### Single tokens -/

/-- A token that the machine reads. -/
theorem performs_advance {g : Cursor → α} (hact : ∀ k, K k → k ≠ .eof ∧ X.act k = .shift) :
    Performs (fun c => (.ok (g c), c.advance) : Parser α) K n 1 [X] := by
  constructor
  · rintro c a d hk - ⟨⟩
    obtain ⟨hd, hkinds⟩ := Cursor.Reaches.advance (hact _ hk).1
    refine ⟨hd, fun S => ?_⟩
    rw [hkinds]
    exact steps_shift (hact _ hk).2 Steps.refl
  · rintro c e d - - ⟨⟩

theorem performs_skip (hact : ∀ k, K k → k ≠ .eof ∧ X.act k = .shift) :
    skip.Performs K n 1 [X] := performs_advance hact

theorem act_token : (Pending.token k).act k = .shift := by simp [act]

theorem performs_skip_token (hk : k ≠ .eof) : skip.Performs (· = k) n 1 [.token k] :=
  performs_skip (by rintro _ rfl; exact ⟨hk, act_token⟩)

/-- Two parsers that are the same in front of the tokens that may be found. -/
theorem Performs.congr {q : Parser α} (hq : q.Performs K n t A)
    (h : ∀ c : Cursor, K c.kind → p c = q c) : p.Performs K n t A :=
  ⟨fun {c _ _} hk hlength hpc => hq.ok hk hlength (h c hk ▸ hpc),
    fun {c _ _} hk hlength hpc => hq.error hk hlength (h c hk ▸ hpc)⟩

/-- What is known of the next token may be its kind. -/
theorem performs_at (h : ∀ k, K k → p.Performs (· = k) n t A) : p.Performs K n t A :=
  ⟨fun {c _ _} hk => (h c.kind hk).ok rfl, fun {c _ _} hk => (h c.kind hk).error rfl⟩

theorem performs_unexpected {e : Expectation} (hact : ∀ k, K k → X.act k = .stop) :
    (unexpected e : Parser α).Performs K n t (X :: A) := performs_stop hact fun _ => rfl

theorem performs_expect (hk : k ≠ .eof) : (expect k).Performs K n 1 [.token k] := by
  refine performs_by_cases k ?_ ?_
  · refine (performs_skip_token hk).congr fun c hc => ?_
    simp only [expect, hc, ↓reduceIte]
  · have hstop : (unexpected (.token k) : Parser Unit).Performs (fun k' => K k' ∧ k' ≠ k) n 1
        [.token k] := performs_unexpected fun k' h => by simp [act, h.2]
    refine hstop.congr fun c hc => ?_
    simp only [expect, hc.2, ↓reduceIte]

theorem performs_ident : ident.Performs K n 1 [.name] := by
  refine performs_at fun k _ => ?_
  have hfail : (∀ x, k ≠ .ident x) → ident.Performs (· = k) n 1 [.name] := by
    intro hk
    have hstop : (fail .expectedIdent : Parser Ident).Performs (· = k) n 1 [.name] := by
      refine performs_stop (fun k' hk' => ?_) fun c => rfl
      subst hk'
      cases k' <;> simp_all [act]
    refine hstop.congr fun c hc => ?_
    cases k <;> simp_all [ident]
  cases k with
  | ident x =>
    have hread : Performs (fun c => (.ok ⟨x, c.here⟩, c.advance) : Parser Ident)
        (· = .ident x) n 1 [.name] :=
      performs_advance (by rintro _ rfl; exact ⟨TokenKind.noConfusion, rfl⟩)
    refine hread.congr fun c hc => ?_
    simp only [ident, hc]
  | _ => exact hfail (by simp)

theorem performs_accept_token {f : Bool → Parser β} (hk : k ≠ .eof) (hm : n ≤ m + 1)
    (hf : (f true).Performs (fun _ => True) m t B) :
    (accept k >>= f).Performs (· = k) n 1 (.token k :: B) := by
  have hread := (performs_skip_token (n := n) hk).bind (fun _ => hf) hm
  refine (hread.mono (fun _ h => h) le_rfl (Nat.le_add_right 1 t)).congr fun c hc => ?_
  simp only [accept, Bind.bind, Parser.bind, hc, ↓reduceIte, skip]

theorem performs_accept_other {f : Bool → Parser β}
    (hf : (f false).Performs (fun k' => K k' ∧ k' ≠ k) n t A) :
    (accept k >>= f).Performs (fun k' => K k' ∧ k' ≠ k) n t A := by
  refine hf.congr fun c hc => ?_
  simp only [accept, Bind.bind, Parser.bind, hc.2, ↓reduceIte]

/-- A token that may be missing is the start of what is read where it stands. -/
theorem performs_accept {f : Bool → Parser β} (hk : k ≠ .eof) (hm : n ≤ m + 1)
    (hact : X.act k = .expand (.token k :: B)) (hyes : (f true).Performs (fun _ => True) m 0 B)
    (hno : (f false).Performs (fun k' => K k' ∧ k' ≠ k) n 0 [X]) :
    (accept k >>= f).Performs K n 0 [X] := by
  refine performs_by_cases k ?_ (performs_accept_other hno)
  refine performs_of_act (A := .token k :: B) (fun k' h => by rw [h]; exact hact) ?_
  exact (performs_accept_token hk hm hyes).weaken

/-- A parser that reads nothing performs what the next token tells to be missing. -/
theorem performs_missing {a : α} (hact : ∀ k, K k → X.act k = .expand []) :
    (pure a : Parser α).Performs K n 0 [X] := performs_of_act hact (performs_pure a)

theorem performs_mark (hk : k ≠ .eof) : (accept k).Performs K n 0 [.mark k] := by
  refine performs_by_cases k ?_ ?_
  · refine performs_of_act (A := [.token k]) (by simp [act]) ?_
    refine ((performs_skip_token hk).map (g := fun _ => true)).weaken.congr fun c hc => ?_
    simp only [accept, hc, ↓reduceIte]
    rfl
  · have hmissing : (pure false : Parser Bool).Performs (fun k' => K k' ∧ k' ≠ k) n 0 [.mark k] :=
      performs_missing fun k' h => by simp [act, h.2]
    refine hmissing.congr fun c hc => ?_
    simp only [accept, hc.2, ↓reduceIte]
    rfl

/-- Where no token is left, the next one is the end of the file. -/
theorem performs_zero (hp : p.Performs (· = .eof) 0 t A) : p.Performs K 0 t A := by
  have hkind : ∀ {c : Cursor}, c.rest.length ≤ 0 → c.kind = .eof := by
    intro c hlength
    have hrest := List.eq_nil_of_length_eq_zero (Nat.le_zero.mp hlength)
    simp [Cursor.kind, Cursor.current, hrest]
  exact ⟨fun {c _ _} _ hlength => hp.ok (hkind hlength) hlength,
    fun {c _ _} _ hlength => hp.error (hkind hlength) hlength⟩

theorem performs_behind (hk : k ≠ .eof) (hp : p.Performs (fun _ => True) n 0 [X]) :
    (Parser.behind k p).Performs K n 0 [.behind k X] := by
  refine performs_accept hk (Nat.le_succ n) (by simp [act]) (hp.map) ?_
  exact performs_missing fun k' h => by simp [act, h.2]

/-! ### Repetitions -/

theorem performs_moreItems (hp : p.Performs (fun _ => True) n 0 [X]) (hmn : m ≤ n) :
    (moreItems p m).Performs K m 0 [.further X] := by
  induction m generalizing K with
  | zero => exact performs_zero (performs_missing (by simp [act]))
  | succ m ih =>
    have hmn := Nat.le_of_succ_le hmn
    have hact : (Pending.further X).act (.punct .comma) =
        .expand [.token (.punct .comma), X, .further X] := by simp [act]
    refine performs_accept (by simp) le_rfl hact ?_ ?_
    · exact (hp.of_le hmn).then fun _ => (ih hmn).map
    · exact performs_missing fun k' h => by simp [act, h.2]

theorem performs_itemsBefore {close : TokenKind} (hp : p.Performs (fun _ => True) n 0 [X])
    (hmn : m ≤ n) : (itemsBefore close p m).Performs K m 0 [.list close X] := by
  induction m generalizing K with
  | zero => exact performs_zero (performs_missing (by simp [act]))
  | succ m ih =>
    have hle := Nat.le_of_succ_le hmn
    refine performs_kind fun k _ => ?_
    split
    case isTrue h =>
      exact performs_missing (by rintro k' rfl; simp [act, h])
    case isFalse h =>
      have hact : ∀ k', k' = k → (Pending.list close X).act k' =
          .expand [X, .listTail close X] := by
        rintro k' rfl
        simp [act, h]
      have hcomma : (Pending.listTail close X).act (.punct .comma) =
          .expand [.token (.punct .comma), .list close X] := by simp [act]
      have htail : ∀ a : α, (do
          if ← accept (.punct .comma) then
            let as ← itemsBefore close p m
            pure (a :: as)
          else pure [a]).Performs (fun _ => True) (m + 1) 0 [.listTail close X] := fun a =>
        performs_accept (by simp) le_rfl hcomma (ih hle).map
          (performs_missing fun k' h => by simp [act, h.2])
      exact performs_of_act hact ((hp.of_le hmn).anywhere.then htail)

theorem Performs.itemsUntil_then {close : TokenKind} {f : List α → Parser β}
    (hp : p.Performs (fun _ => True) n 0 [X]) (hclose : close ≠ .eof)
    (hf : ∀ as, (f as).Performs (fun _ => True) n t B) :
    (itemsUntil n close p >>= f).Performs K n 0 (.list close X :: .token close :: B) := by
  have hitems : (itemsUntil n close p).Performs K n 0 [.list close X, .token close] :=
    (performs_itemsBefore hp le_rfl).then fun _ => (performs_expect hclose).map
  exact (hitems.bind hf le_rfl).weaken

theorem performs_items (hp : p.Performs (fun _ => True) n t [X]) :
    (items n p).Performs K n t [X, .further X] :=
  hp.anywhere.then fun _ => (performs_moreItems hp.weaken le_rfl).map

theorem Performs.items_then {f : List α → Parser β} (hp : p.Performs (fun _ => True) n t [X])
    (hf : ∀ as, (f as).Performs (fun _ => True) n t' B) :
    (items n p >>= f).Performs K n t (X :: .further X :: B) :=
  ((performs_items hp).bind hf (Nat.le_add_right n t)).mono (fun _ hk => hk) le_rfl
    (Nat.le_add_right t t')

end Parser

end Sable
