import Sable.Proofs.Syntax.Alike
import Sable.Proofs.Syntax.Wording

/-!
# Reading a wording back

A parser reads a wording back if it yields a suitable result on each of its lists of tokens,
whatever follows, and stops behind it. What follows may matter for where the parser stops, so its
first token is subject to a condition. A parser is also told how many tokens it may have to read,
since that bounds its depth; and it gives names to function literals as it meets them.

Reading back is proved for the parts of a construct one by one. The wording of a construct is the
sequence of the wordings of its parts, and the parser of the construct is the sequence of theirs.
-/

namespace Sable

open Wording

/-- The kind of the first of some tokens, which is the end of the file if there is none. -/
def headKind (ks : List TokenKind) : TokenKind := ks.head?.getD .eof

/-- A cursor in front of tokens of given kinds behind a number of function literals. -/
structure Cursor.At (c : Cursor) (ks : List TokenKind) (i : Nat) : Prop where
  /-- The kinds of the tokens. -/
  rest : c.rest.map Token.kind = ks
  /-- The number of function literals. -/
  literals : c.literals = i

namespace Cursor.At

variable {c : Cursor} {ks : List TokenKind} {k : TokenKind} {i : Nat}

theorem kind (h : c.At ks i) : c.kind = headKind ks := by
  rw [Cursor.kind, Cursor.current, headKind, ← h.rest]
  cases c.rest <;> rfl

theorem nextKind (h : c.At (k :: ks) i) : c.nextKind = headKind ks := by
  have hrest := h.rest
  rw [Cursor.nextKind, headKind]
  cases hc : c.rest with
  | nil => simp [hc] at hrest
  | cons t ts =>
    rw [hc, List.map_cons, List.cons.injEq] at hrest
    rw [← hrest.2]
    cases ts <;> rfl

theorem advance (h : c.At (k :: ks) i) : c.advance.At ks i := by
  have hrest := h.rest
  cases hc : c.rest with
  | nil => simp [hc] at hrest
  | cons t ts =>
    rw [hc, List.map_cons, List.cons.injEq] at hrest
    simp only [Cursor.advance, hc]
    exact ⟨hrest.2, h.literals⟩

end Cursor.At

/-! ### What stands at the start of a wording -/

/-- Where the second condition holds behind a wording, the first one holds in front of it. -/
def Wording.Leads (W : Wording) (F G : TokenKind → Prop) : Prop :=
  ∀ w ∈ W, ∀ more, G (headKind more) → F (headKind (w ++ more))

/-- There is a first token, and it satisfies a condition. -/
def Wording.Starts (W : Wording) (F : TokenKind → Prop) : Prop :=
  ∀ w ∈ W, ∃ k ks, w = k :: ks ∧ F k

namespace Wording

variable {V W : Wording} {Ws : List Wording} {F G : TokenKind → Prop} {k : TokenKind}

theorem mem_sequence_cons {w : List TokenKind} :
    w ∈ sequence (W :: Ws) ↔ ∃ u ∈ W, ∃ v ∈ sequence Ws, u ++ v = w := Iff.rfl

theorem append_mem_sequence {v w : List TokenKind} (hv : v ∈ V) (hw : w ∈ sequence Ws) :
    v ++ w ∈ sequence (V :: Ws) := ⟨v, hv, w, hw, rfl⟩

theorem cons_mem_sequence {h : k ≠ .eof} {w : List TokenKind} (hw : w ∈ sequence Ws) :
    k :: w ∈ sequence (token k h :: Ws) := ⟨[k], rfl, w, hw, rfl⟩

theorem starts_token {h : k ≠ .eof} (hk : F k) : (token k h).Starts F := by
  rintro w rfl
  exact ⟨k, [], rfl, hk⟩

theorem Starts.cons (h : W.Starts F) : (sequence (W :: Ws)).Starts F := by
  rintro w ⟨u, hu, v, hv, rfl⟩
  obtain ⟨k, ks, rfl, hk⟩ := h u hu
  exact ⟨k, ks ++ v, rfl, hk⟩

theorem Starts.either (hV : V.Starts F) (hW : W.Starts F) : (V.either W).Starts F := by
  rintro w (hw | hw)
  · exact hV w hw
  · exact hW w hw

theorem Starts.mono (h : W.Starts F) (hFG : ∀ k, F k → G k) : W.Starts G := by
  intro w hw
  obtain ⟨k, ks, rfl, hk⟩ := h w hw
  exact ⟨k, ks, rfl, hFG k hk⟩

theorem Starts.leads (h : W.Starts F) : W.Leads F G := by
  intro w hw more _
  obtain ⟨k, ks, rfl, hk⟩ := h w hw
  exact hk

theorem leads_nil (h : ∀ k, G k → F k) : (sequence []).Leads F G := by
  rintro w rfl more hmore
  exact h _ hmore

theorem leads_token {h : k ≠ .eof} (hk : F k) : (sequence (token k h :: Ws)).Leads F G :=
  (starts_token hk).cons.leads

theorem Leads.cons {H : TokenKind → Prop} (hW : W.Leads F H) (hWs : (sequence Ws).Leads H G) :
    (sequence (W :: Ws)).Leads F G := by
  rintro w ⟨u, hu, v, hv, rfl⟩ more hmore
  rw [List.append_assoc]
  exact hW u hu (v ++ more) (hWs v hv more hmore)

theorem Leads.either (hV : V.Leads F G) (hW : W.Leads F G) : (V.either W).Leads F G := by
  rintro w (hw | hw)
  · exact hV w hw
  · exact hW w hw

theorem leads_further (hcomma : F (.punct .comma)) (h : ∀ k, G k → F k) :
    (further Ws).Leads F G := by
  cases Ws with
  | nil => exact leads_nil h
  | cons W Ws => exact leads_token hcomma

theorem leads_true : W.Leads (fun _ => True) G := fun _ _ _ _ => trivial

end Wording

/-- Spans that need not be related at all. -/
def Anywhere : Span → Span → Prop := fun _ _ => True

/-! ### Numbers of function literals -/

theorem numbered_append {i : Nat} {xs ys : List String} :
    Numbered i (xs ++ ys) ↔ Numbered i xs ∧ Numbered (i + xs.length) ys := by
  rw [Numbered, List.length_append, ← List.range'_append_1, List.map_append]
  constructor
  · intro h
    exact List.append_inj h (by simp)
  · rintro ⟨hxs, hys⟩
    exact congrArg₂ (· ++ ·) hxs hys

theorem numbered_singleton {i : Nat} {x : String} :
    Numbered i [x] ↔ x = Parser.literalName i := by simp [Numbered]

/-! ### Reading back -/

namespace Parser

variable {α β : Type}

/--
From at most `n` tokens, a parser reads a wording back in front of a token that satisfies `F`, if
the function literals on the way are numbered as given.
-/
def Reads (p : Parser α) (n : Nat) (W : Wording) (xs : List String) (F : TokenKind → Prop)
    (Q : α → Prop) : Prop :=
  ∀ w ∈ W, w.length ≤ n → ∀ c more i, c.At (w ++ more) i → Numbered i xs → F (headKind more) →
    ∃ a d, p c = (.ok a, d) ∧ d.At more (i + xs.length) ∧ Q a

variable {p : Parser α} {f : α → Parser β} {n m : Nat} {V W : Wording} {Ws : List Wording}
  {xs ys : List String} {F G : TokenKind → Prop} {P : α → Prop} {Q : β → Prop} {k : TokenKind}

theorem reads_pure {a : α} (h : P a) : (pure a : Parser α).Reads n (sequence []) [] F P := by
  rintro w rfl - c more i hc - -
  exact ⟨a, c, rfl, hc, h⟩

theorem Reads.of_le (hp : p.Reads n W xs F P) (hmn : m ≤ n) : p.Reads m W xs F P :=
  fun w hw hlength => hp w hw (hlength.trans hmn)

theorem Reads.of_succ (hp : p.Reads (n + 1) W xs F P) : p.Reads n W xs F P :=
  hp.of_le (Nat.le_succ n)

/-- Less may be asked of what follows. -/
theorem Reads.followed (hp : p.Reads n W xs F P) (hFG : ∀ k, G k → F k) : p.Reads n W xs G P :=
  fun w hw hlength c more i hc hxs hmore => hp w hw hlength c more i hc hxs (hFG _ hmore)

theorem Reads.imp {R : α → Prop} (hp : p.Reads n W xs F P) (h : ∀ a, P a → R a) :
    p.Reads n W xs F R := by
  intro w hw hlength c more i hc hxs hmore
  obtain ⟨a, d, hpc, hd, ha⟩ := hp w hw hlength c more i hc hxs hmore
  exact ⟨a, d, hpc, hd, h a ha⟩

theorem Reads.of_subset (hp : p.Reads n W xs F P) (h : ∀ w ∈ V, w ∈ W) : p.Reads n V xs F P :=
  fun w hw => hp w (h w hw)

/-- No list of tokens is short enough if there is always a first one. -/
theorem reads_zero (hW : W.Starts F) : p.Reads 0 W xs G P := by
  intro w hw hlength
  obtain ⟨k, ks, rfl, -⟩ := hW w hw
  exact absurd hlength (by simp)

/--
A parser that reads the first part, and one that reads the others behind it. If the first part
takes a token, there is one token less for the others.
-/
theorem Reads.bind_of_le (hp : p.Reads n W xs F P) (hm : ∀ w ∈ W, n ≤ w.length + m)
    (hlead : (sequence Ws).Leads F G) (hf : ∀ a, P a → (f a).Reads m (sequence Ws) ys G Q) :
    (p >>= f).Reads n (sequence (W :: Ws)) (xs ++ ys) G Q := by
  rintro w ⟨u, hu, v, hv, rfl⟩ hlength c more i hc hnames hmore
  obtain ⟨hxs, hys⟩ := numbered_append.mp hnames
  have hle := hm u hu
  rw [List.length_append] at hlength
  rw [List.append_assoc] at hc
  obtain ⟨a, d, hpc, hd, ha⟩ := hp u hu (by omega) c (v ++ more) i hc hxs (hlead v hv more hmore)
  obtain ⟨b, e, hfd, he, hb⟩ := hf a ha v hv (by omega) d more (i + xs.length) hd hys hmore
  refine ⟨b, e, ?_, ?_, hb⟩
  · simp only [Bind.bind, Parser.bind, hpc, hfd]
  · rw [List.length_append, ← Nat.add_assoc]
    exact he

theorem Reads.bind (hp : p.Reads n W xs F P) (hlead : (sequence Ws).Leads F G)
    (hf : ∀ a, P a → (f a).Reads n (sequence Ws) ys G Q) :
    (p >>= f).Reads n (sequence (W :: Ws)) (xs ++ ys) G Q :=
  hp.bind_of_le (fun w _ => Nat.le_add_left n w.length) hlead hf

theorem Reads.bind_succ (hp : p.Reads (n + 1) W xs F P) (hW : W.Starts fun _ => True)
    (hlead : (sequence Ws).Leads F G) (hf : ∀ a, P a → (f a).Reads n (sequence Ws) ys G Q) :
    (p >>= f).Reads (n + 1) (sequence (W :: Ws)) (xs ++ ys) G Q := by
  refine hp.bind_of_le (fun w hw => ?_) hlead hf
  obtain ⟨k, ks, rfl, -⟩ := hW w hw
  rw [List.length_cons]
  omega

/-- No literal is named behind the first part. -/
theorem Reads.bind_plain (hp : p.Reads n W xs F P) (hlead : (sequence Ws).Leads F G)
    (hf : ∀ a, P a → (f a).Reads n (sequence Ws) [] G Q) :
    (p >>= f).Reads n (sequence (W :: Ws)) xs G Q := by
  have h := hp.bind hlead hf
  rwa [List.append_nil] at h

/-- Nothing is left to read behind the last part. -/
theorem Reads.bind_last (hp : p.Reads n W xs F P) (hFG : ∀ k, G k → F k)
    (hf : ∀ a, P a → (f a).Reads n (sequence []) [] G Q) :
    (p >>= f).Reads n (sequence [W]) xs G Q :=
  hp.bind_plain (leads_nil hFG) hf

/-- A sequence of one part is that part. -/
theorem reads_sequence_singleton : p.Reads n (sequence [W]) xs F P ↔ p.Reads n W xs F P := by
  constructor
  · intro h w hw
    exact h w ⟨w, hw, [], rfl, List.append_nil w⟩
  · rintro h w ⟨u, hu, v, rfl, rfl⟩
    simpa using h u hu

theorem Reads.map {g : α → β} (hp : p.Reads n W xs F P) (hg : ∀ a, P a → Q (g a)) :
    (g <$> p).Reads n W xs F Q :=
  reads_sequence_singleton.mp (hp.bind_last (fun _ hk => hk) fun a ha => reads_pure (hg a ha))

theorem reads_either_cons (hV : p.Reads n (sequence (V :: Ws)) xs F P)
    (hW : p.Reads n (sequence (W :: Ws)) xs F P) :
    p.Reads n (sequence (V.either W :: Ws)) xs F P := by
  rintro w ⟨u, hu | hu, v, hv, rfl⟩
  · exact hV _ ⟨u, hu, v, hv, rfl⟩
  · exact hW _ ⟨u, hu, v, hv, rfl⟩

/-- Two parts may be read by one parser. -/
theorem reads_cons_cons (h : p.Reads n (sequence (sequence [V, W] :: Ws)) xs F P) :
    p.Reads n (sequence (V :: W :: Ws)) xs F P := by
  rintro w ⟨u, hu, u', ⟨v, hv, v', hv', rfl⟩, rfl⟩
  exact h _ ⟨u ++ (v ++ []), ⟨u, hu, v ++ [], ⟨v, hv, [], rfl, rfl⟩, rfl⟩, v', hv', by simp⟩

theorem reads_of_nothing_cons (h : p.Reads n (sequence (nothing :: Ws)) xs F P) :
    p.Reads n (sequence Ws) xs F P :=
  fun w hw => h w ⟨[], rfl, w, hw, rfl⟩

theorem reads_nothing_cons (h : p.Reads n (sequence Ws) xs F P) :
    p.Reads n (sequence (nothing :: Ws)) xs F P := by
  rintro w ⟨u, rfl, v, hv, rfl⟩
  exact h v hv

/-! ### Single tokens -/

/-- Nothing is read by a look at the cursor. -/
theorem reads_look {γ : Type} {g : Cursor → γ} {f : γ → Parser β}
    (hf : ∀ a, (f a).Reads n W xs F Q) : (look g >>= f).Reads n W xs F Q :=
  fun w hw hlength c more i hc => hf (g c) w hw hlength c more i hc

theorem reads_kind {f : TokenKind → Parser β} (hlead : W.Leads G F)
    (hf : ∀ k, G k → (f k).Reads n W xs F Q) : (look Cursor.kind >>= f).Reads n W xs F Q := by
  intro w hw hlength c more i hc hxs hmore
  have hk : G c.kind := by
    rw [hc.kind]
    exact hlead w hw more hmore
  exact hf c.kind hk w hw hlength c more i hc hxs hmore

/-- The kind of the next token is known if all lists of tokens start with it. -/
theorem reads_kind_token {f : TokenKind → Parser β} {h : k ≠ .eof}
    (hf : (f k).Reads n (sequence (token k h :: Ws)) xs F Q) :
    (look Cursor.kind >>= f).Reads n (sequence (token k h :: Ws)) xs F Q :=
  reads_kind (G := (· = k)) (leads_token rfl) fun _ hk => hk ▸ hf

theorem reads_nextKind_token {f : TokenKind → Parser β} {k' : TokenKind} {h : k ≠ .eof}
    {h' : k' ≠ .eof} (hf : (f k').Reads n (sequence (token k h :: token k' h' :: Ws)) xs F Q) :
    (look Cursor.nextKind >>= f).Reads n (sequence (token k h :: token k' h' :: Ws)) xs F Q := by
  intro w hw hlength c more i hc hxs hmore
  have hk : c.nextKind = k' := by
    obtain ⟨u, rfl, v, ⟨u', rfl, v', -, rfl⟩, rfl⟩ := hw
    exact hc.nextKind
  have hread := hf w hw hlength c more i hc hxs hmore
  rw [← hk] at hread
  exact hread

theorem reads_kind_singleton {f : TokenKind → Parser β} {h : k ≠ .eof}
    (hf : (f k).Reads n (token k h) xs F Q) :
    (look Cursor.kind >>= f).Reads n (token k h) xs F Q :=
  reads_kind (starts_token (F := (· = k)) rfl).leads fun _ hk => hk ▸ hf

theorem reads_skip (h : k ≠ .eof) : skip.Reads n (token k h) [] F fun _ => True := by
  rintro w rfl - c more i hc - -
  exact ⟨(), c.advance, rfl, hc.advance, trivial⟩

theorem reads_expect (h : k ≠ .eof) : (expect k).Reads n (token k h) [] F fun _ => True := by
  rintro w rfl - c more i hc - -
  have hk : c.kind = k := hc.kind
  refine ⟨(), c.advance, ?_, hc.advance, trivial⟩
  simp only [expect, hk, ↓reduceIte, skip]

theorem reads_ident (x : Ident) :
    ident.Reads n (Wording.ident x) [] F fun y => y.Alike Anywhere x := by
  rintro w rfl - c more i hc - -
  have hk : c.kind = .ident x.name := hc.kind
  refine ⟨⟨x.name, c.here⟩, c.advance, ?_, hc.advance, ⟨rfl, trivial⟩⟩
  simp only [ident, hk]

theorem reads_nextLiteral (x : String) :
    nextLiteral.Reads n nothing [x] F fun i => literalName i = x := by
  rintro w rfl - c more i hc hx -
  obtain ⟨hrest, rfl⟩ := hc
  exact ⟨c.literals, _, rfl, ⟨hrest, rfl⟩, (numbered_singleton.mp hx).symm⟩

theorem Reads.skip_then {f : Unit → Parser β} {h : k ≠ .eof}
    (hf : (f ()).Reads n (sequence Ws) ys G Q) :
    (skip >>= f).Reads (n + 1) (sequence (token k h :: Ws)) ys G Q :=
  (reads_skip h).bind_succ (starts_token trivial) leads_true fun _ _ => hf

theorem Reads.expect_then {f : Unit → Parser β} {h : k ≠ .eof}
    (hf : (f ()).Reads n (sequence Ws) ys G Q) :
    (expect k >>= f).Reads (n + 1) (sequence (token k h :: Ws)) ys G Q :=
  (reads_expect h).bind_succ (starts_token trivial) leads_true fun _ _ => hf

/-- A token that may be read is read if it is there. -/
theorem Reads.accept_then {f : Bool → Parser β} {h : k ≠ .eof}
    (hf : (f true).Reads n (sequence Ws) ys G Q) :
    (accept k >>= f).Reads (n + 1) (sequence (token k h :: Ws)) ys G Q := by
  have haccept : (accept k).Reads (n + 1) (token k h) [] (fun _ => True) (· = true) := by
    rintro w rfl - c more i hc - -
    have hk : c.kind = k := hc.kind
    refine ⟨true, c.advance, ?_, hc.advance, rfl⟩
    simp only [accept, hk, ↓reduceIte]
  exact haccept.bind_succ (starts_token trivial) leads_true fun _ ha => ha ▸ hf

theorem Reads.accept_else {f : Bool → Parser β} (hlead : W.Leads (· ≠ k) F)
    (hf : (f false).Reads n W xs F Q) : (accept k >>= f).Reads n W xs F Q := by
  intro w hw hlength c more i hc hxs hmore
  have hk : c.kind ≠ k := by
    rw [hc.kind]
    exact hlead w hw more hmore
  obtain ⟨b, d, hfc, hd, hb⟩ := hf w hw hlength c more i hc hxs hmore
  refine ⟨b, d, ?_, hd, hb⟩
  simpa only [Bind.bind, Parser.bind, accept, hk, ↓reduceIte] using hfc

/-- A token that need not be there makes no difference to what is behind it. -/
theorem Reads.accept_optional {f : Bool → Parser β} {h : k ≠ .eof}
    (hlead : (sequence Ws).Leads (· ≠ k) G) (hf : ∀ b, (f b).Reads n (sequence Ws) ys G Q) :
    (accept k >>= f).Reads n (sequence (optional (token k h) :: Ws)) ys G Q := by
  refine reads_either_cons (reads_nothing_cons (Reads.accept_else hlead (hf false))) ?_
  exact (Reads.accept_then (hf true)).of_succ

theorem Reads.expect_next {f : Unit → Parser β} {h : k ≠ .eof}
    (hf : (f ()).Reads n (sequence Ws) ys G Q) :
    (expect k >>= f).Reads n (sequence (token k h :: Ws)) ys G Q :=
  (Reads.expect_then hf).of_succ

theorem Reads.ident_next {f : Ident → Parser β} {x : Ident}
    (hf : ∀ y : Ident, y.Alike Anywhere x → (f y).Reads n (sequence Ws) ys G Q) :
    (ident >>= f).Reads n (sequence (Wording.ident x :: Ws)) ys G Q :=
  (reads_ident x).bind leads_true hf

theorem reads_spanSince {start : Span} {f : Span → Parser β}
    (hf : ∀ a, (f a).Reads n W xs F Q) : (spanSince start >>= f).Reads n W xs F Q :=
  reads_look hf

/-! ### Parts that may be missing -/

/-- What stands behind a mark is read if the mark is there. -/
theorem Reads.behind {γ : Type} {Q : α → γ → Prop} {text : γ → Wording} {y? : Option γ}
    {h : k ≠ .eof} (hp : ∀ y ∈ y?, p.Reads n (text y) [] F fun a => Q a y)
    (hFG : ∀ k', G k' → F k' ∧ k' ≠ k) :
    (behind k p).Reads n (Wording.behind k h (y?.map text)) [] G
      fun a? => Option.Rel Q a? y? := by
  cases y? with
  | none =>
    exact Reads.accept_else (leads_nil fun k' hk' => (hFG k' hk').2) (reads_pure .none)
  | some y =>
    have hitem := (hp y rfl).bind_last (fun k' hk' => (hFG k' hk').1)
      fun a ha => reads_pure (a := some a) (P := fun a? => Option.Rel Q a? (some y)) (.some ha)
    exact (Reads.accept_then hitem).of_succ

theorem behind_bind {f : Option α → Parser β} :
    (behind k p >>= f) = accept k >>= fun b => if b then p >>= fun a => f (some a) else f none := by
  funext c
  simp only [behind, accept, Bind.bind, Parser.bind]
  by_cases hk : c.kind = k
  · simp only [hk, ↓reduceIte]
    rcases hp : p c.advance with ⟨_ | _, _⟩
    · simp only [Parser.bind, hp]
    · simp only [Parser.bind, hp]
      rfl
  · simp only [hk, ↓reduceIte]
    rfl

theorem Reads.behind_then {f : Option α → Parser β} {h : k ≠ .eof}
    (hf : (p >>= fun a => f (some a)).Reads n (sequence Ws) ys G Q) :
    (Parser.behind k p >>= f).Reads n (sequence (token k h :: Ws)) ys G Q := by
  rw [behind_bind]
  exact (Reads.accept_then hf).of_succ

theorem Reads.behind_else {f : Option α → Parser β} (hlead : W.Leads (· ≠ k) G)
    (hf : (f none).Reads n W ys G Q) : (Parser.behind k p >>= f).Reads n W ys G Q := by
  rw [behind_bind]
  exact Reads.accept_else hlead hf

/-! ### Repetitions -/

section Repetitions

variable {X : Type} {text : X → Wording} {names : X → List String} {R : α → X → Prop} {zs : List X}

theorem Reads.moreItems (hp : ∀ x ∈ zs, p.Reads n (text x) (names x) F fun a => R a x)
    (hcomma : F (.punct .comma)) (hFG : ∀ k, G k → F k ∧ k ≠ .punct .comma) (hmn : m ≤ n) :
    (moreItems p m).Reads m (further (zs.map text)) (zs.flatMap names) G
      fun as => List.Forall₂ R as zs := by
  induction zs generalizing m with
  | nil =>
    cases m with
    | zero => exact reads_pure .nil
    | succ m => exact Reads.accept_else (leads_nil fun k hk => (hFG k hk).2) (reads_pure .nil)
  | cons x zs ih =>
    cases m with
    | zero => exact reads_zero (starts_token (F := fun _ => True) trivial).cons
    | succ m =>
      obtain ⟨hx, hzs⟩ := List.forall_mem_cons.mp hp
      refine Reads.accept_then ?_
      have hlead : (sequence [further (zs.map text)]).Leads F G :=
        (leads_further hcomma fun k hk => (hFG k hk).1).cons (leads_nil fun _ hk => hk)
      refine (hx.of_le (by omega)).bind hlead fun a ha => ?_
      exact (ih hzs (by omega)).bind_last (fun _ hk => hk) fun as has => reads_pure (.cons ha has)

/-- The first item may take one token more than there are items behind it. -/
theorem Reads.items (hp : ∀ x ∈ zs, p.Reads m (text x) (names x) F fun a => R a x)
    (hstart : ∀ x ∈ zs, (text x).Starts fun _ => True) (hcomma : F (.punct .comma))
    (hFG : ∀ k, G k → F k ∧ k ≠ .punct .comma) (hzs : zs ≠ []) (hnm : n ≤ m) (hmn : m ≤ n + 1) :
    (items n p).Reads m (separated (zs.map text)) (zs.flatMap names) G
      fun as => List.Forall₂ R as zs := by
  cases zs with
  | nil => exact absurd rfl hzs
  | cons x zs =>
    obtain ⟨hx, hzs⟩ := List.forall_mem_cons.mp hp
    have hlead : (sequence [further (zs.map text)]).Leads F G :=
      (leads_further hcomma fun k hk => (hFG k hk).1).cons (leads_nil fun _ hk => hk)
    have hlength : ∀ w ∈ text x, m ≤ w.length + n := by
      intro w hw
      obtain ⟨k, ks, rfl, -⟩ := hstart x (by simp) w hw
      rw [List.length_cons]
      omega
    refine hx.bind_of_le hlength hlead fun a ha => ?_
    exact (Reads.moreItems hzs hcomma hFG hnm).bind_last (fun _ hk => hk)
      fun as has => reads_pure (.cons ha has)

/-- A repetition in front of a closing mark, from whose start each item is told. -/
theorem Reads.itemsBefore {close : TokenKind}
    (hp : ∀ x ∈ zs, p.Reads n (text x) (names x) F fun a => R a x)
    (hstart : ∀ x ∈ zs, (text x).Starts fun k => k ≠ close ∧ k ≠ .eof)
    (hcomma : F (.punct .comma)) (hclose : F close) (hne : close ≠ .punct .comma) (hmn : m ≤ n) :
    (itemsBefore close p m).Reads m (trailed (zs.map text)) (zs.flatMap names) (· = close)
      fun as => List.Forall₂ R as zs := by
  induction zs generalizing m with
  | nil =>
    cases m with
    | zero => exact reads_pure .nil
    | succ m =>
      refine reads_kind (G := (· = close)) (leads_nil fun _ hk => hk) fun k hk => ?_
      rw [if_pos (Or.inl hk)]
      exact reads_pure .nil
  | cons x zs ih =>
    obtain ⟨hx, hzs⟩ := List.forall_mem_cons.mp hp
    obtain ⟨hstartx, hstartzs⟩ := List.forall_mem_cons.mp hstart
    cases zs with
    | nil =>
      cases m with
      | zero => exact reads_zero hstartx.cons
      | succ m =>
        refine reads_kind hstartx.cons.leads fun k hk => ?_
        rw [if_neg (not_or.mpr hk)]
        have hlead : (sequence [optional (mark .comma)]).Leads F (· = close) :=
          Leads.cons (H := (· = close))
            (Leads.either (leads_nil fun k hk => hk ▸ hclose) (starts_token hcomma).leads)
            (leads_nil fun _ hk => hk)
        refine (hx.of_le hmn).bind hlead fun a ha => ?_
        refine reads_either_cons (reads_nothing_cons ?_) ?_
        · exact Reads.accept_else (leads_nil fun k hk => hk ▸ hne) (reads_pure (.cons ha .nil))
        · refine Reads.accept_then ?_
          have hnone := ih hzs hstartzs (m := m) (by omega)
          exact reads_sequence_singleton.mp (hnone.bind_last (fun _ hk => hk)
            fun as has => reads_pure (.cons ha has))
    | cons z zs =>
      cases m with
      | zero => exact reads_zero hstartx.cons
      | succ m =>
        refine reads_kind hstartx.cons.leads fun k hk => ?_
        rw [if_neg (not_or.mpr hk)]
        refine (hx.of_le hmn).bind (leads_token hcomma) fun a ha => ?_
        refine Reads.accept_then ?_
        exact (ih hzs hstartzs (by omega)).bind_last (fun _ hk => hk)
          fun as has => reads_pure (.cons ha has)

theorem Reads.itemsUntil {close : Punct}
    (hp : ∀ x ∈ zs, p.Reads n (text x) (names x) F fun a => R a x)
    (hstart : ∀ x ∈ zs, (text x).Starts fun k => k ≠ .punct close ∧ k ≠ .eof)
    (hcomma : F (.punct .comma)) (hclose : F (.punct close)) (hne : close ≠ .comma) :
    (itemsUntil n (.punct close) p).Reads n (closedBy close (zs.map text)) (zs.flatMap names) G
      fun as => List.Forall₂ R as zs := by
  have hitems := Reads.itemsBefore hp hstart hcomma hclose (by simpa using hne) (Nat.le_refl n)
  have hbehind : ∀ as, List.Forall₂ R as zs →
      (expect (.punct close) >>= fun _ => pure as : Parser (List α)).Reads n
        (sequence [mark close]) [] G fun as => List.Forall₂ R as zs := fun as has =>
    (Reads.expect_then (f := fun _ => pure as) (reads_pure has)).of_succ
  have h := hitems.bind (leads_token rfl) hbehind
  rwa [List.append_nil] at h

/-- Items without function literals. -/
theorem Reads.plainItemsUntil {close : Punct}
    (hp : ∀ x ∈ zs, p.Reads n (text x) [] F fun a => R a x)
    (hstart : ∀ x ∈ zs, (text x).Starts fun k => k ≠ .punct close ∧ k ≠ .eof)
    (hcomma : F (.punct .comma)) (hclose : F (.punct close)) (hne : close ≠ .comma) :
    (Parser.itemsUntil n (.punct close) p).Reads n (closedBy close (zs.map text)) [] G
      fun as => List.Forall₂ R as zs := by
  have h : (Parser.itemsUntil n (.punct close) p).Reads n (closedBy close (zs.map text))
      (zs.flatMap fun _ => []) G fun as => List.Forall₂ R as zs :=
    Reads.itemsUntil hp hstart hcomma hclose hne
  have hnames : zs.flatMap (fun _ => ([] : List String)) = [] := by simp
  rwa [hnames] at h

end Repetitions

end Parser

end Sable
