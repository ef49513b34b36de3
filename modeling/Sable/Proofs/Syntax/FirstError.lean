import Sable.Proofs.Syntax.PerformedGrammar
import Sable.Proofs.Syntax.RoundTrip
import Mathlib.Data.List.TakeWhile

/-!
# Where the first syntax error is reported

A syntax error is reported as early as possible. The tokens in front of the reported one are the
start of a program, and no program starts with them and the reported token. For the machine that the
parser follows stops at the reported token whatever stands behind it; and the stack that it has come
to in front of that token can be emptied by other tokens.
-/

namespace Sable

open Pending

variable {ts us : List Token} {e : SyntaxError} {p : Program} {k : TokenKind}
  {d : Cursor}

namespace Parser

theorem performs_remaining {α : Type} {f : Nat → Parser α} {K : TokenKind → Prop} {n t : Nat}
    {A : List Pending} (hf : ∀ m, (f m).Performs K m t A) : (remaining >>= f).Performs K n t A :=
  ⟨fun {c _ _} hk _ => (hf c.rest.length).ok hk le_rfl,
    fun {c _ _} hk _ => (hf c.rest.length).error hk le_rfl⟩

/-- A program is read as the machine reads statements up to the end of the file. -/
theorem performs_program (n : Nat) : program.Performs (fun _ => True) n 0 [.statements .eof] := by
  refine performs_look fun start => performs_remaining fun m => ?_
  have hsize : m ≤ (Grammar.within m).size := Nat.le_of_eq (Grammar.size_within m).symm
  exact (performs_statements (by simp) (Grammar.performs_within m).statement hsize).then fun _ =>
    performs_look fun _ => performs_pure _

end Parser

/-! ### Runs of the machine on the tokens of a program -/

theorem Cursor.rest_ofTokens (h : ∀ t ∈ ts, t.kind ≠ .eof) : (Cursor.ofTokens ts).rest = ts :=
  List.takeWhile_eq_self_iff.mpr (by simpa using h)

/-- The tokens in front of the first end of the file are among those that are read. -/
theorem Cursor.kinds_ofTokens_append (h : ∀ t ∈ ts, t.kind ≠ .eof) :
    (Cursor.ofTokens (ts ++ us)).kinds = ts.map Token.kind ++ (Cursor.ofTokens us).kinds := by
  have hts : ∀ t ∈ ts, decide (t.kind ≠ .eof) = true := by simpa using h
  simp only [Cursor.kinds, Cursor.ofTokens, List.takeWhile_append_of_pos hts, List.map_append]

theorem steps_of_parseTokens_ok (h : parseTokens ts = .ok p) :
    ∃ ks, Steps ([.statements .eof], (Cursor.ofTokens ts).kinds) ([], ks) := by
  obtain ⟨-, hrun⟩ := (Parser.performs_program _).ok trivial le_rfl (Prod.ext h rfl)
  exact ⟨_, hrun []⟩

theorem steps_of_parseTokens_error (h : Parser.program (Cursor.ofTokens ts) = (.error e, d)) :
    ∃ X T, Steps ([.statements .eof], (Cursor.ofTokens ts).kinds) (X :: T, d.kinds) ∧
      X.act d.kind = .stop := by
  obtain ⟨-, -, hstop⟩ := (Parser.performs_program _).error trivial le_rfl h
  exact hstop []

/-- No run reads all statements where one comes to a part that cannot stand there. -/
theorem not_steps_of_stop {x : Config} {X : Pending} {T : List Pending} {ks ks' : List TokenKind}
    (hread : Steps x ([], ks)) (hact : X.act (headKind ks') = .stop) : ¬ Steps x (X :: T, ks') := by
  intro hstop
  have h := Steps.end_unique hread hstop rfl (next_of_stop hact)
  simp at h

/-- Tokens from which the machine reads all statements are a program. -/
theorem exists_parseTokens_of_steps {ks : List TokenKind}
    (h : Steps ([.statements .eof], (Cursor.ofTokens ts).kinds) ([], ks)) :
    ∃ p, parseTokens ts = .ok p := by
  rcases hparse : Parser.program (Cursor.ofTokens ts) with ⟨e | p, d⟩
  · obtain ⟨X, T, hstop, hact⟩ := steps_of_parseTokens_error hparse
    exact absurd hstop (not_steps_of_stop h (by rwa [d.headKind_kinds]))
  · exact ⟨p, congrArg Prod.fst hparse⟩

/-! ### The reported token -/

/-- A token of a given kind that stands nowhere. -/
def TokenKind.nowhere (k : TokenKind) : Token := ⟨k, .nowhere⟩

/-- Tokens that the machine reads can be completed to a program, whatever it has met behind them. -/
theorem exists_parseTokens_append (hts : ∀ t ∈ ts, t.kind ≠ .eof) {S : List Pending}
    {w : List TokenKind} (h : Steps ([.statements .eof], ts.map Token.kind ++ w) (S, w)) :
    ∃ more, (∀ t ∈ more, t.kind ≠ .eof) ∧ ∃ p, parseTokens (ts ++ more) = .ok p := by
  obtain ⟨T, hT, -⟩ := h.split
  have hfits : Fits T .eof := (hT []).fits (k := .eof) ⟨⟨rfl, rfl⟩, trivial⟩
  have hread := (hT (fillers T)).trans (steps_fillers hfits)
  have hmore : ∀ t ∈ (fillers T).map TokenKind.nowhere, t.kind ≠ .eof := by
    intro t ht heof
    obtain ⟨k, hk, rfl⟩ := List.mem_map.mp ht
    exact eof_notMem_fillers hfits (heof ▸ hk)
  have hmap : ((fillers T).map TokenKind.nowhere).map Token.kind = fillers T := by
    rw [List.map_map]
    exact List.map_id _
  have hkinds : (Cursor.ofTokens (ts ++ (fillers T).map TokenKind.nowhere)).kinds =
      ts.map Token.kind ++ fillers T := by
    rw [Cursor.kinds_ofTokens_append hts, Cursor.kinds, Cursor.rest_ofTokens hmore, hmap]
  exact ⟨_, hmore, exists_parseTokens_of_steps (hkinds ▸ hread)⟩

/-- No program starts with the tokens up to one at which the machine stops. -/
theorem parseTokens_append_ne_ok {t : Token} (hts : ∀ t' ∈ ts ++ [t], t'.kind ≠ .eof) {X : Pending}
    {T : List Pending} {w : List TokenKind}
    (h : Steps ([.statements .eof], ts.map Token.kind ++ t.kind :: w) (X :: T, t.kind :: w))
    (hact : X.act t.kind = .stop) : parseTokens (ts ++ [t] ++ us) ≠ .ok p := by
  intro hp
  obtain ⟨ks, hread⟩ := steps_of_parseTokens_ok hp
  rw [Cursor.kinds_ofTokens_append hts, List.map_append, List.append_assoc] at hread
  obtain ⟨S, hS, hstop⟩ := h.split
  exact not_steps_of_stop hread hact ((hS _).trans (hstop _ rfl))

/--
The first syntax error is reported at the token where the parser stands. The tokens in front of it
can be completed to a program, and unless the reported token is the end of the file, no program
starts with them and the reported token.
-/
theorem parseTokens_firstError (hts : ∀ t ∈ ts, t.kind ≠ .eof) (h : parseTokens ts = .error e) :
    ∃ i ≤ ts.length,
      (∃ d, Parser.program (Cursor.ofTokens ts) = (.error e, d) ∧ d.rest = ts.drop i ∧
        e.span = d.here) ∧
      e.span = (ts[i]?.getD ⟨.eof, Cursor.eofSpan ts⟩).span ∧
      (∃ more, (∀ t ∈ more, t.kind ≠ .eof) ∧ ∃ p, parseTokens (ts.take i ++ more) = .ok p) ∧
      (i < ts.length → ∀ more p, parseTokens (ts.take (i + 1) ++ more) ≠ .ok p) := by
  rcases hparse : Parser.program (Cursor.ofTokens ts) with ⟨e' | p, d⟩
  swap
  · simp [parseTokens, hparse] at h
  obtain rfl : e' = e := by simpa [parseTokens, hparse] using h
  obtain ⟨hd, hspan, -⟩ := (Parser.performs_program _).error trivial le_rfl hparse
  obtain ⟨X, T, hrun, hact⟩ := steps_of_parseTokens_error hparse
  -- the tokens that have been read and those that have not
  obtain ⟨us, hus⟩ := hd.rest
  rw [Cursor.kinds, Cursor.rest_ofTokens hts] at hrun
  rw [Cursor.rest_ofTokens hts] at hus
  subst hus
  rw [List.map_append] at hrun
  refine ⟨us.length, by simp, ⟨d, rfl, by simp, hspan⟩, ?_, ?_, ?_⟩
  · rw [hspan, Cursor.here, Cursor.current, hd.eof, List.getElem?_append_right le_rfl, Nat.sub_self]
    cases d.rest <;> rfl
  · rw [List.take_left]
    exact exists_parseTokens_append (fun t ht => hts t (List.mem_append_left _ ht)) hrun
  · intro hlt more p
    cases hrest : d.rest with
    | nil => simp [hrest] at hlt
    | cons t rest =>
      have hkinds : d.kinds = t.kind :: rest.map Token.kind := by rw [Cursor.kinds, hrest]; rfl
      have hkind : d.kind = t.kind := by rw [← d.headKind_kinds, hkinds]; rfl
      rw [List.append_cons, List.take_left' (by simp)]
      rw [hrest, hkinds] at hrun
      rw [hkind] at hact
      refine parseTokens_append_ne_ok (fun t' ht' => hts t' ?_) hrun hact
      rw [hrest, List.append_cons]
      exact List.mem_append_left _ ht'

/-- The tokens of `let ) x`. -/
def letWithoutName : List Token :=
  [.keyword .letKw, .punct .rparen, .ident "x"].map TokenKind.nowhere

/-- In `let ) x` the parenthesis is reported: only a name may follow `let`. -/
theorem parseTokens_letWithoutName :
    (∀ t ∈ letWithoutName, t.kind ≠ .eof) ∧
      parseTokens letWithoutName = .error (.expectedIdent .nowhere) ∧
      ∃ i ≤ letWithoutName.length,
        (∃ d, Parser.program (Cursor.ofTokens letWithoutName) =
            (.error (.expectedIdent .nowhere), d) ∧
          d.rest = letWithoutName.drop i ∧ (SyntaxError.expectedIdent .nowhere).span = d.here) ∧
        (SyntaxError.expectedIdent .nowhere).span =
          (letWithoutName[i]?.getD ⟨.eof, Cursor.eofSpan letWithoutName⟩).span ∧
        (∃ more, (∀ t ∈ more, t.kind ≠ .eof) ∧
          ∃ p, parseTokens (letWithoutName.take i ++ more) = .ok p) ∧
        (i < letWithoutName.length →
          ∀ more p, parseTokens (letWithoutName.take (i + 1) ++ more) ≠ .ok p) :=
  have hts : ∀ t ∈ letWithoutName, t.kind ≠ .eof := by decide
  have herror : parseTokens letWithoutName = .error (.expectedIdent .nowhere) := rfl
  ⟨hts, herror, parseTokens_firstError hts herror⟩

end Sable
