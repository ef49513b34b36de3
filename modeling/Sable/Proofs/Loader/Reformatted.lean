import Sable.Loader
import Sable.Proofs.Syntax.Parallel
import Sable.Proofs.Token.Spans

/-!
# Reformatted sources

Two source stores hold the same files up to formatting if they have the same paths and the texts
of every path are read as tokens of the same kinds. Every import leads to the same file in both,
and every file yields the same program, with the spans of its names related one to one.
-/

namespace Sable

/-- The same files twice, with texts that differ in blanks and comments only. -/
inductive SourceFiles.Reformats : SourceFiles → SourceFiles → Prop
  | memory {files files' : List (Path × String)} :
    List.Forall₂ (fun f g => f.1 = g.1 ∧ SameTokens f.2 g.2) files files' →
    Reformats (.memory files) (.memory files')
  | tree {t u : FileTree} :
    List.Forall₂ (fun f g => f.1 = g.1 ∧ Option.Rel SameTokens f.2 g.2) t.files u.files →
    Reformats (.tree t) (.tree u)

/-! ### Files below a working directory -/

namespace FileTree

variable {t u : FileTree}
  (h : List.Forall₂ (fun f g => f.1 = g.1 ∧ Option.Rel SameTokens f.2 g.2) t.files u.files)
include h

theorem rel_file? (names : List (List Char)) :
    Option.Rel (Option.Rel SameTokens) (t.file? names) (u.file? names) :=
  rel_map (rel_find? (List.rel_reverse h) fun hfg => congrArg (· == names) hfg.1)
    fun hfg => hfg.2

theorem isDirectory_eq (names : List (List Char)) :
    t.isDirectory names = u.isDirectory names := by
  have hnames : t.files.map Prod.fst = u.files.map Prod.fst :=
    List.forall₂_eq_eq_eq ▸ List.forall₂_map_left_iff.mpr
      (List.forall₂_map_right_iff.mpr (h.imp fun _ _ hfg => hfg.1))
  have hany := congrArg (List.any · fun ns => names.length < ns.length && names.isPrefixOf ns)
    hnames
  rw [List.any_map, List.any_map] at hany
  exact congrArg (names.isEmpty || ·) hany

theorem walk_eq (place : Place) (steps : List PathComponent) :
    t.walk place steps = u.walk place steps := by
  have hstep : ∀ place step, t.step place step = u.step place step := by
    intro place step
    have hfile := fun names => isSome_eq_of_rel (rel_file? h names)
    cases place <;> cases step <;> simp only [FileTree.step, isDirectory_eq h, hfile]
  induction steps generalizing place with
  | nil => rfl
  | cons step steps ih =>
    rw [walk, walk, hstep]
    split
    · exact ih _
    · rfl

theorem outcomes_read (p : Path) : Outcomes Eq SameTokens (t.read p) (u.read p) := by
  rw [FileTree.read, FileTree.read, walk_eq h]
  split
  · exact .error rfl
  split
  · exact .error rfl
  split
  · exact .error rfl
  split
  · exact .error rfl
  · next names _ =>
    have hfile := rel_file? h names
    generalize t.file? names = f, u.file? names = g at hfile
    cases hfile with
    | none => exact .error rfl
    | some htext =>
      dsimp only
      split
      · exact .error rfl
      · cases htext with
        | none => exact .error rfl
        | some hsame => exact .ok hsame
  · exact .error rfl

end FileTree

/-! ### Source stores -/

namespace SourceFiles.Reformats

variable {S S' : SourceFiles}

theorem rel_textInMemory? {files files' : List (Path × String)}
    (h : List.Forall₂ (fun f g => f.1 = g.1 ∧ SameTokens f.2 g.2) files files') (p : Path) :
    Option.Rel SameTokens (textInMemory? files p) (textInMemory? files' p) :=
  rel_map (rel_find? (List.rel_reverse h) fun hfg =>
    congrArg (fun q : Path => decide (q.normalize = p.normalize)) hfg.1) fun hfg => hfg.2

theorem size_eq (h : S.Reformats S') : S.size = S'.size := by
  cases h with
  | memory h => exact h.length_eq
  | tree h => exact h.length_eq

/-- The same paths name files. -/
theorem isFile_eq (h : S.Reformats S') (p : Path) : S.isFile p = S'.isFile p := by
  cases h with
  | memory h => exact isSome_eq_of_rel (rel_textInMemory? h p)
  | @tree t u h =>
    have hread := FileTree.outcomes_read h p
    rw [SourceFiles.isFile, SourceFiles.isFile, FileTree.isFile, FileTree.isFile]
    generalize t.read p = x, u.read p = y at hread
    cases hread with
    | ok _ => rfl
    | error he => simp only [he]

/-- The same paths have texts, and these differ in blanks and comments only. -/
theorem outcomes_read (h : S.Reformats S') (p : Path) :
    Outcomes Eq SameTokens (S.read p) (S'.read p) := by
  cases h with
  | @memory files files' h =>
    have htext := rel_textInMemory? h p
    rw [SourceFiles.read, SourceFiles.read]
    generalize textInMemory? files p = x, textInMemory? files' p = y at htext
    cases htext with
    | none => exact .error rfl
    | some hsame => exact .ok hsame
  | @tree t u h =>
    have hread := FileTree.outcomes_read h p
    rw [SourceFiles.read, SourceFiles.read]
    generalize t.read p = x, u.read p = y at hread
    cases hread with
    | ok hsame => exact .ok hsame
    | error he => exact .error (by rw [he])

end SourceFiles.Reformats

/-! ### Loaders -/

/-- The same loader twice, with stores that differ in formatting only. -/
structure Loader.Reformats (l l' : Loader) : Prop where
  /-- Modules are looked for in the same places. -/
  options : l.options = l'.options
  /-- The stores hold the same files up to formatting. -/
  store : l.store.Reformats l'.store
  /-- The same files were read so far. -/
  files : l.files = l'.files

/-- A file yields no program for the same reason, though maybe in another place. -/
inductive LoadError.Alike : LoadError → LoadError → Prop
  | read (cause : ReadError) : LoadError.Alike (.read cause) (.read cause)
  | grammar {e f : SyntaxError} : e.message = f.message →
    LoadError.Alike (.grammar e) (.grammar f)

theorem LoadError.Alike.message {e f : LoadError} (h : e.Alike f) : e.message = f.message := by
  cases h with
  | read => rfl
  | grammar h => exact h

/-- A place that stands in no source text, or in a file of a smaller number. -/
def Span.Below (n : Nat) (x : Span) : Prop := x = Span.nowhere ∨ x.file < n

/-- Places of the names in the file of one number. -/
structure Span.Within (n : Nat) (T : Span → Span → Prop) : Prop where
  /-- They are related one to one. -/
  places : Relator.BiUnique T
  /-- On the one side they lie in the file and take characters. -/
  left : ∀ {x y}, T x y → x.file = n ∧ x.start < x.stop
  /-- On the other side they lie in the file and take characters. -/
  right : ∀ {x y}, T x y → y.file = n ∧ y.start < y.stop

theorem Span.Below.mono {n k : Nat} {x : Span} (hx : x.Below n) (hnk : n ≤ k) : x.Below k :=
  Or.imp_right (fun h => Nat.lt_of_lt_of_le h hnk) hx

theorem Span.Below.ne {n : Nat} {x z : Span} (hx : x.Below n) (hz : z.file = n ∧ z.start < z.stop) :
    x ≠ z := by
  rintro rfl
  rcases hx with rfl | hx
  · exact absurd hz.2 (Nat.lt_irrefl 0)
  · exact absurd hz.1 (Nat.ne_of_lt hx)

namespace Loader.Reformats

variable {l l' : Loader}

theorem moduleKey_eq (h : l.Reformats l') (p : Path) : l.moduleKey p = l'.moduleKey p := by
  rw [moduleKey, moduleKey, h.options]

/-- An import leads to the same file. -/
theorem locate_eq (h : l.Reformats l') (path : String) (importer : Path) :
    l.locate path importer = l'.locate path importer := by
  have hisFile : l.store.isFile = l'.store.isFile := funext h.store.isFile_eq
  simp only [locate, locateRemote, locateLocal, bases, h.options, hisFile]

/--
A file either cannot be read in both, or yields the same program, or none for the same reason.
The names of the programs stand in places of the file that is read.
-/
theorem load (h : l.Reformats l') (p : Path) :
    (∃ e, l.load p = (.error (.read e), l) ∧ l'.load p = (.error (.read e), l')) ∨
      ∃ T, Span.Within l.files.length T ∧
        Outcomes LoadError.Alike (Program.Paired Span.Free T) (l.load p).1 (l'.load p).1 ∧
        (l.load p).2.Reformats (l'.load p).2 ∧ (l.load p).2.files = l.files ++ [p] := by
  have hread := h.store.outcomes_read p
  rw [Loader.load, Loader.load, Loader.read, Loader.read]
  generalize l.store.read p = x, l'.store.read p = y at hread
  cases hread with
  | @error e e' he =>
    rw [he]
    exact Or.inl ⟨e', rfl, rfl⟩
  | @ok text text' hsame =>
    obtain ⟨ts, ts', hts, hts', hkinds⟩ := hsame.refile l.files.length
    have hordered := ordered_tokenize hts
    have hordered' := ordered_tokenize hts'
    have hparse := outcomes_parseTokens (N := Span.Free) (forall₂_corresponds hkinds) trivial
    refine Or.inr ⟨Corresponds ts ts', ⟨biUnique_corresponds hordered hordered',
      fun hxy => (hxy.span hordered hordered').1, fun hxy => (hxy.span hordered hordered').2⟩, ?_,
      ⟨h.options, h.store, by rw [h.files]⟩, rfl⟩
    simp only [parse, ← h.files, hts, hts', Except.bind]
    generalize parseTokens ts = x, parseTokens ts' = y at hparse
    cases hparse with
    | ok hprogram => exact .ok hprogram
    | error hmessage => exact .error (.grammar hmessage)

end Loader.Reformats

/-!
## The same text under another number

A file is parsed under the number that it happens to get, and this number is all that the program
has of it: read under another one, the same text yields the same program, with every span at the
same characters of the other file. The names of both programs stand in places that are related one
to one, since the places differ in the number of the file only.
-/

namespace Span

/-- The same characters of the file of another number. -/
def inFile (n : Nat) (x : Span) : Span := { x with file := n }

/-- Two spans cover the same characters, each of its own file. -/
def SameRange (x y : Span) : Prop := x.start = y.start ∧ x.stop = y.stop

/-- The place of a name in a text that is read under two numbers. -/
structure Copies (f g : Nat) (x y : Span) : Prop where
  /-- The same characters are covered. -/
  range : x.SameRange y
  /-- One place lies in the file of the first number. -/
  left : x.file = f
  /-- The other one lies in the file of the second number. -/
  right : y.file = g
  /-- A name takes characters. -/
  nonempty : x.start < x.stop

theorem biUnique_copies (f g : Nat) : Relator.BiUnique (Copies f g) := by
  constructor
  · rintro ⟨a, b, _⟩ ⟨c, d, _⟩ z h h'
    obtain rfl : a = c := h.range.1.trans h'.range.1.symm
    obtain rfl : b = d := h.range.2.trans h'.range.2.symm
    rw [Span.mk.injEq]
    exact ⟨rfl, rfl, h.left.trans h'.left.symm⟩
  · rintro z ⟨a, b, _⟩ ⟨c, d, _⟩ h h'
    obtain rfl : a = c := h.range.1.symm.trans h'.range.1
    obtain rfl : b = d := h.range.2.symm.trans h'.range.2
    rw [Span.mk.injEq]
    exact ⟨rfl, rfl, h.right.trans h'.right.symm⟩

instance (f g : Nat) : Merging SameRange (Copies f g) where
  names _ _ h := h.range
  merge h h' := ⟨congrArg₂ min h.1 h'.1, congrArg₂ max h.2 h'.2⟩

end Span

/-- The same token in the file of another number. -/
def Token.inFile (n : Nat) (t : Token) : Token := { t with span := t.span.inFile n }

namespace Lexer

variable {lx lx' : Lexer}

/-- Under another number, the next token covers the same characters. -/
theorem next_inFile {t : Token} (h : lx.next = (.ok t, lx')) (n : Nat) :
    ({ lx with file := n } : Lexer).next = (.ok (t.inFile n), { lx' with file := n }) := by
  have hskip : ({ lx with file := n } : Lexer).skipTrivia = { lx.skipTrivia with file := n } := rfl
  unfold next at h ⊢
  rw [hskip]
  generalize lx.skipTrivia = lz at h
  obtain ⟨rest, pos, file⟩ := lz
  cases rest with
  | nil =>
    obtain ⟨rfl, rfl⟩ : (⟨.eof, (⟨[], pos, file⟩ : Lexer).spanOf 0⟩ : Token) = t ∧
        (⟨[], pos, file⟩ : Lexer) = lx' := by simpa using h
    rfl
  | cons c rest =>
    simp only [Prod.mk.injEq] at h ⊢
    obtain ⟨ht, rfl⟩ := h
    generalize hspan : (⟨c :: rest, pos, file⟩ : Lexer).spanOf (lexeme c rest).length = x at ht
    cases ho : (lexeme c rest).outcome x with
    | error e => simp [ho, Except.map] at ht
    | ok kind =>
      simp only [ho, Except.map, Except.ok.injEq] at ht
      subst ht hspan
      exact ⟨by rw [steady_lexeme c rest _ ho]; rfl, rfl⟩

theorem tokensWithin_inFile {k : Nat} {ts : List Token} (h : lx.tokensWithin k = .ok ts) (n : Nat) :
    ({ lx with file := n } : Lexer).tokensWithin k = .ok (ts.map (Token.inFile n)) := by
  induction k generalizing lx ts with
  | zero =>
    rw [tokensWithin] at h ⊢
    rcases hn : lx.next with ⟨e | t, lx'⟩
    · simp [hn, Except.map] at h
    · simp only [hn, Except.map, Except.ok.injEq] at h
      rw [next_inFile hn n, ← h]
      rfl
  | succ k ih =>
    rw [tokensWithin] at h ⊢
    rcases hn : lx.next with ⟨e | t, lx'⟩
    · simp [hn] at h
    · simp only [hn] at h
      have hkind : (t.inFile n).kind = t.kind := rfl
      simp only [next_inFile hn n, hkind]
      by_cases heof : t.kind = .eof
      · simp only [heof, ↓reduceIte, Except.ok.injEq] at h ⊢
        rw [← h]
        rfl
      · simp only [heof, ↓reduceIte] at h ⊢
        cases hts : lx'.tokensWithin k with
        | error e => simp [hts, Except.map] at h
        | ok us =>
          simp only [hts, Except.map, Except.ok.injEq] at h
          rw [ih hts, ← h]
          rfl

end Lexer

/-- Under another number, a text has the same tokens at the same characters. -/
theorem tokenize_inFile {text : String} {f : Nat} {ts : List Token}
    (h : tokenize text f = .ok ts) (g : Nat) :
    tokenize text g = .ok (ts.map (Token.inFile g)) :=
  have htokens : (Lexer.ofSource text f).tokensWithin _ = .ok ts := h
  Lexer.tokensWithin_inFile htokens g

private theorem eofSpan_inFile (ts : List Token) (g : Nat) :
    (Cursor.eofSpan ts).SameRange (Cursor.eofSpan (ts.map (Token.inFile g))) := by
  have hfind : (ts.map (Token.inFile g)).find? (fun t => t.kind = .eof) =
      (ts.find? fun t => t.kind = .eof).map (Token.inFile g) := List.find?_map
  rw [Cursor.eofSpan, Cursor.eofSpan, hfind, List.getLast?_map]
  cases ts.find? fun t => t.kind = .eof with
  | some t => exact ⟨rfl, rfl⟩
  | none =>
    cases ts.getLast? with
    | some t => exact ⟨rfl, rfl⟩
    | none => exact ⟨rfl, rfl⟩

/-- Under another number, a text is the same program at the same characters. -/
theorem paired_of_parse {text : String} {f g : Nat} {p q : Program}
    (hp : parse text f = .ok p) (hq : parse text g = .ok q) :
    p.Paired Span.SameRange (Span.Copies f g) q := by
  cases hts : tokenize text f with
  | error e => simp [parse, hts, Except.bind] at hp
  | ok ts =>
    have hordered := ordered_tokenize hts
    have htokens : List.Forall₂ (fun t u => t.kind = u.kind ∧
        (t.kind ≠ .eof → Span.Copies f g t.span u.span)) ts (ts.map (Token.inFile g)) := by
      refine List.forall₂_map_right_iff.mpr (List.forall₂_same.mpr fun t ht => ⟨rfl, fun hk => ?_⟩)
      exact ⟨⟨rfl, rfl⟩, hordered.file t ht, rfl, hordered.nonempty t ht hk⟩
    have hparse := outcomes_parseTokens htokens (eofSpan_inFile ts g)
    rw [show parseTokens ts = .ok p by simpa [parse, hts, Except.bind] using hp,
      show parseTokens (ts.map (Token.inFile g)) = .ok q by
        simpa [parse, tokenize_inFile hts g, Except.bind] using hq] at hparse
    cases hparse with
    | ok h => exact h

end Sable
