import Sable.Proofs.Context.Reading
import Sable.Proofs.Scope.Outline
import Sable.Proofs.Compilation.Agreeing
import Sable.Proofs.Context.Mirrored

/-!
# Twins that resemble each other

A module and its twin in another context resemble each other if the scopes that they see match, and
if the same is reported in their files, up to the numbers of these. Whatever is done to other
modules leaves it at that. A pass behind the first one keeps twins alike if what it reads of the
modules that they import is the same in both contexts.
-/

/-!
## Forests that match at some scopes

Where two forests match, the chains of scopes that belong together do, and so do their outlines.
They go on to match if only some of these scopes are looked at, as long as the scopes around them
and those of their members are among them; if imported modules are told apart more finely; and if
either forest is exchanged for one in which these scopes are the same.
-/

namespace Sable.ScopeForest

/-- A scope of two forests lies in the same place and holds the same. -/
structure SameAt (F G : ScopeForest) (s : ScopeId) : Prop where
  /-- The scope is opened in both forests, or in none. -/
  lt_size : s < G.size ↔ s < F.size
  /-- The scope lies in the same one. -/
  parent? : G.parent? s = F.parent? s
  /-- The same names are declared. -/
  symbols : G.symbols s = F.symbols s
  /-- The same modules are imported. -/
  imports : G.imports s = F.imports s

variable {R : Span → Span → Prop} {K K' Q Q' : ScopeId → ScopeId → Prop} {F F' G G' : ScopeForest}
  {s t : ScopeId}

/-- Scopes are the same if they lie in such scopes, and if they hold the same. -/
theorem rel_scope?_iff : Option.Rel (Scope.Alike R K Q) (F.scope? s) (G.scope? t) ↔
    (s < F.size ↔ t < G.size) ∧ Option.Rel K (F.parent? s) (G.parent? t) ∧
      List.Forall₂ (Symbol.Alike R K) (F.symbols s) (G.symbols t) ∧
      List.Forall₂ (ImportBinding.Alike Q) (F.imports s) (G.imports t) := by
  have hsize {F : ScopeForest} {s : ScopeId} : s < F.size ↔ F.scope? s ≠ none := by
    rw [Ne, scope?_eq_none_iff, Nat.not_le]
  rw [hsize, hsize, parent?, parent?, symbols, symbols, imports, imports]
  cases F.scope? s with
  | none =>
    cases G.scope? t with
    | none => exact ⟨fun _ => ⟨Iff.rfl, .none, .nil, .nil⟩, fun _ => .none⟩
    | some b => simp
  | some a =>
    cases G.scope? t with
    | none => simp
    | some b =>
      constructor
      · intro h
        cases h with
        | some h => exact ⟨by simp, h.parent?, h.symbols, h.imports⟩
      · rintro ⟨-, hparent, hsymbols, himports⟩
        exact .some ⟨hparent, hsymbols, himports⟩

namespace Matches

variable (h : F.Matches R K Q G)
include h

/-- The scopes around scopes that belong together do so, too. -/
theorem chain (hF : F.Sound) (hG : G.Sound) (hst : K s t) :
    List.Forall₂ K (F.chain s) (G.chain t) := by
  induction s using Nat.strong_induction_on generalizing t with
  | _ s ih =>
    obtain ⟨hsize, hparent, -⟩ := rel_scope?_iff.mp (h.scope? hst)
    by_cases hs : s < F.size
    · have ht := hsize.mp hs
      cases hp : F.parent? s with
      | none =>
        cases hq : G.parent? t with
        | none =>
          rw [chain_of_outermost hs hp, chain_of_outermost ht hq]
          exact .cons hst .nil
        | some q =>
          rw [hp, hq] at hparent
          cases hparent
      | some p =>
        cases hq : G.parent? t with
        | none =>
          rw [hp, hq] at hparent
          cases hparent
        | some q =>
          rw [hp, hq] at hparent
          cases hparent with
          | some hpq =>
            rw [chain_of_parent? hF hp, chain_of_parent? hG hq]
            exact .cons hst (ih p (hF.parent_lt hp) hpq)
    · rw [chain_of_size_le (Nat.le_of_not_lt hs),
        chain_of_size_le (Nat.le_of_not_lt fun ht => hs (hsize.mpr ht))]
      exact .nil

/-- The same is read in scopes that belong together. -/
theorem readsAs (looked : SymbolKind → Prop) (hst : K s t) : F.ReadsAs looked s G t :=
  fun name => rel_imp (h.symbol? hst name) fun hxy => hxy.reads looked

/-- The same names are shown, with the same members. -/
theorem outline_eq (hF : F.Sound) (hG : G.Sound) (hst : K s t) : F.outline s = G.outline t := by
  have hlt {F : ScopeForest} (hF : F.Sound) {s : Nat} {x : Symbol} {t : Nat}
      (hx : x ∈ F.symbols s) (ht : x.members? = some t) : s < t := hF.parent_lt (hF.members hx ht)
  calc F.outline s = F.outlineWithin (F.size + G.size) s :=
        outlineWithin_eq (hlt hF) (Nat.le_add_right ..) (by omega)
    _ = G.outlineWithin (F.size + G.size) t := h.outlineWithin hst _
    _ = G.outline t := outlineWithin_eq (hlt hG) (by omega) (Nat.le_add_right ..)

/-! ### Other scopes, imports and forests -/

/-- Only scopes that are opened may be looked at. -/
theorem opened (hF : F.Sound) (hG : G.Sound) :
    F.Matches R (fun s t => K s t ∧ s < F.size ∧ t < G.size) Q G where
  pairs := ⟨fun _ _ _ hst huv => h.pairs.1 hst.1 huv.1, fun _ _ _ hst huv => h.pairs.2 hst.1 huv.1⟩
  scope? {s t} hst := by
    obtain ⟨hsize, hparent, hsymbols, himports⟩ := rel_scope?_iff.mp (h.scope? hst.1)
    refine rel_scope?_iff.mpr ⟨hsize, ?_, ?_, himports⟩
    · exact rel_imp_of_mem hparent fun p hp q hq hpq =>
        ⟨hpq, (hF.parent_lt hp).trans hst.2.1, (hG.parent_lt hq).trans hst.2.2⟩
    · refine forall₂_imp_of_mem hsymbols fun x hx y hy hxy =>
        ⟨hxy.name, hxy.kind, hxy.ty?, ?_, hxy.span⟩
      exact rel_imp_of_mem hxy.members? fun u hu v hv huv =>
        ⟨huv, lt_size_of_parent? (hF.members hx hu), lt_size_of_parent? (hG.members hy hv)⟩

/-- Imported modules may be told apart more finely. -/
theorem reimport (hQ : ∀ {s t}, K s t → ∀ i ∈ F.imports s, ∀ j ∈ G.imports t, i.key = j.key →
    Q' i.root j.root) : F.Matches R K Q' G where
  pairs := h.pairs
  scope? {s t} hst := by
    obtain ⟨hsize, hparent, hsymbols, himports⟩ := rel_scope?_iff.mp (h.scope? hst)
    refine rel_scope?_iff.mpr ⟨hsize, hparent, hsymbols, forall₂_imp_of_mem himports ?_⟩
    exact fun i hi j hj hij => ⟨hij.aliasName, hij.key, hQ hst i hi j hj hij.key⟩

/-- The forests may be exchanged for others in which the same scopes are the same. -/
theorem of_same (hF : ∀ {s t}, K s t → F.SameAt F' s) (hG : ∀ {s t}, K s t → G.SameAt G' t) :
    F'.Matches R K Q G' where
  pairs := h.pairs
  scope? {s t} hst := by
    have hs := hF hst
    have ht := hG hst
    rw [rel_scope?_iff, hs.lt_size, ht.lt_size, hs.parent?, ht.parent?, hs.symbols, ht.symbols,
      hs.imports, ht.imports]
    exact rel_scope?_iff.mp (h.scope? hst)

end Matches

end Sable.ScopeForest

namespace Sable

/-! ### Walks over the bodies of twins -/

namespace Visitor

variable {σ : Type} {N T : Span → Span → Prop} {K : σ → σ → ScopeId → ScopeId → Prop}
  {L : σ → σ → Prop} {v w : Visitor σ} {m n : Module} {c d : σ}

/-- Two visits in step keep the states related on the walks over two bodies. -/
theorem Accords.walkBody (hv : v.Accords N T K L w) (hprogram : m.program.Paired N T n.program)
    (hroot : K c d m.root n.root) (hcd : L c d) :
    Onward K L c d (v.walkBody m c) (w.walkBody n d) := by
  have hsecluded : v.secluded.Mirrors N T K L w.secluded :=
    { function := hv.function
      method := hv.method
      typeDecl := hv.typeDecl
      declaring := hv.declaring
      declared := hv.declared
      assigning := hv.assigning
      name := hv.name
      qualified := hv.qualified
      importing := fun _ _ hcd => ⟨.none, .refl hcd⟩ }
  exact walkStmts_mirrors hsecluded (fun _ _ _ hcd => .refl hcd) hprogram.body hroot hcd

end Visitor

namespace Context

variable {l : Loader} {f g : Nat} {K Q : ScopeId → ScopeId → Prop} {looked : SymbolKind → Prop}
  {m n : Module} {c d c' d' : Context} {p : Phase}

/-! ### Resemblance -/

/-- The places of names of twins, and of the builtin types. -/
def TwinPlaces (f g : Nat) (x y : Span) : Prop :=
  Span.Copies f g x y ∨ (x = Span.nowhere ∧ y = Span.nowhere)

theorem biUnique_twinPlaces (f g : Nat) : Relator.BiUnique (TwinPlaces f g) := by
  -- The builtin types stand at no character, and a name takes some.
  have hleft {y : Span} : ¬ Span.Copies f g Span.nowhere y := fun h => absurd h.nonempty (by decide)
  have hright {x : Span} : ¬ Span.Copies f g x Span.nowhere := fun h => by
    have hne := h.nonempty
    rw [h.range.1, h.range.2] at hne
    exact absurd hne (by decide)
  constructor
  · rintro x y z (hxz | ⟨rfl, rfl⟩) (hyz | ⟨rfl, hz⟩)
    · exact (Span.biUnique_copies f g).1 hxz hyz
    · exact absurd (hz ▸ hxz) hright
    · exact absurd hyz hright
    · rfl
  · rintro x y z (hxy | ⟨rfl, rfl⟩) (hxz | ⟨hx, rfl⟩)
    · exact (Span.biUnique_copies f g).2 hxy hxz
    · exact absurd (hx ▸ hxy) hleft
    · exact absurd hxz hleft
    · rfl

/-- A module of one context and its twin in the other one are alike. -/
structure Resembles (f g : Nat) (K : ScopeId → ScopeId → Prop) (m n : Module) (c d : Context) :
    Prop where
  /-- The outermost scopes belong together. -/
  root : K m.root n.root
  /-- Scopes that belong together are seen by the modules. -/
  sees : ∀ {s t}, K s t → c.Sees m s ∧ d.Sees n t
  /-- They are the same. -/
  scopes : c.scopes.Matches (TwinPlaces f g) K (fun _ _ => True) d.scopes
  /-- The same is reported in both files. -/
  reports : (c.reportsIn m.file.text).map Diagnostic.unfiled =
    (d.reportsIn n.file.text).map Diagnostic.unfiled

/-- A scope that a module sees is seen behind the walk over the module. -/
theorem Works.sees (h : c.Works m d) (hl : c.Linked) {s : ScopeId} (hs : c.Sees m s) :
    d.Sees m s := hs.imp_right (h.scopes.mem_chain hl.scopes)

/-- A scope that a module sees is the same behind a change that bypasses the module. -/
theorem Bypasses.sameAt (h : c.Bypasses m d) (hc : c.Proper) (hd : d.Proper) {s : ScopeId}
    (hs : c.Sees m s) : c.scopes.SameAt d.scopes s where
  lt_size := iff_of_true (hd.lt_size (h.sees.mpr hs)) (hc.lt_size hs)
  parent? := h.parent? hs
  symbols := h.symbols hs
  imports := h.imports hs

/-- Twins stay alike whatever is done to other modules. -/
theorem Resembles.bypassed (h : Resembles f g K m n c d) (hc : c.Proper) (hd : d.Proper)
    (hcc' : c.Bypasses m c') (hdd' : d.Bypasses n d') (hc' : c'.Proper) (hd' : d'.Proper) :
    Resembles f g K m n c' d' where
  root := h.root
  sees hst := (h.sees hst).imp hcc'.sees.mpr hdd'.sees.mpr
  scopes := h.scopes.of_same (fun hst => hcc'.sameAt hc hc' (h.sees hst).1)
    fun hst => hdd'.sameAt hd hd' (h.sees hst).2
  reports := by
    rw [hcc'.reports, hdd'.reports]
    exact h.reports

/-! ### What is read of imported modules -/

/-- Of the modules that twins import, the same is read as far as a phase settles it. -/
def ReadsAlike (p : Phase) (m n : Module) (c d : Context) : Prop :=
  ∀ b ∈ c.scopes.imports m.root, ∀ b' ∈ d.scopes.imports n.root, b.key = b'.key →
    c.scopes.ReadsAs p.Settles b.root d.scopes b'.root

/-- The outermost scope of an imported module is not seen. -/
theorem Proper.not_sees_import (h : c.Proper) (hm : c.Knows m) {b : ImportBinding}
    (hb : b ∈ c.scopes.imports m.root) : ¬ c.Sees m b.root := by
  obtain ⟨u, hu, -, hroot, hne⟩ := h.exists_of_import hm hb
  exact hroot ▸ h.not_sees_root hm hu hne.symm

/-! ### Passes behind the first one -/

/-- Two contexts in which twins are walked side by side. -/
structure Abreast (f g : Nat) (K Q : ScopeId → ScopeId → Prop) (looked : SymbolKind → Prop)
    (m n : Module) (c d : Context) : Prop where
  /-- The scopes of the one context form a forest. -/
  left : c.scopes.Sound
  /-- So do those of the other one. -/
  right : d.scopes.Sound
  /-- The scopes of the twins are the same. -/
  scopes : c.scopes.Matches (TwinPlaces f g) K Q d.scopes
  /-- The same is read of imported modules. -/
  reads : ∀ {s t}, Q s t → c.scopes.ReadsAs looked s d.scopes t
  /-- The same is reported in both files. -/
  reports : (c.reportsIn m.file.text).map Diagnostic.unfiled =
    (d.reportsIn n.file.text).map Diagnostic.unfiled

/-- A report in a file stands behind the reports that were there. -/
theorem reportsIn_reportIn (c : Context) (m : Module) (pass : Pass) (x : Span) (message : String) :
    (c.reportIn m pass x message).reportsIn m.file.text = c.reportsIn m.file.text ++
      [⟨m.file.text, x, message, .semanticError, pass, none⟩] := by
  simp [reportsIn, reportIn, report, List.filter_append]

/-- The same problem of twins is reported alike. -/
theorem reports_reportIn (hfile : m.file = n.file)
    (h : (c.reportsIn m.file.text).map Diagnostic.unfiled =
      (d.reportsIn n.file.text).map Diagnostic.unfiled) {x y : Span} (hxy : x.SameRange y)
    (pass : Pass) (message : String) :
    ((c.reportIn m pass x message).reportsIn m.file.text).map Diagnostic.unfiled =
      ((d.reportIn n pass y message).reportsIn n.file.text).map Diagnostic.unfiled := by
  have hspan : x.inFile 0 = y.inFile 0 := by rw [Span.inFile, Span.inFile, hxy.1, hxy.2]
  rw [reportsIn_reportIn, reportsIn_reportIn, List.map_append, List.map_append, h]
  simp [Diagnostic.unfiled, hspan, hfile]

/-- Walks over twins keep abreast as long as no type is given to a name of an imported module. -/
theorem corresponds_abreast (hfile : m.file = n.file)
    (hapart : ∀ {s t u v}, K s t → Q u v → u ≠ s ∧ v ≠ t) :
    Corresponds Span.SameRange (TwinPlaces f g) (Span.Copies f g) K looked m n
      (Abreast f g K Q looked m n) where
  names _ _ h := h.range
  places _ _ := Or.inl
  tallies h := h.scopes.tallies (biUnique_twinPlaces f g)
    (fun hst => h.scopes.chain h.left h.right hst) fun hst name => h.reads hst name
  setType {c d s t} h hst name ty := by
    refine ⟨(ScopeForest.grows_setType ..).sound h.left,
      (ScopeForest.grows_setType ..).sound h.right, h.scopes.setType hst name ty,
      fun {u v} huv => ?_, h.reports⟩
    obtain ⟨hu, hv⟩ := hapart hst huv
    have hleft : c.scopes.ReadsAs looked u (c.setType s name ty).scopes u :=
      .of_symbols (symbols_setType hu name ty c)
    have hright : d.scopes.ReadsAs looked v (d.setType t name ty).scopes v :=
      .of_symbols (symbols_setType hv name ty d)
    exact (hleft.symm.trans (h.reads huv)).trans hright
  reportIn h pass hxy hmessage := by
    subst hmessage
    exact ⟨h.left, h.right, h.scopes, h.reads, reports_reportIn hfile h.reports hxy pass _⟩

/-- The outermost scopes of modules that twins import under the same key. -/
def ImportedRoots (m n : Module) (c d : Context) (s t : ScopeId) : Prop :=
  ∃ b ∈ c.scopes.imports m.root, ∃ b' ∈ d.scopes.imports n.root,
    b.key = b'.key ∧ b.root = s ∧ b'.root = t

/-- Twins whose imports have been followed import the same modules where scopes belong together. -/
theorem Resembles.importedRoots (h : Resembles f g K m n c d) (hc : c.Proper) (hd : d.Proper)
    (hm : Followed l m c) (hn : Followed l n d) :
    c.scopes.Matches (TwinPlaces f g) K (ImportedRoots m n c d) d.scopes := by
  refine h.scopes.reimport fun {s t} hst b hb b' hb' hkey => ?_
  obtain ⟨hs, ht⟩ := h.sees hst
  -- A builtin scope imports nothing.
  have hs := hs.resolve_left fun hlt => by rw [hc.imports_eq_nil hlt] at hb; cases hb
  have ht := ht.resolve_left fun hlt => by rw [hd.imports_eq_nil hlt] at hb'; cases hb'
  obtain rfl := hm.root hs hb
  obtain rfl := hn.root ht hb'
  exact ⟨b, hb, b', hb', hkey, rfl, rfl⟩

/-- No twin sees the outermost scope of a module that it imports. -/
theorem Resembles.apart (h : Resembles f g K m n c d) (hc : c.Proper) (hd : d.Proper)
    (hm : c.Knows m) (hn : d.Knows n) {s t u v : ScopeId} (hst : K s t)
    (huv : ImportedRoots m n c d u v) : u ≠ s ∧ v ≠ t := by
  obtain ⟨b, hb, b', hb', -, rfl, rfl⟩ := huv
  obtain ⟨hs, ht⟩ := h.sees hst
  constructor
  · rintro rfl
    exact hc.not_sees_import hm hb hs
  · rintro rfl
    exact hd.not_sees_import hn hb' ht

section

variable {v : Module → Visitor Context} {target : Phase} {before before' : Context → Prop}

/-- A pass behind the first one keeps twins alike, if what it reads is the same. -/
theorem Advanced.resembles (hm : Advanced v target before m c) (hn : Advanced v target before' n d)
    (htwins : Twins f g m n) (hc : c.Proper) (hd : d.Proper) (hread : ReadsAlike target m n c d)
    (haccords : ∀ {p q K L},
      Corresponds Span.SameRange (TwinPlaces f g) (Span.Copies f g) K target.Settles
        { m with phase := p } { n with phase := q } L →
      (v { m with phase := p }).Accords Span.SameRange (Span.Copies f g) (fun _ _ => K) L
        (v { n with phase := q }))
    (hfollowed : ∀ {x}, before x → Followed l m x) (hfollowed' : ∀ {x}, before' x → Followed l n x)
    (hbefore : ∀ {x y}, before x → before' y → x.Proper → y.Proper → ReadsAlike target m n x y →
      ∃ K, Resembles f g K m n x y) : ∃ K, Resembles f g K m n c d := by
  obtain ⟨p, x, hx, hmremains, -, hmreads⟩ := hm
  obtain ⟨q, y, hy, hnremains, -, hnreads⟩ := hn
  have hxy : ReadsAlike target m n x y := fun b hb b' hb' hkey =>
    ((hmreads b hb).2.trans (hread b (hmremains.imports_root ▸ hb) b'
      (hnremains.imports_root ▸ hb') hkey)).trans (hnreads b' hb').2.symm
  obtain ⟨K, hK⟩ := hbefore hx hy hmremains.proper hnremains.proper hxy
  have hmatches := hK.importedRoots hmremains.proper hnremains.proper (hfollowed hx) (hfollowed' hy)
  have habreast : Abreast f g K (ImportedRoots m n x y) target.Settles { m with phase := p }
      { n with phase := q } x y := by
    refine ⟨hmremains.proper.linked.scopes, hnremains.proper.linked.scopes, hmatches, ?_,
      hK.reports⟩
    rintro s t ⟨b, hb, b', hb', hkey, rfl, rfl⟩
    exact hxy b hb b' hb' hkey
  have hcorresponds : Corresponds Span.SameRange (TwinPlaces f g) (Span.Copies f g) K target.Settles
      { m with phase := p } { n with phase := q }
      (Abreast f g K (ImportedRoots m n x y) target.Settles { m with phase := p }
        { n with phase := q }) := corresponds_abreast htwins.file
          (hK.apart hmremains.proper hnremains.proper hmremains.knows hnremains.knows)
  have hwalked := ((haccords hcorresponds).walkBody htwins.program hK.root habreast).related
  have hends : Resembles f g K m n ((v { m with phase := p }).walkBody m x)
      ((v { n with phase := q }).walkBody n y) := by
    refine ⟨hK.root, fun hst => ?_, hwalked.scopes.reimport fun _ _ _ _ _ _ => trivial,
      hwalked.reports⟩
    exact (hK.sees hst).imp (hmremains.works.sees hmremains.proper.linked)
      (hnremains.works.sees hnremains.proper.linked)
  exact ⟨K, hends.bypassed hmremains.proper_walked hnremains.proper_walked hmremains.bypasses
    hnremains.bypasses hc hd⟩

end

end Context

end Sable
