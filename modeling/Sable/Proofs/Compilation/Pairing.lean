import Sable.Proofs.Compilation.Mirrored
import Sable.Proofs.Compilation.Resembling
import Sable.Proofs.Scope.Nearest

/-!
# Collecting twins

Behind its preface a module sees the builtin scopes and an outermost scope that declares nothing. So
do twins, and the first pass walks their bodies in step: the scopes that it opens belong together in
the order in which they are opened, the same names are declared in them, and the same problems are
reported. So twins resemble each other once both have been collected, whatever the numbers of their
scopes are.
-/

namespace Sable

open Context

/-! ### Scopes that belong together -/

/--
Scopes of twins that belong together: the builtin ones, the outermost ones, and those that are
opened equally far behind two given numbers.
-/
def TwinScopes (m n : Module) (X Y : Nat) (s t : Nat) : Prop :=
  (s = t ∧ s < initial.scopes.size) ∨ (s = m.root ∧ t = n.root) ∨ ∃ i, s = X + i ∧ t = Y + i

section

variable {m n : Module} {X Y : Nat}

theorem biUnique_twinScopes (hm : initial.scopes.size ≤ m.root) (hm' : m.root < X)
    (hn : initial.scopes.size ≤ n.root) (hn' : n.root < Y) :
    Relator.BiUnique (TwinScopes m n X Y) := by
  constructor
  · rintro s t u (⟨rfl, hs⟩ | ⟨rfl, hu⟩ | ⟨i, rfl, hu⟩) (⟨rfl, ht⟩ | ⟨rfl, hu'⟩ | ⟨j, rfl, hu'⟩) <;>
      grind
  · rintro u s t (⟨rfl, hs⟩ | ⟨hu, rfl⟩ | ⟨i, hu, rfl⟩) (⟨rfl, ht⟩ | ⟨hu', rfl⟩ | ⟨j, hu', rfl⟩) <;>
      grind

end

/-! ### Behind the preface -/

namespace Context

variable {l : Loader} {f g : Nat} {m n : Module} {x y : Context}

/-- A builtin scope holds what it holds at the start. -/
private theorem rel_builtin (hx : x.Proper) (hy : y.Proper) {X Y : Nat} {s : Nat}
    (hs : s < initial.scopes.size) :
    Option.Rel (Scope.Alike (TwinPlaces f g) (TwinScopes m n X Y) fun _ _ => True)
      (x.scopes.scope? s) (y.scopes.scope? s) := by
  have hsound := Compilation.sound_initial
  have hsame {t : Nat} (ht : t < initial.scopes.size) : TwinScopes m n X Y t t := Or.inl ⟨rfl, ht⟩
  obtain ⟨-, -, hsymbols, -⟩ :=
    ScopeForest.rel_scope?_iff.mp (alike_initial.scope? (Eq.refl s))
  rw [ScopeForest.rel_scope?_iff, hx.parents s hs, hy.parents s hs, hx.symbols s hs,
    hy.symbols s hs, hx.imports_eq_nil hs, hy.imports_eq_nil hs]
  refine ⟨iff_of_true (hs.trans_le hx.size_le) (hs.trans_le hy.size_le), ?_, ?_, .nil⟩
  · cases hp : initial.scopes.parent? s with
    | none => exact .none
    | some p => exact .some (hsame ((hsound.parent_lt hp).trans hs))
  · refine forall₂_imp_of_mem hsymbols fun a ha b _ hab =>
      ⟨hab.name, hab.kind, hab.ty?, ?_, Or.inr hab.span⟩
    refine rel_imp_of_mem hab.members? fun u hu v _ huv => ?_
    subst huv
    exact hsame (ScopeForest.lt_size_of_parent? (hsound.members ha hu))

/-- The prefaces of twins have come to the same. -/
private theorem sameForeword (h : Prefaced l m m.program.preface x)
    (h' : Prefaced l n n.program.preface y) (htwins : Twins f g m n) :
    Loader.SameForeword
      ((x.scopes.imports m.root).map ImportBinding.unrooted, x.reportsIn m.file.text)
      ((y.scopes.imports n.root).map ImportBinding.unrooted, y.reportsIn n.file.text) := by
  rw [h.foreword, h'.foreword, htwins.file]
  exact Loader.foreword_same htwins.program.preface

/-- Twins whose prefaces have been followed see the same scopes. -/
theorem Prefaced.matches_twins (h : Prefaced l m m.program.preface x)
    (h' : Prefaced l n n.program.preface y) (htwins : Twins f g m n) (hx : x.Proper)
    (hy : y.Proper) (hm : x.Knows m) (hn : y.Knows n) :
    x.scopes.Matches (TwinPlaces f g) (TwinScopes m n x.scopes.size y.scopes.size)
      (fun _ _ => True) y.scopes where
  pairs := biUnique_twinScopes (hx.apart hm) (hx.root_lt hm) (hy.apart hn) (hy.root_lt hn)
  scope? {s t} hst := by
    rcases hst with ⟨rfl, hs⟩ | ⟨rfl, rfl⟩ | ⟨i, rfl, rfl⟩
    · exact rel_builtin hx hy hs
    · rw [ScopeForest.rel_scope?_iff, hx.parent?_root hm, hy.parent?_root hn, h.symbols, h'.symbols]
      have himports : List.Forall₂ Eq ((x.scopes.imports m.root).map ImportBinding.unrooted)
          ((y.scopes.imports n.root).map ImportBinding.unrooted) :=
        List.forall₂_eq_eq_eq ▸ (sameForeword h h' htwins).1
      rw [List.forall₂_map_left_iff, List.forall₂_map_right_iff] at himports
      refine ⟨iff_of_true (hx.root_lt hm) (hy.root_lt hn), .some (Or.inl ⟨rfl, ?_⟩), .nil,
        himports.imp fun i j hij => ?_⟩
      · exact Compilation.sound_initial.base
      · obtain ⟨halias, hkey, -⟩ := ImportBinding.mk.inj hij
        exact ⟨halias, hkey, trivial⟩
    · -- No scope has been opened behind the preface.
      rw [ScopeForest.scope?_eq_none (Nat.le_add_right ..),
        ScopeForest.scope?_eq_none (Nat.le_add_right ..)]
      exact .none

/-- In the files of twins, the same has been reported of their prefaces. -/
theorem Prefaced.reports_twins (h : Prefaced l m m.program.preface x)
    (h' : Prefaced l n n.program.preface y) (htwins : Twins f g m n) :
    (x.reportsIn m.file.text).map Diagnostic.unfiled =
      (y.reportsIn n.file.text).map Diagnostic.unfiled := (sameForeword h h' htwins).2

end Context

/-! ### Side by side -/

namespace Compilation

variable {l : Loader} {f g X Y : Nat} {m n : Module} {c d : Compilation} {s t : ScopeId}

/-- Two compilations in which the bodies of twins are collected side by side. -/
structure Abreast (f g X Y : Nat) (m n : Module) (c d : Compilation) : Prop where
  /-- The scopes of the one compilation form a forest. -/
  left : c.context.scopes.Sound
  /-- So do those of the other one. -/
  right : d.context.scopes.Sound
  /-- Equally many scopes have been opened on both sides. -/
  opened : ∃ i, c.context.scopes.size = X + i ∧ d.context.scopes.size = Y + i
  /-- The scopes of the twins are the same. -/
  scopes : c.context.scopes.Matches (TwinPlaces f g) (TwinScopes m n X Y) (fun _ _ => True)
    d.context.scopes
  /-- The same is reported in both files. -/
  reports : (c.context.reportsIn m.file.text).map Diagnostic.unfiled =
    (d.context.reportsIn n.file.text).map Diagnostic.unfiled

/-- Opened scopes that belong together. In the scope of the builtin types nothing is declared. -/
structure Open (X Y : Nat) (m n : Module) (c d : Compilation) (s t : Nat) : Prop where
  /-- The scopes belong together. -/
  twins : TwinScopes m n X Y s t
  /-- The one is open. -/
  left : 0 < s ∧ s < c.context.scopes.size
  /-- So is the other one. -/
  right : 0 < t ∧ t < d.context.scopes.size

namespace Abreast

/-- The nearest declarations of a name have members that belong together. -/
theorem visible? (h : Abreast f g X Y m n c d) (hst : Open X Y m n c d s t) (name : String) :
    Option.Rel (fun x y => x.kind = y.kind ∧ Option.Rel (Open X Y m n c d) x.members? y.members?)
      (c.context.scopes.visible? s name) (d.context.scopes.visible? t name) := by
  have hmatches := h.scopes.opened h.left h.right
  have hvisible := hmatches.visible?
    (hmatches.chain h.left h.right ⟨hst.twins, hst.left.2, hst.right.2⟩) name
  refine rel_imp_of_mem hvisible fun x hx y hy hxy => ⟨hxy.kind, ?_⟩
  refine rel_imp_of_mem hxy.members? fun u hu v hv huv => ?_
  -- The members of a name lie in the scope that declares it, so they are not the builtin scope.
  obtain ⟨s', -, hs'⟩ := ScopeForest.exists_of_visible? hx
  obtain ⟨t', -, ht'⟩ := ScopeForest.exists_of_visible? hy
  have hup := h.left.parent_lt (h.left.members (ScopeForest.mem_symbols_of_symbol? hs').1 hu)
  have hvp := h.right.parent_lt (h.right.members (ScopeForest.mem_symbols_of_symbol? ht').1 hv)
  exact ⟨huv.1, ⟨Nat.zero_lt_of_lt hup, huv.2.1⟩, Nat.zero_lt_of_lt hvp, huv.2.2⟩

/-- The same problem is reported alike. -/
theorem reportIn (h : Abreast f g X Y m n c d) (hfile : m.file = n.file) {x y : Span}
    (hxy : x.SameRange y) {message message' : String} (hmessage : message = message') :
    Onward (Open X Y m n) (Abreast f g X Y m n) c d (c.reportIn m x message)
      (d.reportIn n y message') := by
  subst hmessage
  exact ⟨⟨h.left, h.right, h.opened, h.scopes, reports_reportIn hfile h.reports hxy _ _⟩,
    fun hst => ⟨hst.twins, hst.left, hst.right⟩⟩

/-- The same name is declared alike. -/
theorem declare (h : Abreast f g X Y m n c d) (hfile : m.file = n.file)
    (hst : Open X Y m n c d s t) (kind : SymbolKind) {name name' : Ident}
    (hname : name.Alike (Span.Copies f g) name') :
    SameStep (Open X Y m n (c.declare m s kind name).2 (d.declare n t kind name').2)
      (Onward (Open X Y m n) (Abreast f g X Y m n) c d) (c.declare m s kind name)
      (d.declare n t kind name') := by
  obtain ⟨i, hX, hY⟩ := h.opened
  have hnext : TwinScopes m n X Y c.context.scopes.size d.context.scopes.size :=
    Or.inr (Or.inr ⟨i, hX, hY⟩)
  have houtcomes := h.scopes.declare hst.twins (hname.mono fun _ _ => Or.inl) kind none
    ⟨le_rfl, h.scopes.pairs, Or.inl⟩ fun _ => hnext
  rw [Compilation.declare, Compilation.declare, hname.name]
  split
  · exact ⟨.none, h.reportIn hfile hname.span.range rfl⟩
  · generalize hF : c.context.scopes.declare s name kind none = x,
      hG : d.context.scopes.declare t name' kind none = y at houtcomes
    cases houtcomes with
    | error he =>
      refine ⟨.none, h.reportIn hfile hname.span.range ?_⟩
      rw [DuplicateSymbol.message, he]
      rfl
    | @ok p q hpq =>
      obtain ⟨members?, F⟩ := p
      obtain ⟨members?', G⟩ := q
      obtain ⟨hmembers, hFsize⟩ := ScopeForest.members?_declare hF
      obtain ⟨hmembers', hGsize⟩ := ScopeForest.members?_declare hG
      have hgrows := (ScopeForest.grows_declare hst.left.2 (fun h => absurd h hst.left.1.ne') hF).1
      have hgrows' :=
        (ScopeForest.grows_declare hst.right.2 (fun h => absurd h hst.right.1.ne') hG).1
      refine ⟨?_, ⟨hgrows.sound h.left, hgrows'.sound h.right, ?_, hpq.2, h.reports⟩,
        fun huv => ⟨huv.twins, huv.left.imp_right fun hlt => hlt.trans_le hgrows.size_le,
          huv.right.imp_right fun hlt => hlt.trans_le hgrows'.size_le⟩⟩
      · dsimp only
        rw [hmembers, hmembers']
        split
        · next hopens =>
          rw [if_pos hopens] at hFsize hGsize
          refine .some ⟨hnext, ⟨h.left.base, ?_⟩, h.right.base, ?_⟩
          · exact hFsize ▸ Nat.lt_succ_self _
          · exact hGsize ▸ Nat.lt_succ_self _
        · exact .none
      · exact ⟨i + if kind.opensScope then 1 else 0, hFsize.trans (by rw [hX, Nat.add_assoc]),
          hGsize.trans (by rw [hY, Nat.add_assoc])⟩

end Abreast

/-- Collection keeps compilations side by side. -/
theorem corresponds_abreast (hfile : m.file = n.file) :
    Corresponds Span.SameRange (Span.Copies f g) (Open X Y m n) m n (Abreast f g X Y m n) where
  names _ _ h := h.range
  visible? h hst name := h.visible? hst name
  declare h hst kind hname := h.declare hfile hst kind hname
  reportIn h hxy hmessage := h.reportIn hfile hxy hmessage

end Compilation

/-! ### Twins that have gone through the passes -/

namespace Context

variable {l : Loader} {f g : Nat} {m n : Module} {c d : Context}

/-- Twins that have been collected resemble each other. -/
theorem Collected.resembles (h : Collected l m c) (h' : Collected l n d) (htwins : Twins f g m n)
    (hc : c.Proper) (hd : d.Proper) : ∃ K, Resembles f g K m n c d := by
  obtain ⟨p, x, hx, hmremains⟩ := h
  obtain ⟨q, y, hy, hnremains⟩ := h'
  have hroots : TwinScopes m n x.context.scopes.size y.context.scopes.size m.root n.root :=
    Or.inr (Or.inl ⟨rfl, rfl⟩)
  have hpositive {z : Context} {w : Module} (hz : z.Proper) (hw : z.Knows w) : 0 < w.root :=
    Compilation.sound_initial.base.trans_le (hz.apart hw)
  have hmatches := hx.matches_twins hy htwins hmremains.proper hnremains.proper hmremains.knows
    hnremains.knows
  have hreports := hx.reports_twins hy htwins
  have habreast : Compilation.Abreast f g x.context.scopes.size y.context.scopes.size
      { m with phase := p } { n with phase := q } x y :=
    ⟨hmremains.proper.linked.scopes, hnremains.proper.linked.scopes, ⟨0, rfl, rfl⟩, hmatches,
      hreports⟩
  have hopen : Compilation.Open x.context.scopes.size y.context.scopes.size { m with phase := p }
      { n with phase := q } x y m.root n.root :=
    ⟨hroots, ⟨hpositive hmremains.proper hmremains.knows, hmremains.proper.root_lt hmremains.knows⟩,
      hpositive hnremains.proper hnremains.knows, hnremains.proper.root_lt hnremains.knows⟩
  have haccords := Compilation.accords_collector (Compilation.corresponds_abreast
    (m := { m with phase := p }) (n := { n with phase := q }) (f := f) (g := g)
    (X := x.context.scopes.size) (Y := y.context.scopes.size) htwins.file)
  have hwalked := (haccords.walkBody htwins.program hopen habreast).related
  have hmproper := hmremains.proper_walked
  have hnproper := hnremains.proper_walked
  refine ⟨_, Resembles.bypassed ⟨⟨hroots, hmproper.root_lt hmremains.knows_walked,
    hnproper.root_lt hnremains.knows_walked⟩, ?_, hwalked.scopes.opened hwalked.left hwalked.right,
    hwalked.reports⟩ hmproper hnproper hmremains.bypasses hnremains.bypasses hc hd⟩
  rintro s t ⟨⟨rfl, hs⟩ | ⟨rfl, rfl⟩ | ⟨i, rfl, rfl⟩, hlt, hlt'⟩
  · exact ⟨Or.inl hs, Or.inl hs⟩
  · exact ⟨hmproper.sees_root hmremains.knows_walked, hnproper.sees_root hnremains.knows_walked⟩
  · exact ⟨Or.inr (hmremains.works.opened _ (Nat.le_add_right ..) hlt),
      Or.inr (hnremains.works.opened _ (Nat.le_add_right ..) hlt')⟩

/-- What is read alike behind a later phase is read alike behind an earlier one. -/
theorem ReadsAlike.mono {p q : Phase} (h : ReadsAlike p m n c d)
    (hpq : ∀ k, q.Settles k → p.Settles k) : ReadsAlike q m n c d :=
  fun b hb b' hb' hkey => (h b hb b' hb' hkey).mono hpq

/-- Twins that have been resolved resemble each other if they read the same types. -/
theorem Resolved.resembles (h : Resolved l m c) (h' : Resolved l n d) (htwins : Twins f g m n)
    (hc : c.Proper) (hd : d.Proper) (hread : ReadsAlike .resolved m n c d) :
    ∃ K, Resembles f g K m n c d :=
  Advanced.resembles h h' htwins hc hd hread (fun hcorr => accords_resolver hcorr fun _ => id)
    Collected.followed Collected.followed fun hx hy hpx hpy _ => hx.resembles hy htwins hpx hpy

/-- Twins that have been checked resemble each other if they read the same. -/
theorem Checked.resembles (h : Checked l m c) (h' : Checked l n d) (htwins : Twins f g m n)
    (hc : c.Proper) (hd : d.Proper) (hread : ReadsAlike .typechecked m n c d) :
    ∃ K, Resembles f g K m n c d :=
  Advanced.resembles h h' htwins hc hd hread (fun hcorr => accords_checker hcorr fun _ => trivial)
    Resolved.followed Resolved.followed fun hx hy hpx hpy hxy =>
      hx.resembles hy htwins hpx hpy (hxy.mono fun _ _ => trivial)

end Context

end Sable
