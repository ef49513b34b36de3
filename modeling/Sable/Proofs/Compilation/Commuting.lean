import Mathlib.Data.List.Perm.Basic
import Mathlib.Order.WellFoundedSet
import Sable.Proofs.Compilation.Pairing

/-!
# Checks commute

Checks of the same entries end alike in whichever order they are made, if imports come first in all
files, if no two paths stand for modules of the same key, and if nothing stops the passes. A module
that has gone through all passes is made of its text and of what it reads of its imports; these have
imports in turn, but no module leads back to itself. So, from the modules without imports on, twins
in both compilations resemble each other.
-/

namespace Sable

open Context

namespace Context

variable {c d : Context} {l : Loader} {es es' : List Path} {m n : Module} {k : String}

/-- Following imports comes to an end. -/
theorem Linked.wellFounded_edge (h : c.Linked) : WellFounded fun u v => c.graph.Edge v u := by
  have hstrict : IsStrictOrder String (Relation.TransGen fun u v => c.graph.Edge v u) :=
    { irrefl := fun u hu => h.graph.acyclic u (Relation.transGen_swap.mp hu)
      trans := fun _ _ _ => .trans }
  have hkeys := (List.finite_toSet (c.modules.map Module.key)).wellFoundedOn
    (r := Relation.TransGen fun u v => c.graph.Edge v u)
  refine (Set.wellFoundedOn_iff.mp hkeys).mono fun u v hedge => ⟨.single hedge, ?_, ?_⟩
  · obtain ⟨m, hm, rfl⟩ := h.source hedge
    obtain ⟨s, b, -, hb, rfl⟩ := (h.edge_iff m hm u).mp hedge
    obtain ⟨-, u, hu, hkey, -⟩ := h.bound hb
    exact hkey ▸ List.mem_map_of_mem hu
  · obtain ⟨m, hm, rfl⟩ := h.source hedge
    exact List.mem_map_of_mem hm

namespace Counterparts

variable (h : Counterparts l es es' c d)
include h

/-! ### Modules that are reached -/

/-- A module that is reached has been checked behind all other passes. -/
private theorem checked (hm : c.Knows m) (hk : c.Reached l es m.key) : Checked l m.blank c := by
  have hchronicle := (h.left.tells hm).chronicle
  rw [Module.key_blank, h.left.phase_of_reached h.file_of_entry hk] at hchronicle
  exact hchronicle

/-- Twins that are reached resemble each other, if all twins that they import do. -/
private theorem resembles_step (hm : c.Knows m) (hn : d.Knows n) (hkey : m.key = n.key)
    (hk : c.Reached l es m.key)
    (ih : ∀ {u v}, c.graph.Edge m.key u.key → c.Knows u → d.Knows v → u.key = v.key →
      ∃ f g K, Resembles f g K u v c d) : ∃ f g K, Resembles f g K m n c d := by
  obtain ⟨f, g, htwins⟩ := h.twins hm hn hkey
  have hread : ReadsAlike .typechecked m.blank n.blank c d := by
    intro b hb b' hb' hbkey
    obtain ⟨u, hu, hukey, huroot, -⟩ := h.left.proper.exists_of_import hm hb
    obtain ⟨v, hv, hvkey, hvroot, -⟩ := h.right.proper.exists_of_import hn hb'
    obtain ⟨m', hm', hmkey, hmroot, -⟩ := hm.exists_mem
    have hself := (h.left.proper.encloses_root hm).2
    have hedge := (h.left.proper.linked.edge_iff m' hm' b.key).mpr
      ⟨m.root, b, hmroot ▸ hself, hb, rfl⟩
    rw [hmkey, ← hukey] at hedge
    obtain ⟨f', g', K, hK⟩ := ih hedge hu hv (hukey.trans (hbkey.trans hvkey.symm))
    rw [← huroot, ← hvroot]
    exact hK.scopes.readsAs _ hK.root
  obtain ⟨K, hK⟩ := (h.checked hm hk).resembles
    (h.symm.checked hn (hkey ▸ h.reached hk)) ⟨htwins.key, htwins.file, htwins.program⟩
    h.left.proper h.right.proper hread
  exact ⟨f, g, K, hK.root, hK.sees, hK.scopes, hK.reports⟩

/-- Twins that are reached resemble each other. -/
theorem resembles (hm : c.Knows m) (hn : d.Knows n) (hkey : m.key = n.key)
    (hk : c.Reached l es m.key) : ∃ f g K, Resembles f g K m n c d := by
  generalize hu : m.key = u at hk
  induction u using h.left.proper.linked.wellFounded_edge.induction generalizing m n with
  | _ u ih =>
    subst hu
    refine h.resembles_step hm hn hkey hk fun {u v} hedge hu hv huv => ?_
    obtain ⟨e, he, hhas, hway⟩ := hk
    exact ih u.key hedge hu hv huv rfl ⟨e, he, hhas, hway.tail hedge⟩

/-! ### What is shown of modules -/

/-- A module that is not reached has been parsed only, so nothing is known of it. -/
private theorem prefaced (hm : c.Knows m) (hk : ¬ c.Reached l es m.key) :
    Prefaced l m.blank [] c := by
  have hchronicle := (h.left.tells hm).chronicle
  rw [Module.key_blank, h.left.phase_of_not_reached hm hk] at hchronicle
  exact hchronicle

/-- Twins declare the same, and the same is reported in their files. -/
private theorem shows_twins (hm : c.Knows m) (hn : d.Knows n) (hkey : m.key = n.key) :
    c.scopes.outline m.root = d.scopes.outline n.root ∧
      (c.reportsIn m.file.text).map Diagnostic.unfiled =
        (d.reportsIn n.file.text).map Diagnostic.unfiled := by
  by_cases hk : c.Reached l es m.key
  · obtain ⟨f, g, K, hK⟩ := h.resembles hm hn hkey hk
    exact ⟨hK.scopes.outline_eq h.left.proper.linked.scopes h.right.proper.linked.scopes hK.root,
      hK.reports⟩
  · have hm' := h.prefaced hm hk
    have hn' := h.symm.prefaced hn fun hd => hk (hkey ▸ h.symm.reached hd)
    have houtline : c.scopes.outline m.root = [] := ScopeForest.outline_eq_nil hm'.symbols
    have houtline' : d.scopes.outline n.root = [] := ScopeForest.outline_eq_nil hn'.symbols
    have hreports : c.reportsIn m.file.text = [] := (Prod.mk.inj hm'.foreword).2
    have hreports' : d.reportsIn n.file.text = [] := (Prod.mk.inj hn'.foreword).2
    exact ⟨houtline.trans houtline'.symm, by rw [hreports, hreports']⟩

theorem hasModule_eq (k : String) : c.hasModule k = d.hasModule k :=
  Bool.eq_iff_iff.mpr ⟨h.hasModule, h.symm.hasModule⟩

/-- The same keys are registered. -/
theorem keys_eq : c.keys = d.keys := by
  have hsorted (e : Context) : e.keys.Pairwise (· ≤ ·) :=
    List.pairwise_mergeSort' (· ≤ ·) (e.modules.map Module.key)
  have hperm (e : Context) : e.keys.Perm (e.modules.map Module.key) := List.mergeSort_perm ..
  have hsame : (c.modules.map Module.key).Perm (d.modules.map Module.key) := by
    refine (List.perm_ext_iff_of_nodup h.left.proper.linked.keys_nodup
      h.right.proper.linked.keys_nodup).mpr fun k => ?_
    constructor <;> intro hk <;> obtain ⟨m, hm, rfl⟩ := List.mem_map.mp hk
    · exact mem_keys_of_hasModule (h.hasModule (hasModule_of_mem hm))
    · exact mem_keys_of_hasModule (h.symm.hasModule (hasModule_of_mem hm))
  exact ((hperm c).trans (hsame.trans (hperm d).symm)).eq_of_pairwise' (hsorted c) (hsorted d)

/-- The same names are shown of each module. -/
theorem outline_eq (k : String) :
    (c.registered k).map (fun m => c.scopes.outline m.root) =
      (d.registered k).map fun n => d.scopes.outline n.root := by
  have hhas := h.hasModule_eq k
  rw [Context.hasModule, Context.hasModule] at hhas
  rw [registered, registered]
  cases hm : c.module? k with
  | none =>
    have hn : d.module? k = none := by simpa [hm] using hhas.symm
    rw [hn]
    rfl
  | some m =>
    obtain ⟨n, hn⟩ := Option.isSome_iff_exists.mp (hhas.symm.trans (hm ▸ rfl))
    have hkey := (mem_of_module? hm).2.trans (mem_of_module? hn).2.symm
    have hshown := (h.shows_twins (knows_of_module? hm) (knows_of_module? hn) hkey).1
    rw [hn]
    exact congrArg Except.ok hshown

/-- The same is reported in the file of a module. -/
private theorem reports_of_knows (hm : c.Knows m) :
    (c.reportsIn m.file.text).map Diagnostic.unfiled =
      (d.reportsIn m.file.text).map Diagnostic.unfiled := by
  obtain ⟨n, hn⟩ := exists_of_hasModule (h.hasModule hm.hasModule)
  have hknows := knows_of_module? hn
  have hkey := (mem_of_module? hn).2.symm
  obtain ⟨f, g, htwins⟩ := h.twins hm hknows hkey
  have hreports := (h.shows_twins hm hknows hkey).2
  rwa [← htwins.file] at hreports

/-- The same is reported in each file. -/
theorem reports_eq (file : String) :
    (c.reportsIn file).map Diagnostic.unfiled = (d.reportsIn file).map Diagnostic.unfiled := by
  by_cases hm : ∃ m, c.Knows m ∧ m.file.text = file
  · obtain ⟨m, hm, rfl⟩ := hm
    exact h.reports_of_knows hm
  by_cases hn : ∃ n, d.Knows n ∧ n.file.text = file
  · obtain ⟨n, hn, rfl⟩ := hn
    exact (h.symm.reports_of_knows hn).symm
  rw [h.left.attributed.reportsIn_eq_nil fun hm' he => hm ⟨_, hm', he⟩,
    h.right.attributed.reportsIn_eq_nil fun hn' he => hn ⟨_, hn', he⟩]

/-- The same is reported. -/
theorem diagnostics_perm : (c.diagnostics.items.map Diagnostic.unfiled).Perm
    (d.diagnostics.items.map Diagnostic.unfiled) := by
  refine List.perm_iff_count.mpr fun r => ?_
  have hcount (e : Context) : (e.diagnostics.items.map Diagnostic.unfiled).count r =
      ((e.reportsIn r.file).map Diagnostic.unfiled).count r := by
    have hfilter : (e.reportsIn r.file).map Diagnostic.unfiled =
        (e.diagnostics.items.map Diagnostic.unfiled).filter fun r' => r'.file = r.file := by
      rw [List.filter_map]
      rfl
    rw [hfilter, List.count_filter (by simp)]
  rw [hcount, hcount, h.reports_eq]

end Counterparts

end Context

namespace Compilation

variable {l : Loader} {es es' : List Path} {e₁ e₂ : Path}

/-- Two compilations that look the same, but for the order and the files' numbers of reports. -/
structure EndsAlike (c d : Compilation) : Prop where
  /-- The same keys are registered. -/
  keys : c.context.keys = d.context.keys
  /-- Each module has come equally far. -/
  phase : ∀ k, c.context.phase k = d.context.phase k
  /-- The same names are shown of each module. -/
  outline : ∀ k, c.outline k = d.outline k
  /-- The same is reported, and equally often. -/
  diagnostics : (c.context.diagnostics.items.map Diagnostic.unfiled).Perm
    (d.context.diagnostics.items.map Diagnostic.unfiled)

/-- Checks of the same entries end alike. -/
theorem checkAll_endsAlike (hentries : ∀ e, e ∈ es ↔ e ∈ es')
    (hfirst : ∀ p program, l.Parses p program → program.ImportsFirst)
    (hapart : l.KeysApart (es ++ ((checkAll es (new l)).context.modules ++
      (checkAll es' (new l)).context.modules).map Module.file))
    (hmild : (checkAll es (new l)).context.diagnostics.hasFatal = false)
    (hmild' : (checkAll es' (new l)).context.diagnostics.hasFatal = false) :
    EndsAlike (checkAll es (new l)) (checkAll es' (new l)) := by
  have h : Counterparts l es es' (checkAll es (new l)).context (checkAll es' (new l)).context :=
    ⟨annals_checkAll hfirst hmild, annals_checkAll hfirst hmild', hentries, hapart⟩
  exact ⟨h.keys_eq, h.phase_eq, h.outline_eq, h.diagnostics_perm⟩

/--
Entries commute. If imports come first in all files, if no two paths that are parsed have the same
key, and if nothing stops the passes in either order, it does not matter which of two entries is
checked first. An entry counts as parsed: where a check starts with it, it becomes a module if it
can be read.
-/
theorem check_comm (hfirst : ∀ p program, l.Parses p program → program.ImportsFirst)
    (hapart : l.KeysApart ([e₁, e₂] ++ ((checkAll [e₁, e₂] (new l)).context.modules ++
      (checkAll [e₂, e₁] (new l)).context.modules).map Module.file))
    (hmild : (checkAll [e₁, e₂] (new l)).context.diagnostics.hasFatal = false)
    (hmild' : (checkAll [e₂, e₁] (new l)).context.diagnostics.hasFatal = false) :
    EndsAlike (checkAll [e₁, e₂] (new l)) (checkAll [e₂, e₁] (new l)) :=
  checkAll_endsAlike (fun e => by simp [or_comm]) hfirst hapart hmild hmild'

/-! ### An entry that is imported by another one -/

/-- The file `a.sbl`, which imports `b.sbl`, where an unknown type is named. -/
def importedEntry : Loader :=
  .new (.ofRoot ⟨""⟩) (.memory [(⟨"a.sbl"⟩, "import \"b\""), (⟨"b.sbl"⟩, "type T U")])

private theorem importsFirst_importedEntry {p : Path} {program : Program}
    (h : importedEntry.Parses p program) : program.ImportsFirst := by
  obtain ⟨text, n, hread, hparse⟩ := h
  have htext : text = "import \"b\"" ∨ text = "type T U" := by
    simp only [Loader.read, importedEntry, Loader.new, SourceFiles.read] at hread
    split at hread
    · next htext =>
      obtain ⟨q, hmem, -⟩ := SourceFiles.exists_of_textInMemory? htext
      obtain rfl := Except.ok.inj hread
      simp only [List.mem_cons, List.not_mem_nil, or_false, Prod.mk.injEq] at hmem
      exact hmem.imp And.right And.right
    · cases hread
  rcases htext with rfl | rfl
  · have htokens : tokenize "import \"b\"" n = .ok [⟨.keyword .importKw, ⟨0, 6, n⟩⟩,
      ⟨.string "b", ⟨7, 10, n⟩⟩, ⟨.eof, ⟨10, 10, n⟩⟩] := rfl
    rw [parse, htokens] at hparse
    obtain rfl : ⟨[.importing ⟨"b", none, ⟨0, 10, n⟩⟩], ⟨0, 10, n⟩⟩ = program :=
      Except.ok.inj hparse
    intro i hi
    cases hi
  · have htokens : tokenize "type T U" n = .ok [⟨.keyword .typeKw, ⟨0, 4, n⟩⟩,
      ⟨.ident "T", ⟨5, 6, n⟩⟩, ⟨.ident "U", ⟨7, 8, n⟩⟩, ⟨.eof, ⟨8, 8, n⟩⟩] := rfl
    rw [parse, htokens] at hparse
    obtain rfl : ⟨[.typeDecl ⟨⟨"T", ⟨5, 6, n⟩⟩, .named ⟨"U", ⟨7, 8, n⟩⟩, ⟨0, 8, n⟩⟩], ⟨0, 8, n⟩⟩ =
      program := Except.ok.inj hparse
    intro i hi
    simp [Program.body, Stmt.bodyOf, Stmt.placesAll, Stmt.places] at hi

private theorem ends_importedEntry (order : List Path)
    (horder : order = [⟨"a.sbl"⟩, ⟨"b.sbl"⟩] ∨ order = [⟨"b.sbl"⟩, ⟨"a.sbl"⟩]) :
    (checkAll order (new importedEntry)).context.diagnostics.hasFatal = false ∧
      (checkAll order (new importedEntry)).context.modules.map Module.file = order := by
  rcases horder with rfl | rfl <;> decide +kernel

/-- It does not matter whether a file is checked before or behind another one that imports it. -/
theorem endsAlike_importedEntry :
    EndsAlike (checkAll [⟨"a.sbl"⟩, ⟨"b.sbl"⟩] (new importedEntry))
      (checkAll [⟨"b.sbl"⟩, ⟨"a.sbl"⟩] (new importedEntry)) := by
  obtain ⟨hmild, hfiles⟩ := ends_importedEntry _ (Or.inl rfl)
  obtain ⟨hmild', hfiles'⟩ := ends_importedEntry _ (Or.inr rfl)
  refine check_comm (fun _ _ => importsFirst_importedEntry) ?_ hmild hmild'
  rw [List.map_append, hfiles, hfiles']
  unfold Loader.KeysApart
  decide +kernel

end Compilation

end Sable
