import Sable.Proofs.Compilation.Annals

/-!
# Two orders of the same checks

If the same entries are checked in two orders, the same modules are reached from them: the aliases
that a module binds depend on its file and on where the loader finds the files that it imports. So
the same keys are registered, and each module has come equally far.
-/

namespace Sable

/-- No two of some paths stand for modules of the same key. -/
def Loader.KeysApart (l : Loader) (ps : List Path) : Prop :=
  ∀ p ∈ ps, ∀ q ∈ ps, l.moduleKey p = l.moduleKey q → p = q

namespace Context

/-- The same module of two contexts, whose file has been read under two numbers. -/
structure Twins (f g : Nat) (m n : Module) : Prop where
  /-- The keys are equal. -/
  key : m.key = n.key
  /-- The files are equal. -/
  file : m.file = n.file
  /-- The programs are the same. -/
  program : m.program.Paired Span.SameRange (Span.Copies f g) n.program

/-- Two contexts behind checks of the same entries, in which every key stands for one file. -/
structure Counterparts (l : Loader) (es es' : List Path) (c d : Context) : Prop where
  /-- This is told of the one context. -/
  left : Annals l es c
  /-- This is told of the other one. -/
  right : Annals l es' d
  /-- The entries are the same. -/
  entries : ∀ e, e ∈ es ↔ e ∈ es'
  /-- No two paths stand for modules of the same key. -/
  apart : l.KeysApart (es ++ (c.modules ++ d.modules).map Module.file)

namespace Counterparts

variable {l : Loader} {es es' : List Path} {c d : Context} {m n : Module} {k : String}

private theorem mem_left (hm : c.Knows m) :
    m.file ∈ es ++ (c.modules ++ d.modules).map Module.file := by
  obtain ⟨m', hm', -, -, hfile, -⟩ := hm.exists_mem
  exact List.mem_append_right _ (List.mem_map.mpr ⟨m', List.mem_append_left _ hm', hfile⟩)

private theorem mem_right (hn : d.Knows n) :
    n.file ∈ es ++ (c.modules ++ d.modules).map Module.file := by
  obtain ⟨n', hn', -, -, hfile, -⟩ := hn.exists_mem
  exact List.mem_append_right _ (List.mem_map.mpr ⟨n', List.mem_append_right _ hn', hfile⟩)

variable (h : Counterparts l es es' c d)
include h

theorem symm : Counterparts l es' es d c where
  left := h.right
  right := h.left
  entries e := (h.entries e).symm
  apart := by
    have hsub : es' ++ (d.modules ++ c.modules).map Module.file ⊆
        es ++ (c.modules ++ d.modules).map Module.file := by
      rw [List.map_append, List.map_append]
      refine List.append_subset.mpr ⟨fun e he => ?_, List.append_subset.mpr ⟨?_, ?_⟩⟩
      · exact List.mem_append_left _ ((h.entries e).mpr he)
      · exact List.subset_append_of_subset_right _ (List.subset_append_right ..)
      · exact List.subset_append_of_subset_right _ (List.subset_append_left ..)
    exact fun p hp q hq => h.apart p (hsub hp) q (hsub hq)

/-- A key of an entry stands for the file of the entry. -/
theorem file_of_entry (e : Path) (he : e ∈ es) {m : Module} (hm : c.Knows m)
    (hkey : m.key = l.moduleKey e) : m.file = e :=
  h.apart _ (mem_left hm) e (List.mem_append_left _ he)
    ((h.left.grounded.key_of_knows hm).symm.trans hkey)

/-- Under the same key there is the same module. -/
theorem twins (hm : c.Knows m) (hn : d.Knows n) (hkey : m.key = n.key) :
    ∃ f g, Twins f g m n := by
  have hfile : m.file = n.file := by
    refine h.apart _ (mem_left hm) _ (mem_right hn) ?_
    rw [← h.left.grounded.key_of_knows hm, ← h.right.grounded.key_of_knows hn, hkey]
  obtain ⟨text, f, hread, hparse⟩ := h.left.grounded.parses_of_knows hm
  obtain ⟨text', g, hread', hparse'⟩ := h.right.grounded.parses_of_knows hn
  rw [hfile, hread', Except.ok.injEq] at hread
  subst hread
  exact ⟨f, g, hkey, hfile, paired_of_parse hparse hparse'⟩

/-! ### Keys and phases -/

/-- A module that has been collected on both sides imports the same modules. -/
private theorem edge (hm : c.Knows m) (hn : d.Knows n) (hkey : m.key = n.key)
    (hle : Phase.collected ≤ c.phase m.key) (hle' : Phase.collected ≤ d.phase n.key)
    (hedge : c.graph.Edge m.key k) : d.graph.Edge n.key k := by
  obtain ⟨f, g, htwins⟩ := h.twins hm hn hkey
  rw [h.left.edge_iff hm hle, htwins.file,
    (Loader.foreword_same htwins.program.preface).1] at hedge
  exact (h.right.edge_iff hn hle').mpr hedge

/-- The same modules are reached. -/
theorem reached (hk : c.Reached l es k) : d.Reached l es' k := by
  obtain ⟨e, he, hhas, hway⟩ := hk
  induction hway with
  | refl =>
    have he' := (h.entries e).mp he
    obtain ⟨m, hm⟩ := exists_of_hasModule hhas
    have hknows := knows_of_module? hm
    have hparses := h.left.grounded.parses_of_knows hknows
    rw [h.file_of_entry e he hknows (mem_of_module? hm).2] at hparses
    have hphase := h.right.entered e he' m.program hparses
    exact ⟨e, he', hasModule_of_parsed_le (hphase.ge.trans' (by decide)), .refl⟩
  | @tail u v hway hedge ih =>
    have hcame := h.left.phase_of_reached h.file_of_entry ⟨e, he, hhas, hway⟩
    have hcame' := h.right.phase_of_reached h.symm.file_of_entry ih
    obtain ⟨m, hm, rfl⟩ := h.left.proper.linked.source hedge
    obtain ⟨n, hn⟩ := exists_of_hasModule
      (hasModule_of_parsed_le (hcame'.ge.trans' (by decide) : Phase.parsed ≤ d.phase m.key))
    have hkey := (mem_of_module? hn).2
    have hknows := knows_of_module? (h.left.proper.linked.module?_of_mem hm)
    have hedge' := h.edge hknows (knows_of_module? hn) hkey.symm (hcame.ge.trans' (by decide))
      (hkey ▸ hcame'.ge.trans' (by decide)) hedge
    obtain ⟨e', he', hhas', hway'⟩ := ih
    exact ⟨e', he', hhas', hway'.tail (hkey ▸ hedge')⟩

/-- The same keys are registered. -/
theorem hasModule (hhas : c.hasModule k = true) : d.hasModule k = true := by
  have hreached {k : String} (hk : c.Reached l es k) : d.hasModule k = true := by
    have hphase := h.right.phase_of_reached h.symm.file_of_entry (h.reached hk)
    exact hasModule_of_parsed_le (hphase.ge.trans' (by decide))
  obtain ⟨m, hm⟩ := exists_of_hasModule hhas
  obtain ⟨-, rfl⟩ := mem_of_module? hm
  rcases (h.left.tells (knows_of_module? hm)).named with hk | ⟨u, i, hu, hk, hi, hleads⟩
  · exact hreached hk
  · -- The module that names this one has been collected on the other side, too.
    obtain ⟨w, hw⟩ := exists_of_hasModule (hreached hk)
    have hwkey := (mem_of_module? hw).2
    have hwknows := knows_of_module? hw
    obtain ⟨f, g, htwins⟩ := h.twins hu hwknows hwkey.symm
    have hphase := h.right.phase_of_reached h.symm.file_of_entry (h.reached hk)
    have hpaths := map_eq_of_forall₂ (f := Import.path) (g := Import.path)
      htwins.program.preface fun hij => hij.path
    obtain ⟨j, hj, hij⟩ := List.mem_map.mp (hpaths ▸ List.mem_map_of_mem hi)
    have hle : Phase.collected ≤ d.phase w.key := by rw [hwkey, hphase]; decide
    obtain ⟨key, ⟨file, hlocate, rfl⟩, hhas'⟩ := (h.right.followed hwknows hle).located j hj
    obtain ⟨file', hlocate', hmkey⟩ := hleads
    rw [htwins.file, ← hij, hlocate, Except.ok.injEq] at hlocate'
    rw [hlocate', hmkey] at hhas'
    exact hhas'

omit h in
private theorem phase_of_free (hfree : c.hasModule k = false) : c.phase k = .notStarted := by
  have hnone : c.module? k = none := by simpa [Context.hasModule] using hfree
  rw [phase, hnone]
  rfl

/-- Every module has come equally far. -/
theorem phase_eq (k : String) : c.phase k = d.phase k := by
  cases hhas : c.hasModule k with
  | false =>
    have hhas' : d.hasModule k = false :=
      Bool.eq_false_of_not_eq_true fun hd => by simp [h.symm.hasModule hd] at hhas
    rw [phase_of_free hhas, phase_of_free hhas']
  | true =>
    obtain ⟨m, hm⟩ := exists_of_hasModule hhas
    obtain ⟨n, hn⟩ := exists_of_hasModule (h.hasModule hhas)
    obtain ⟨-, rfl⟩ := mem_of_module? hm
    have hkey := (mem_of_module? hn).2
    by_cases hk : c.Reached l es m.key
    · rw [h.left.phase_of_reached h.file_of_entry hk,
        h.right.phase_of_reached h.symm.file_of_entry (h.reached hk)]
    · have hk' : ¬ d.Reached l es' n.key := fun hd => hk (hkey ▸ h.symm.reached hd)
      rw [h.left.phase_of_not_reached (knows_of_module? hm) hk, ← hkey,
        h.right.phase_of_not_reached (knows_of_module? hn) hk']

end Counterparts

end Context

end Sable
