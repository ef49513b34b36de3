import Sable.Proofs.Context.Walking

/-!
# Importers and their imports

A module never gets ahead of the modules that it imports. While modules are collected this
rests on the open walks: an import that has been bound stands for a module that is collected
or still on an open walk, and the module whose walk is closed first has no import of the
latter kind, since the edges form no cycle.
-/

namespace Sable.Context

/-- No module is ahead of its imports, as seen from the open walks of the first pass. -/
structure InStep (stack : List String) (ctx : Context) : Prop where
  /-- A module imported in the outermost scope of another has come at least as far. -/
  outer : ∀ m ∈ ctx.modules, ∀ b ∈ ctx.scopes.imports m.root, m.phase ≤ ctx.phase b.key
  /-- An imported module is collected, or its walk is open. -/
  bound : ∀ {s b}, b ∈ ctx.scopes.imports s → b.key ∈ stack ∨ Phase.collected ≤ ctx.phase b.key

/-- What an import of a module adds to the bindings of a context. -/
def AddsBinding (ctx : Context) (m : Module) (key? : Option String) (d : Context) : Prop :=
  ∀ {s b}, b ∈ d.scopes.imports s → b ∈ ctx.scopes.imports s ∨
    (m.root ∈ d.scopes.chain s ∧ (key? = some b.key ∨ Phase.collected ≤ d.phase b.key))

variable {ctx d : Context} {m : Module} {stack : List String} {key : String}

namespace InStep

/-- Names may be declared. -/
theorem fills (h : ctx.InStep stack) (hd : ctx.Fills d) : d.InStep stack where
  outer m hm b hb := by
    rw [hd.modules] at hm
    rw [hd.scopes.imports] at hb
    rw [phase_congr hd.modules]
    exact h.outer m hm b hb
  bound hb := by
    rw [hd.scopes.imports] at hb
    rw [phase_congr hd.modules]
    exact h.bound hb

/-- A module that is collected needs no open walk. -/
theorem close (h : ctx.InStep (key :: stack)) (hle : Phase.collected ≤ ctx.phase key) :
    ctx.InStep stack where
  outer := h.outer
  bound {s b} hb := by
    refine (h.bound hb).elim (fun hopen => ?_) Or.inr
    rcases List.mem_cons.mp hopen with heq | hopen
    · exact Or.inr (heq ▸ hle)
    · exact Or.inl hopen

/-- A module that has been collected was registered before an import, and as far on. -/
private theorem exists_before (hl : d.Linked) (hd : ctx.Extends d)
    (hphases : ∀ k, d.phase k = ctx.phase k ∨ d.phase k ≤ .parsed) (hm : m ∈ d.modules)
    (hle : ¬ m.phase ≤ .parsed) : ∃ m' ∈ ctx.modules, m'.root = m.root ∧ m'.phase = m.phase := by
  have hphase := phase_of_module? (hl.module?_of_mem hm)
  have hsame : ctx.phase m.key = m.phase := by
    rcases hphases m.key with hk | hk
    · exact hk.symm.trans hphase
    · exact absurd (hphase.symm.trans_le hk) hle
  have hhas : ctx.hasModule m.key = true := by
    refine hasModule_of_parsed_le ?_
    rw [hsame]
    exact hl.parsed m hm
  obtain ⟨m', hm'⟩ := exists_of_hasModule hhas
  obtain ⟨hmem, hkey⟩ := mem_of_module? hm'
  obtain ⟨p, -, hknown⟩ := hd.modules (knows_of_module? hm')
  rw [hkey, hl.module?_of_mem hm, Option.some.injEq] at hknown
  refine ⟨m', hmem, by rw [hknown], ?_⟩
  rw [← hsame, phase_of_module? hm']

/--
A context may be extended if no module is led beyond parsing, and only modules that are not
collected get bindings in their outermost scopes.
-/
theorem extend (h : ctx.InStep stack) (hl : d.Linked) (hd : ctx.Extends d)
    (hphases : ∀ k, d.phase k = ctx.phase k ∨ d.phase k ≤ .parsed) {stack' : List String}
    (hsub : stack ⊆ stack') (hnew : ∀ {s b}, b ∈ d.scopes.imports s → b ∈ ctx.scopes.imports s ∨
      ((∀ m ∈ d.modules, m.root = s → m.phase ≤ .parsed) ∧
        (b.key ∈ stack' ∨ Phase.collected ≤ d.phase b.key))) : d.InStep stack' where
  outer m hm b hb := by
    obtain ⟨-, target, htarget, hkey, -⟩ := hl.bound hb
    by_cases hle : m.phase ≤ .parsed
    · refine hle.trans ?_
      rw [← hkey, phase_of_module? (hl.module?_of_mem htarget)]
      exact hl.parsed target htarget
    · obtain ⟨m', hm', hroot, hphase⟩ := exists_before hl hd hphases hm hle
      rcases hnew hb with hold | ⟨hearly, -⟩
      · rw [← hphase]
        exact (h.outer m' hm' b (hroot.symm ▸ hold)).trans (hd.phase_le _)
      · exact absurd (hearly m hm rfl) hle
  bound hb := by
    rcases hnew hb with hold | ⟨-, hbound⟩
    · exact (h.bound hold).imp (@hsub _) fun hle => hle.trans (hd.phase_le _)
    · exact hbound

/-- A module whose walk is open may import another one, which is collected or turned to. -/
theorem imported (h : ctx.InStep stack) (hw : d.Walking .parsed stack) (hd : ctx.Extends d)
    (hphases : ∀ k, d.phase k = ctx.phase k ∨ d.phase k ≤ .parsed) (hm : d.Knows m)
    (hopen : m.key ∈ stack) {key? : Option String} (hadds : ctx.AddsBinding m key? d) :
    d.InStep (key?.toList ++ stack) := by
  refine h.extend hw.linked hd hphases (List.subset_append_right ..) fun {s b} hb => ?_
  refine (hadds hb).imp_right fun ⟨hchain, hnew⟩ => ⟨fun u hu hroot => ?_, ?_⟩
  · -- The scope lies in the tree of the module whose walk is open, which is not collected yet.
    obtain ⟨m', hm', hmkey, hmroot, -⟩ := hm.exists_mem
    have hself := ScopeForest.mem_chain_self (ScopeForest.lt_size_of_mem_imports hb)
    have hu' : u.root ∈ d.scopes.chain s := hroot.symm ▸ hself
    obtain rfl := hw.linked.eq_of_mem_chain hm' hu (hmroot.symm ▸ hchain) hu'
    have hparsed := hw.phases _ (hmkey.symm ▸ hopen)
    rw [phase_of_module? (hw.linked.module?_of_mem hm')] at hparsed
    exact hparsed.le
  · exact hnew.imp (fun heq => by simp [heq]) id

/-- Closing a walk leads a module on whose imports are all collected. -/
theorem leave (h : ctx.InStep (m.key :: stack)) (hw : ctx.Walking .parsed (m.key :: stack))
    (hd : ctx.Passes .collected d) (hphase : ∀ k, d.phase k = if k = m.key then .collected
      else ctx.phase k) : d.InStep stack := by
  have hstep : d.InStep (m.key :: stack) := by
    refine ⟨fun u hu b hb => ?_, fun hb => ?_⟩
    · have hdu := phase_of_module? ((hd.linked hw.linked).module?_of_mem hu)
      obtain ⟨u', hu', p, -, rfl⟩ := hd.exists_mem hw.linked hu
      rw [hd.scopes.imports] at hb
      have hedge := (hw.linked.edge_iff u' hu' b.key).mpr ⟨_, b,
        ScopeForest.mem_chain_self (ScopeForest.lt_size_of_mem_imports hb), hb, rfl⟩
      rw [← hdu, hphase]
      split
      · next hkey =>
        -- An import on an open walk would close a cycle of edges.
        have hkey : u'.key = m.key := hkey
        refine ((h.bound hb).resolve_left fun hopen => ?_).trans (hd.phase_le _)
        have hturn := hw.turn (hkey ▸ hedge) (hw.phases _ hopen).ge
        exact (List.nodup_cons.mp hturn.nodup).1 hopen
      · rw [phase_of_module? (hw.linked.module?_of_mem hu')]
        exact (h.outer u' hu' b hb).trans (hd.phase_le _)
    · rw [hd.scopes.imports] at hb
      exact (h.bound hb).imp_right fun hle => hle.trans (hd.phase_le _)
  exact hstep.close (by rw [hphase, if_pos rfl])

end InStep

end Sable.Context
