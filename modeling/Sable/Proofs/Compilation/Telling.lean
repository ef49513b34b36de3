import Sable.Proofs.Compilation.Chronicle
import Sable.Proofs.Compilation.Outcomes

/-!
# What is told of the modules of a run

As long as nothing stops the passes, every report is in the file of a module, every module that has
been collected is reached from an entry, every other one is named by an import of such a module, and
the chronicle of each module is true. What is done to one module, or in registering another one,
skirts all that is told of the others.
-/

namespace Sable

namespace Context

variable {c d e : Context} {m u : Module} {key : String}

theorem Knows.blank (h : c.Knows m) : c.Knows m.blank := by
  obtain ⟨p, -, hp⟩ := h
  exact ⟨p, Nat.zero_le _, hp⟩

/-- A key stands for one module. -/
theorem Knows.blank_eq (h : c.Knows m) (h' : c.Knows u) (hkey : m.key = u.key) :
    m.blank = u.blank := by
  obtain ⟨p, -, hp⟩ := h
  obtain ⟨q, -, hq⟩ := h'
  have hsame : c.module? m.key = c.module? u.key := congrArg c.module? hkey
  rw [hp, hq, Option.some.injEq] at hsame
  have hblank := congrArg Module.blank hsame
  exact hblank

variable (l : Loader) (es : List Path)

/-- A module is reached from an entry that is a module. -/
def Reached (ctx : Context) (key : String) : Prop :=
  ∃ e ∈ es, ctx.hasModule (l.moduleKey e) = true ∧ ctx.graph.Reaches (l.moduleKey e) key

/-- A module is reached, or an import of a module that is reached leads to it. -/
def Named (ctx : Context) (key : String) : Prop :=
  ctx.Reached l es key ∨ ∃ u i, ctx.Knows u ∧ ctx.Reached l es u.key ∧
    i ∈ u.program.preface ∧ l.Leads u.file i key

/-- Every report is in the file of a module. -/
def Attributed (ctx : Context) : Prop :=
  ∀ r ∈ ctx.diagnostics.items, ∃ m, ctx.Knows m ∧ r.file = m.file.text

/-- What there is to tell of a module in a context where nothing stops the passes. -/
structure Account (m : Module) (ctx : Context) : Prop where
  /-- A module that has been collected is reached. -/
  reached : Phase.collected ≤ ctx.phase m.key → ctx.Reached l es m.key
  /-- Any other one is imported. -/
  named : ctx.Named l es m.key
  /-- This is what the passes have made of it. -/
  chronicle : Chronicle l m (ctx.phase m.key) ctx

/-- What is told of the module under a key, if there is one. -/
structure Told (key : String) (ctx : Context) : Prop where
  /-- Modules are kept apart. -/
  proper : ctx.Proper
  /-- Every report is in the file of a module, unless it stops the passes. -/
  attributed : ctx.diagnostics.hasFatal = false → ctx.Attributed
  /-- If nothing stops the passes, there is this to tell of the module. -/
  tells : ctx.diagnostics.hasFatal = false → ∀ {m}, ctx.Knows m → m.key = key →
    Account l es m.blank ctx

/-- What is told of a module while its preface is followed. -/
structure Begun (is : List Import) (m : Module) (ctx : Context) : Prop where
  /-- Modules are kept apart. -/
  proper : ctx.Proper
  /-- The module is registered. -/
  knows : ctx.Knows m
  /-- Every report is in the file of a module, unless it stops the passes. -/
  attributed : ctx.diagnostics.hasFatal = false → ctx.Attributed
  /-- The module is reached. -/
  reached : ctx.diagnostics.hasFatal = false → ctx.Reached l es m.key
  /-- Nothing but imports has been visited. -/
  prefaced : ctx.diagnostics.hasFatal = false → Prefaced l m.blank is ctx

/-- What is done concerns the module under one key only. -/
structure Skirts (key : String) (c d : Context) : Prop where
  /-- Nothing gets lost. -/
  onward : c.Extends d
  /-- All other modules are left alone. -/
  bypasses : ∀ {m}, c.Knows m → m.key ≠ key → c.Bypasses m d
  /-- They do not move. -/
  phases : ∀ {k}, k ≠ key → c.hasModule k = true → d.phase k = c.phase k
  /-- What has been settled goes on to be read. -/
  reads : c.KeepsReads d

variable {l es} {w : Module} {is : List Import} {k : String}

/-- Nothing stops the passes behind a context in which nothing does. -/
theorem Extends.mild (h : c.Extends d) (hd : d.diagnostics.hasFatal = false) :
    c.diagnostics.hasFatal = false :=
  Bool.eq_false_of_not_eq_true fun hfatal => Bool.eq_false_iff.mp hd (h.hasFatal hfatal)

theorem Reached.later (h : c.Reached l es k) (hd : c.Extends d) : d.Reached l es k := by
  obtain ⟨e, he, hhas, hway⟩ := h
  exact ⟨e, he, hd.hasModule hhas, hd.reaches hway⟩

theorem Named.later (h : c.Named l es k) (hd : c.Extends d) : d.Named l es k :=
  h.imp (·.later hd) fun ⟨u, i, hu, hreached, hi⟩ => ⟨u, i, hd.modules hu, hreached.later hd, hi⟩

theorem Account.skirted (h : Account l es m c) (hc : c.Proper) (hm : c.Knows m) (hne : m.key ≠ key)
    (hd : c.Skirts key d) : Account l es m d := by
  have hphase := hd.phases hne hm.hasModule
  refine ⟨fun hle => (h.reached (hphase ▸ hle)).later hd.onward, h.named.later hd.onward, ?_⟩
  exact hphase ▸ h.chronicle.bypassed hc hm (hd.bypasses hm hne) hd.onward hd.reads

/-- A module that is known behind a step, and was registered before, was known before. -/
theorem Extends.knows_blank (hd : c.Extends d) (hm : d.Knows m) (hhas : c.hasModule m.key = true) :
    c.Knows m.blank := by
  obtain ⟨u, hu⟩ := exists_of_hasModule hhas
  obtain ⟨-, hkey⟩ := mem_of_module? hu
  have hknows := knows_of_module? hu
  rw [hm.blank_eq (hd.modules hknows) hkey.symm]
  exact hknows.blank

/-- What is told of other modules stays true, and so may be told what is new. -/
theorem Told.skirted (h : Told l es k c) (hk : k ≠ key) (hproper : d.Proper)
    (hattributed : d.diagnostics.hasFatal = false → d.Attributed) (hext : c.Extends d)
    (hd : d.diagnostics.hasFatal = false → c.Skirts key d)
    (hnew : d.diagnostics.hasFatal = false → ∀ {m}, d.Knows m → m.key ≠ key →
      c.hasModule m.key = false → Account l es m.blank d) : Told l es k d where
  proper := hproper
  attributed := hattributed
  tells hmild m hm hkey := by
    have hne : m.key ≠ key := hkey ▸ hk
    cases hhas : c.hasModule m.key with
    | false => exact hnew hmild hm hne hhas
    | true =>
      have hknows := hext.knows_blank hm hhas
      exact (h.tells (hext.mild hmild) hknows hkey).skirted h.proper hknows hne (hd hmild)

theorem Begun.skirted (h : Begun l es is m c) (hne : m.key ≠ key) (hproper : d.Proper)
    (hattributed : d.diagnostics.hasFatal = false → d.Attributed) (hext : c.Extends d)
    (hd : d.diagnostics.hasFatal = false → c.Skirts key d) : Begun l es is m d where
  proper := hproper
  knows := hext.modules h.knows
  attributed := hattributed
  reached hmild := (h.reached (hext.mild hmild)).later hext
  prefaced hmild := (h.prefaced (hext.mild hmild)).bypassed h.proper h.knows.blank
    ((hd hmild).bypasses h.knows.blank hne)

/-! ### Steps that concern one module -/

/-- All that is read of other modules is read of them still. -/
theorem keepsReads_of_bypasses (hc : c.Proper)
    (hothers : ∀ {m}, c.Knows m → m.key ≠ key → c.Bypasses m d)
    (hown : ∀ {m}, c.Knows m → m.key = key → ∀ {p : Phase}, Phase.resolved ≤ p → p ≤ c.phase key →
      c.scopes.ReadsAs p.Settles m.root d.scopes m.root) : c.KeepsReads d := by
  intro m hm p hp hle
  by_cases hkey : m.key = key
  · exact hown hm hkey hp (hkey ▸ hle)
  · exact .of_symbols ((hothers hm hkey).symbols (hc.sees_root hm))

/-- Reports in the file of a module leave every report in the file of a module. -/
theorem Attributed.append (h : c.Attributed) (hext : c.Extends d) {rs : List Diagnostic}
    (hrs : d.diagnostics.items = c.diagnostics.items ++ rs)
    (hfile : ∀ r ∈ rs, r.file = m.file.text) (hm : d.Knows m) : d.Attributed := by
  intro r hr
  rw [hrs] at hr
  rcases List.mem_append.mp hr with hr | hr
  · exact (h r hr).imp fun _ hu => ⟨hext.modules hu.1, hu.2⟩
  · exact ⟨m, hm, hfile r hr⟩

/-- Modules are registered and imported into one module at most. -/
theorem Enrols.skirts (h : c.Enrols d) (hc : c.Proper) {rs : List Diagnostic}
    (himports : ∀ {m}, c.Knows m → m.key ≠ key → ∀ {s}, c.Sees m s →
      d.scopes.imports s = c.scopes.imports s)
    (hrs : d.diagnostics.items = c.diagnostics.items ++ rs)
    (hfile : ∀ {m}, c.Knows m → m.key ≠ key → ∀ r ∈ rs, r.file ≠ m.file.text) :
    c.Skirts key d where
  onward := h.onward
  bypasses hm hne := h.bypasses hc hm (himports hm hne) (reportsIn_append hrs (hfile hm hne))
  phases {k} _ hhas := (h.phases k).resolve_right fun ⟨hfree, _⟩ =>
    absurd (hhas.symm.trans hfree) (by decide)
  reads hm _ _ _ := .of_symbols (h.symbols _)

/-- The body of a module is walked, and the module is led on. -/
theorem Works.skirts (h : c.Works w d) (hc : c.Proper) (hw : c.Knows w)
    (hfiles : ∀ {m}, c.Knows m → m.key ≠ w.key → m.file.text ≠ w.file.text) {target : Phase}
    (he : d.Passes target e) (hscopes : e.scopes = d.scopes)
    (hreports : e.diagnostics = d.diagnostics)
    (hphase : ∀ k, e.phase k = if k = w.key then target else d.phase k)
    (hown : ∀ {p : Phase}, Phase.resolved ≤ p → p ≤ c.phase w.key →
      c.scopes.ReadsAs p.Settles w.root d.scopes w.root) : c.Skirts w.key e := by
  have hothers : ∀ {m}, c.Knows m → m.key ≠ w.key → c.Bypasses m e := fun hm hne =>
    (h.bypasses hc hw hm hne (hfiles hm hne)).trans (.of_same he.modules hscopes hreports)
  refine ⟨(h.toExtends hc.linked).trans (he.toExtends (h.linked hc.linked)), hothers, ?_, ?_⟩
  · intro k hk _
    rw [hphase, if_neg hk]
    exact phase_congr h.modules k
  · refine keepsReads_of_bypasses hc hothers fun hm hkey p hp hle => ?_
    have hroot := congrArg Module.root (hm.blank_eq hw hkey)
    rw [Module.root_blank, Module.root_blank] at hroot
    rw [hscopes, hroot]
    exact hown hp hle

end Context

end Sable

/-!
## Following a preface

A module that is registered has bound nothing and declared nothing, and nothing is reported in its
file. From then on, each import of its preface that is followed makes the foreword of the file
longer by one import, and concerns no other module that was there.
-/

namespace Sable.Context

variable {l : Loader} {es : List Path} {needed : Path → Prop} {c d : Context} {m w : Module}
  {is : List Import} {i : Import} {key : String} {file : Path}

/-! ### Files of modules -/

theorem Grounded.key_of_knows (h : c.Grounded l needed) (hm : c.Knows m) :
    m.key = l.moduleKey m.file := by
  obtain ⟨m', hm', hkey, -, hfile, -⟩ := hm.exists_mem
  rw [← hkey, ← hfile]
  exact (h.loaded m' hm').2.1

theorem Grounded.parses_of_knows (h : c.Grounded l needed) (hm : c.Knows m) :
    l.Parses m.file m.program := by
  obtain ⟨m', hm', -, -, hfile, hprogram⟩ := hm.exists_mem
  rw [← hprogram, ← hfile]
  exact (h.loaded m' hm').2.2

/-- Two modules have different files. -/
theorem Grounded.file_ne (h : c.Grounded l needed) (hm : c.Knows m) (hw : c.Knows w)
    (hne : m.key ≠ w.key) : m.file.text ≠ w.file.text := by
  intro he
  rw [h.key_of_knows hm, h.key_of_knows hw] at hne
  exact hne (congrArg (fun text => l.moduleKey ⟨text⟩) he)

/-- Nothing is reported in a file that is not that of a module. -/
theorem Attributed.reportsIn_eq_nil {text : String} (h : c.Attributed)
    (hfree : ∀ {m}, c.Knows m → m.file.text ≠ text) : c.reportsIn text = [] := by
  refine List.filter_eq_nil_iff.mpr fun r hr he => ?_
  obtain ⟨m, hm, hfile⟩ := h r hr
  exact hfree hm (hfile.symm.trans (of_decide_eq_true he))

/-- Nothing is reported in the file of a module that is not registered. -/
theorem Attributed.reportsIn_of_free (h : c.Attributed) (hg : c.Grounded l needed)
    (hfree : c.hasModule (l.moduleKey file) = false) : c.reportsIn file.text = [] := by
  refine h.reportsIn_eq_nil fun {m} hm he => ?_
  have hsame : m.file = file := congrArg Path.mk he
  rw [← hsame, ← hg.key_of_knows hm] at hfree
  exact absurd (hfree.symm.trans hm.hasModule) (by decide)

/-! ### A module that is new -/

/-- A module that is registered has followed no import. -/
theorem Enrols.prefaced (h : c.Enrols d) (hl : c.Linked) (hm : d.Knows m)
    (hfree : c.hasModule m.key = false)
    (himports : d.scopes.imports m.root = c.scopes.imports m.root)
    (hreports : d.reportsIn m.file.text = []) : Prefaced l m [] d := by
  obtain ⟨m', hm', hkey, hroot, -⟩ := hm.exists_mem
  have hle : c.scopes.size ≤ m.root := by
    rcases h.mem_cases hl hm' with ⟨m₀, hm₀, p, rfl⟩ | ⟨hle, -⟩
    · exact absurd ((hasModule_of_mem hm₀).symm.trans (hkey ▸ hfree)) (by decide)
    · exact hroot ▸ hle
  have hnone := ScopeForest.scope?_eq_none hle
  have hd := h.linked hl
  refine ⟨?_, ?_, fun hs => hs.imp_right fun hs => ?_, fun _ hi => absurd hi List.not_mem_nil⟩
  · rw [hreports, himports, ScopeForest.imports, hnone]
    rfl
  · rw [h.symbols, ScopeForest.symbols, hnone]
    rfl
  · -- A scope behind the outermost one of a new module is the outermost one of a new module.
    have hroot_le := ScopeForest.le_of_mem_chain hd.scopes hs
    obtain ⟨u, hu, rfl⟩ := h.founds.opened _ (hle.trans hroot_le)
      (ScopeForest.lt_size_of_mem_chain hs)
    obtain ⟨u', hu', -, huroot, -⟩ := hu.exists_mem
    have hparent := hd.root u' hu'
    rw [huroot] at hparent
    rw [ScopeForest.chain_of_root hd.scopes hparent, List.mem_pair] at hs
    refine (hs.resolve_right fun hzero => ?_).symm
    exact absurd hl.scopes.base (hzero ▸ hle).not_gt

/-- A module that is registered in between has come no further than to be parsed. -/
theorem Enrols.tells (h : c.Enrols d) (hl : c.Linked) (hm : d.Knows m)
    (hfree : c.hasModule m.key = false) (hnamed : d.Named l es m.key)
    (himports : d.scopes.imports m.root = c.scopes.imports m.root)
    (hreports : d.reportsIn m.file.text = []) : Account l es m.blank d := by
  have hprefaced := h.prefaced (l := l) hl hm.blank hfree himports hreports
  have hphase : d.phase m.key ≤ .parsed := by
    rcases h.phases m.key with hsame | ⟨-, hnew⟩
    · have hnone : c.module? m.key = none := by simpa [hasModule] using hfree
      rw [hsame, phase, hnone]
      exact Nat.zero_le _
    · exact hnew.le
  refine ⟨fun hle => ?_, hnamed, ?_⟩
  · exact absurd (hle.trans hphase) (by decide)
  · rw [Module.key_blank]
    generalize d.phase m.key = p at hphase
    cases p with
    | notStarted => exact hprefaced
    | parsed => exact hprefaced
    | _ => exact absurd hphase (by decide)

/-! ### One more import -/

/-- An import that is followed adds to the reports in its file only. -/
theorem Heeds.reports {s : ScopeId} (h : c.Heeds file s i key d) :
    ∃ rs, d.diagnostics.items = c.diagnostics.items ++ rs ∧ ∀ r ∈ rs, r.file = file.text := by
  rcases h.outcome with ⟨-, -, hsame⟩ | ⟨e, -, -, hnew⟩
  · exact ⟨[], by rw [hsame, List.append_nil], by simp⟩
  · exact ⟨[refusedReport file i e], hnew, List.forall_mem_singleton.mpr rfl⟩

/-- An import that is followed makes the foreword of its file one import longer. -/
theorem Prefaced.follow (h : Prefaced l m is c) (hc : c.Proper) (hm : c.Knows m)
    (hd : c.Enrols d) (hleads : l.Leads m.file i key) (hheeds : c.Heeds m.file m.root i key d) :
    Prefaced l m (is ++ [i]) d where
  foreword := by
    rw [Loader.foreword_append, ← h.foreword, Loader.followNext,
      Loader.target?_eq_some_iff.mpr hleads]
    dsimp only
    rw [ImportBinding.refusal?_unrooted, reportsIn, reportsIn]
    rcases hheeds.outcome with ⟨hfree, ⟨root, himports⟩, hsame⟩ | ⟨e, hrefused, himports, hnew⟩
    · rw [hfree, himports, hsame, List.map_append]
      rfl
    · rw [hrefused, himports, hnew, List.filter_append]
      simp [refusedReport]
  symbols := (hd.symbols _).trans h.symbols
  alone {s} hs := by
    refine h.alone (hs.imp_right fun hs => ?_)
    obtain ⟨m', hm', -, hroot, -⟩ := hm.exists_mem
    rw [← hroot] at hs ⊢
    exact hd.mem_chain hc.linked hm' hs
  located := by
    refine List.forall_mem_append.mpr ⟨fun j hj => ?_, List.forall_mem_singleton.mpr ?_⟩
    · exact (h.located j hj).imp fun _ => And.imp_right hd.onward.hasModule
    · exact ⟨key, hleads, hheeds.registered⟩

/-- An import that is followed concerns no module but the one that imports. -/
theorem Heeds.skirts (h : c.Heeds w.file w.root i key d) (hc : c.Proper) (hw : c.Knows w)
    (hg : c.Grounded l needed) (hd : c.Enrols d) : c.Skirts w.key d := by
  obtain ⟨rs, hrs, hfile⟩ := h.reports
  refine hd.skirts hc (fun hm hne s hs => h.elsewhere s ?_) hrs fun hm hne r hr he => ?_
  · rintro rfl
    exact hc.not_sees_root hm hw hne hs
  · exact hg.file_ne hm hw hne (he.symm.trans (hfile r hr))

end Sable.Context
