import Sable.Proofs.Compilation.Declaring
import Sable.Proofs.Compilation.Importing
import Sable.Proofs.Module.Discipline

/-!
# The first pass

Collection registers modules while it walks, so the modules at its start do not bound its
depth. But every module on an open walk comes from a file of its own, and the walks form a path
of edges without a cycle; so there are never more of them than keys of files. Every module that
the pass registers is reached from the entry, and is collected when the pass is over, unless
something has been reported that spoils the run.
-/

namespace Sable

/-- The files that are needed include those that they import. -/
def Loader.Closed (l : Loader) (needed : Path → Prop) : Prop :=
  ∀ {p program i f}, needed p → l.Parses p program → .importing i ∈ program.places →
    l.locate i.path p = .ok f → needed f

namespace Context

/-- A module is reached from a root, and is collected or on an open walk. -/
def Accounts (roots : String → Prop) (stack : List String) (ctx : Context) (m : Module) : Prop :=
  (m.key ∈ stack ∨ Phase.collected ≤ m.phase) ∧ ∃ r, roots r ∧ ctx.graph.Reaches r m.key

/-- No module is left out, unless the run is spoiled. -/
def Accounted (roots : String → Prop) (stack : List String) (ctx : Context) : Prop :=
  ctx.Spoiled ∨ ∀ m ∈ ctx.modules, ctx.Accounts roots stack m

variable {roots : String → Prop} {stack stack' : List String} {ctx d : Context} {m : Module}

theorem Accounts.later (h : ctx.Accounts roots stack m) (hd : ctx.Extends d)
    (hsub : stack ⊆ stack') : d.Accounts roots stack' m := by
  obtain ⟨hdone, r, hr, hway⟩ := h
  exact ⟨hdone.imp_left (@hsub _), r, hr, hd.reaches hway⟩

theorem Accounted.congr (h : ctx.Accounted roots stack) (hd : ctx.Extends d)
    (hmodules : d.modules = ctx.modules) : d.Accounted roots stack :=
  h.imp (Spoiled.later hd) fun hall m hm => (hall m (hmodules ▸ hm)).later hd (List.Subset.refl _)

/-- A pass leaves no module out. -/
theorem Accounted.passes (h : ctx.Accounted roots stack) (hl : ctx.Linked) {target : Phase}
    (hd : ctx.Passes target d) : d.Accounted roots stack := by
  have hext := hd.toExtends hl
  refine h.imp (Spoiled.later hext) fun hall m hm => ?_
  obtain ⟨m₀, hm₀, p, hp, rfl⟩ := hd.exists_mem hl hm
  obtain ⟨hdone, hway⟩ := (hall m₀ hm₀).later hext (List.Subset.refl _)
  exact ⟨hdone.imp_right fun hle => hle.trans hp, hway⟩

/-- A module that is collected needs no open walk. -/
theorem Accounted.close (hl : ctx.Linked) {key : String}
    (h : ctx.Accounted roots (key :: stack)) (hle : Phase.collected ≤ ctx.phase key) :
    ctx.Accounted roots stack := by
  refine h.imp id fun hall m hm => ?_
  obtain ⟨hdone, hway⟩ := hall m hm
  refine ⟨hdone.elim (fun hopen => ?_) Or.inr, hway⟩
  rcases List.mem_cons.mp hopen with rfl | hopen
  · rw [phase_of_module? (hl.module?_of_mem hm)] at hle
    exact Or.inr hle
  · exact Or.inl hopen

end Context

namespace Compilation

open Context

/-- What holds while the first pass is at work. -/
structure Collecting (l : Loader) (needed : Path → Prop) (roots : String → Prop)
    (stack : List String) (c : Compilation) : Prop where
  /-- Modules come from where they came from. -/
  like : l.Like c.loader
  /-- The open walks form a path. -/
  walking : c.context.Walking .parsed stack
  /-- What the context holds has its ground. -/
  grounded : c.context.Grounded l needed
  /-- No module is left out. -/
  accounted : c.context.Accounted roots stack
  /-- No module is ahead of its imports. -/
  inStep : c.context.InStep stack

/-- A compilation that the first pass can turn another one into. -/
structure Advances (c d : Compilation) : Prop where
  /-- Nothing gets lost. -/
  onward : c.context.Extends d.context
  /-- Graph, bindings and modules go on to agree. -/
  linked : c.context.Linked → d.context.Linked
  /-- A module that moves or is registered is not led beyond collection. -/
  phases : ∀ k, d.context.phase k = c.context.phase k ∨ d.context.phase k ≤ .collected
  /-- Nothing is declared in finished trees. -/
  spares : c.context.Spares d.context
  /-- No name is given a type. -/
  types : ∀ s name, d.context.scopes.typeOf? s name = c.context.scopes.typeOf? s name

/-- What is to hold along the first pass. -/
def collecting (l : Loader) (needed : Path → Prop) (roots : String → Prop) :
    Discipline Compilation where
  limit := l.fileKeys.dedup.length
  Admits m q := q ∈ m.program.places
  Stands := Module.Holds
  Inv := Collecting l needed roots
  Ready stack key c := c.context.Turning .parsed stack key ∧ l.Like c.loader ∧
    c.context.Grounded l needed ∧ c.context.Accounted roots (key :: stack) ∧
      c.context.InStep (key :: stack)
  Within m s c := c.context.Linked ∧ c.context.Encloses m s
  Ext := Advances
  Done m s i c := c.context.Collects l m.file s i
  Finished key c := Phase.collected ≤ c.context.phase key

variable {l : Loader} {needed : Path → Prop} {roots : String → Prop} {stack : List String}
  {c d : Compilation} {m : Module} {s : ScopeId} {i : Import} {key : String}

/-! ### What an import declares -/

theorem diagnostics_register (key : String) (file : Path) (c : Compilation) :
    (c.register key file).2.context.diagnostics = c.context.diagnostics := by
  unfold register
  split
  · rfl
  · next hfree =>
    rcases c.loader.load file with ⟨e | program, l⟩
    · rfl
    · dsimp only
      rw [addModule_eq (Bool.eq_false_iff.mpr hfree)]

theorem symbols_register (key : String) (file : Path) (c : Compilation) (t : ScopeId) :
    (c.register key file).2.context.scopes.symbols t = c.context.scopes.symbols t := by
  unfold register
  split
  · rfl
  · next hfree =>
    rcases c.loader.load file with ⟨e | program, l⟩
    · rfl
    · simp only [addModule_eq (Bool.eq_false_iff.mpr hfree)]
      exact ScopeForest.symbols_openScope ..

/-- An import declares no name and gives no type to one. -/
theorem symbols_collectImport (m : Module) (s : ScopeId) (i : Import) (c : Compilation)
    (t : ScopeId) : (collectImport m s i c).2.context.scopes.symbols t =
      c.context.scopes.symbols t := by
  unfold collectImport
  split
  · rfl
  · next file _ =>
    dsimp only
    split
    · rfl
    · next g _ =>
      have hreg := symbols_register (c.loader.moduleKey file) file
        (c.update fun ctx => { ctx with graph := g }) t
      unfold bindImport
      generalize (c.update fun ctx => { ctx with graph := g }).register
        (c.loader.moduleKey file) file = r at hreg ⊢
      obtain ⟨e | u, b⟩ := r
      · simp only [forgetEdge_eq]
        exact hreg
      · dsimp only
        split
        · simp only [forgetEdge_eq]
          exact hreg
        · split
          · simp only [forgetEdge_eq]
            exact hreg
          · next F hadd => exact (ScopeForest.symbols_addImport hadd t).trans hreg

/-- A file that is registered opens the outermost scope of its module. -/
theorem founds_register (key : String) (file : Path) (c : Compilation) :
    c.context.Founds (c.register key file).2.context := by
  unfold register
  split
  · exact .of_same rfl rfl
  · next hfree =>
    rcases c.loader.load file with ⟨e | program, l⟩
    · exact .of_same rfl rfl
    · exact founds_addModule (Bool.eq_false_iff.mpr hfree) file program

/-- An import opens no scope but the outermost one of its module. -/
theorem founds_collectImport (m : Module) (s : ScopeId) (i : Import) (c : Compilation) :
    c.context.Founds (collectImport m s i c).2.context := by
  unfold collectImport
  split
  · exact .of_same rfl rfl
  · next file _ =>
    dsimp only
    split
    · exact .of_same rfl rfl
    · next g _ =>
      have hreg := founds_register (c.loader.moduleKey file) file
        (c.update fun ctx => { ctx with graph := g })
      unfold bindImport
      generalize (c.update fun ctx => { ctx with graph := g }).register
        (c.loader.moduleKey file) file = r at hreg ⊢
      obtain ⟨e | u, b⟩ := r
      · simp only [forgetEdge_eq]
        exact ⟨hreg.opened, hreg.roots⟩
      · dsimp only
        split
        · simp only [forgetEdge_eq]
          exact ⟨hreg.opened, hreg.roots⟩
        · split
          · simp only [forgetEdge_eq]
            exact ⟨hreg.opened, hreg.roots⟩
          · next F hadd =>
            have hsize := ScopeForest.size_addImport hadd
            exact ⟨fun t ht ht' => hreg.opened t ht (hsize ▸ ht'), hreg.roots⟩

/-! ### Compilations that advance -/

namespace Advances

theorem refl (c : Compilation) : c.Advances c :=
  ⟨Extends.refl _, id, fun _ => Or.inl rfl, Spares.refl _, fun _ _ => rfl⟩

theorem trans {e : Compilation} (h : c.Advances d) (h' : d.Advances e) : c.Advances e := by
  refine ⟨h.onward.trans h'.onward, h'.linked ∘ h.linked, fun k => ?_,
    h.spares.trans h.onward h'.spares, fun s name => (h'.types s name).trans (h.types s name)⟩
  rcases h'.phases k with hk | hk
  · exact (h.phases k).imp hk.trans hk.trans_le
  · exact Or.inr hk

end Advances

theorem Fills.advances (h : c.Fills m d) (hl : c.context.Linked) (hm : c.context.Knows m)
    (hp : c.context.phase m.key = .parsed) : c.Advances d :=
  ⟨h.context.toExtends hl, h.context.linked,
    fun k => Or.inl (phase_congr h.context.modules k), h.spares hl hm hp, h.types⟩

theorem Imported.enrols {key? : Option String} (h : Imported l needed m s i c key? d)
    (hc : collectImport m s i c = (key?, d)) : c.context.Enrols d.context := by
  have hfounds := founds_collectImport m s i c
  rw [hc] at hfounds
  refine ⟨h.onward, fun _ => h.linked, h.phases, fun t => ?_, hfounds⟩
  have hsame := symbols_collectImport m s i c t
  rwa [hc] at hsame

theorem Registers.enrols {file : Path} {r : Except LoadError Unit}
    (h : Registers l needed key c.context d.context) (hc : c.register key file = (r, d)) :
    c.context.Enrols d.context := by
  have hfounds := founds_register key file c
  rw [hc] at hfounds
  refine ⟨h.onward, fun _ => h.linked, h.phases, fun t => ?_, hfounds⟩
  have hsame := symbols_register key file c t
  rwa [hc] at hsame

theorem advances_of_enrols (h : c.context.Enrols d.context) : c.Advances d :=
  ⟨h.onward, h.linked, fun k => (h.phases k).imp_right fun ⟨_, hk⟩ => hk ▸ by decide, h.spares,
    fun s name => ScopeForest.typeOf?_congr (h.symbols s) name⟩

/-- There are no more open walks than keys of files. -/
theorem length_lt_fileKeys (h : c.context.Turning .parsed stack key)
    (hg : c.context.Grounded l needed) : stack.length < l.fileKeys.dedup.length := by
  have hsub : key :: stack ⊆ l.fileKeys.dedup := by
    intro k hk
    obtain ⟨m, hm⟩ := exists_of_hasModule (h.hasModule le_rfl k hk)
    obtain ⟨hmem, rfl⟩ := mem_of_module? hm
    obtain ⟨-, hkey, text, n, hread, -⟩ := hg.loaded m hmem
    rw [List.mem_dedup, hkey]
    exact l.moduleKey_mem_fileKeys hread
  have hlen := h.nodup.length_le_of_subset hsub
  rwa [List.length_cons] at hlen

namespace Collecting

theorem fills (h : Collecting l needed roots stack c) (hd : c.Fills m d) :
    Collecting l needed roots stack d :=
  ⟨⟨hd.loader ▸ h.like.options, hd.loader ▸ h.like.store⟩, h.walking.fills hd.context,
    h.grounded.fills h.walking.linked hd.context,
    h.accounted.congr (hd.context.toExtends h.walking.linked) hd.context.modules,
    h.inStep.fills hd.context⟩

/-- An import of the module whose walk was opened last comes to what an import may come to. -/
theorem imported (h : Collecting l needed roots stack c) (hclosed : l.Closed needed)
    (hs : c.context.Encloses m s) (hi : m.Holds s i) {key? : Option String}
    (hc : collectImport m s i c = (key?, d)) : Imported l needed m s i c key? d := by
  obtain ⟨m', hm', -, -, -, hfile, hprogram⟩ := hs.exists_mem
  obtain ⟨hneeded, -, hparses⟩ := h.grounded.loaded m' hm'
  rw [hfile] at hneeded hparses
  rw [hprogram] at hparses
  exact collectImport_spec h.walking.linked h.grounded h.like hs hi
    (fun f hf => hclosed hneeded hparses hi.1 hf) hc

/-- An import moves no module that was there. -/
private theorem walking_later (h : Collecting l needed roots stack c) {key? : Option String}
    (hd : Imported l needed m s i c key? d) : d.context.Walking .parsed stack := by
  refine h.walking.congr hd.linked hd.onward.edges fun k hk => ?_
  refine (hd.phases k).resolve_right fun ⟨hfree, _⟩ => ?_
  rw [hasModule_of_parsed_le (h.walking.phases k hk).ge] at hfree
  cases hfree

/-- A module that an import registers is imported by the module whose walk was opened last. -/
private theorem accounted_later (h : Collecting l needed roots (m.key :: stack) c)
    (hm : c.context.Knows m) {key? : Option String} (hd : Imported l needed m s i c key? d) :
    d.context.Accounted roots (key?.toList ++ m.key :: stack) := by
  rcases h.accounted with hspoiled | hall
  · exact Or.inl (hspoiled.later hd.onward)
  · refine hd.registered.imp id fun hreg m' hm' => ?_
    rcases hreg m' hm' with hold | ⟨hkey, hedge⟩
    · exact (hall m' hold).later hd.onward (List.subset_append_right ..)
    · obtain ⟨m₀, hm₀, hkey₀, -⟩ := hm.exists_mem
      obtain ⟨-, r, hr, hway⟩ := hall m₀ hm₀
      refine ⟨Or.inl (by simp [hkey]), r, hr, (hd.onward.reaches hway).tail ?_⟩
      exact hkey₀ ▸ hedge

/-- An import puts no module ahead of its imports. -/
private theorem inStep_later (h : Collecting l needed roots (m.key :: stack) c)
    (hm : c.context.Knows m) {key? : Option String} (hd : Imported l needed m s i c key? d) :
    d.context.InStep (key?.toList ++ m.key :: stack) :=
  h.inStep.imported (h.walking_later hd) hd.onward (fun k => (hd.phases k).imp_right
    fun ⟨_, hk⟩ => hk.le) (hd.onward.modules hm) (List.mem_cons_self ..) hd.adds

/-- An import that turns to no module leaves the walk where it was. -/
theorem stays (h : Collecting l needed roots (m.key :: stack) c) (hm : c.context.Knows m)
    (hd : Imported l needed m s i c none d) : Collecting l needed roots (m.key :: stack) d :=
  ⟨hd.like, h.walking_later hd, hd.grounded, h.accounted_later hm hd, h.inStep_later hm hd⟩

/-- An import that turns to a module has an edge to it. -/
theorem turns (h : Collecting l needed roots (m.key :: stack) c) (hm : c.context.Knows m)
    (hd : Imported l needed m s i c (some key) d) :
    (collecting l needed roots).Ready (m.key :: stack) key d := by
  have hedge := hd.turn key rfl
  obtain ⟨m', hm'⟩ := exists_of_hasModule (hd.linked.hasModule_of_edge hedge)
  refine ⟨(h.walking_later hd).turn hedge ?_, hd.like, hd.grounded, h.accounted_later hm hd,
    h.inStep_later hm hd⟩
  rw [phase_of_module? hm']
  exact hd.linked.parsed m' (mem_of_module? hm').1

/-- Closing a walk leads its module on. -/
theorem leave (h : Collecting l needed roots (m.key :: stack) c) (hm : c.context.Knows m)
    (hdone : ∀ i ∈ m.program.outerImports, c.context.Collects l m.file m.root i) :
    Collecting l needed roots stack (collection.leave m.key c) ∧
      c.Advances (collection.leave m.key c) ∧
        Phase.collected ≤ (collection.leave m.key c).context.phase m.key := by
  have hl := h.walking.linked
  obtain ⟨hwalking, hleads, hphase⟩ :=
    h.walking.leave hm (show Phase.collected.previous? = some .parsed from rfl)
  have hpasses := hleads.toPasses
  have hfinished : Phase.collected ≤ (c.context.setPhase m.key .collected).phase m.key := by
    rw [hphase, if_pos rfl]
  have hadvances : c.Advances ⟨c.context.setPhase m.key .collected, c.loader⟩ :=
    ⟨hpasses.toExtends hl, hpasses.linked, fun k => (hpasses.phases k).imp_right fun hk => hk.2.le,
      .of_untyped hleads.untyped, fun _ _ => by rw [scopes_setPhase]⟩
  have hgrounded : (c.context.setPhase m.key .collected).Grounded l needed := by
    refine h.grounded.passes hl hpasses fun m' hm' hold hnew i hi => ?_
    rw [hphase] at hnew
    split at hnew
    · next hkey =>
      -- The module is the one whose walk is closed, so its imports have just been bound.
      obtain ⟨q, -, hmod⟩ := hm
      have hmod' := hl.module?_of_mem hm'
      rw [hkey, hmod, Option.some.injEq] at hmod'
      subst hmod'
      exact hdone i hi
    · rw [phase_of_module? (hl.module?_of_mem hm')] at hnew
      exact absurd hnew hold
  have haccounted := (h.accounted.passes hl hpasses).close hwalking.linked hfinished
  have hstep := h.inStep.leave h.walking hpasses hphase
  exact ⟨⟨h.like, hwalking, hgrounded, haccounted, hstep⟩, hadvances, hfinished⟩

end Collecting

/-! ### The traversal -/

/-- A scope that a visit opens may be visited next. -/
private theorem fills_of_opens (hs : (collecting l needed roots).At stack m s c)
    {r : Option ScopeId × Compilation} (hr : c.Opens m r) :
    c.Fills m r.2 ∧
      ∀ inner ∈ r.1, Visitor.Opens ((collecting l needed roots).Admits m)
        ((collecting l needed roots).Stands m) ((collecting l needed roots).At stack m) inner r.2 :=
  ⟨hr.1, fun inner hin =>
    ⟨⟨hs.1.fills hr.1, hr.1.context.linked hs.2.1, (hr.2 inner hin).1⟩,
      fun _ hi => ⟨hi, fun heq => absurd heq (hr.2 inner hin).2⟩⟩⟩

/-- Every visit declares names in the tree of the module. -/
theorem visits_fills (stack : List String) (m : Module) :
    (collector m).Visits ((collecting l needed roots).Admits m)
      ((collecting l needed roots).Stands m) ((collecting l needed roots).At stack m)
      (Fills m) := by
  constructor
  · exact fun name params ret hs => fills_of_opens hs (collectFunction_opens hs.2.1 hs.2.2 ..)
  · intro s c receiver name params ret hr hs
    have hparsed := hs.2.2.places hs.2.1 _ hr
    exact fills_of_opens hs (collectMethod_opens hs.2.1 hs.2.2 hparsed ..)
  · exact fun d hs => collectTypeDecl_fills hs.2.1 hs.2.2 d
  · exact fun isConst targets values span hs => declareAll_fills hs.2.1 hs.2.2 ..
  · exact fun targets values hs => Fills.refl m _
  · exact fun targets values span hs => Fills.refl m _
  · exact fun name hs => Fills.refl m _
  · exact fun module name hs => Fills.refl m _

/-- The module whose walk was opened last has only been parsed. -/
theorem phase_of_at (hs : (collecting l needed roots).At stack m s c) :
    c.context.phase m.key = .parsed :=
  hs.1.walking.phases m.key (List.mem_cons_self ..)

private theorem kept_of_fills (hs : (collecting l needed roots).At stack m s c)
    (hd : c.Fills m d) : (collecting l needed roots).Kept stack m c d :=
  ⟨hd.advances hs.2.1 hs.2.2.1 (phase_of_at hs), fun h => h.fills hd⟩

/-- Collection enters a module it may turn to, unless the module is further on. -/
theorem enter_collection (h : c.context.Turning .parsed stack key)
    {m? : Option Module} : collection.enter key c = (m?, d) → d = c ∧ match m? with
      | none => Phase.collected ≤ c.context.phase key
      | some m => c.context.module? key = some m ∧ m.phase = .parsed := by
  intro he
  rcases henter : c.context.enter key .collected .collecting "symbol collection" with ⟨_, ctx⟩
  simp only [collection, henter, Prod.mk.injEq] at he
  obtain ⟨rfl, rfl⟩ := he
  obtain ⟨rfl, hcases⟩ := h.enter_cases rfl le_rfl henter
  exact ⟨rfl, hcases⟩

theorem importing_collection (m : Module) :
    (collection.visitor m).importing = collectImport m := rfl

/-- Collection keeps to the discipline. -/
theorem obeys_collecting (hclosed : l.Closed needed) :
    collection.Obeys (collecting l needed roots) where
  refl := Advances.refl
  trans := Advances.trans
  within_later hd hs := ⟨hd.linked hs.1, hs.2.later hd.onward⟩
  done_later _ hd h := h.later hd.onward
  room h := length_lt_fileKeys h.1 h.2.2.1
  passes h he := by
    obtain ⟨rfl, hle⟩ := enter_collection h.1 he
    exact ⟨⟨h.2.1, h.1.toWalking, h.2.2.1, h.2.2.2.1.close h.1.linked hle,
      h.2.2.2.2.close hle⟩, Advances.refl _, hle⟩
  enters h he := by
    obtain ⟨rfl, hm, hphase⟩ := enter_collection h.1 he
    obtain ⟨hwalking, hencloses⟩ := h.1.enter hm hphase
    exact ⟨(mem_of_module? hm).2, ⟨h.2.1, hwalking, h.2.2.1, h.2.2.2.1, h.2.2.2.2⟩,
      Advances.refl _, ⟨h.1.linked, hencloses⟩, fun _ hq => hq,
      fun _ hi => ⟨Stmt.mem_placesAll_of_mem_outerImportsAll _ hi, fun _ => hi⟩⟩
  visits stack m := (visits_fills stack m).imp kept_of_fills
  stays hi hs he := by
    rw [importing_collection] at he
    have himported := hs.1.imported hclosed hs.2.2 hi he
    have hadvances := advances_of_enrols (himported.enrols he)
    exact ⟨hs.1.stays hs.2.2.1 himported, hadvances, himported.collects⟩
  turns hi hs he := by
    rw [importing_collection] at he
    have himported := hs.1.imported hclosed hs.2.2 hi he
    exact ⟨hs.1.turns hs.2.2.1 himported, advances_of_enrols (himported.enrols he),
      fun e hd _ _ => himported.collects.later hd.onward⟩
  leaves h hs hdone := h.leave hs.2.1 hdone

end Compilation

end Sable
