import Sable.Compilation
import Sable.Proofs.Compilation.Collecting
import Sable.Proofs.Context.Passing
import Sable.Proofs.Context.Histories

/-!
# Checks

A check registers its entry and puts it through the passes. Behind it, graph, bindings and
modules agree as they did in front of it, so any number of checks may follow each other. Each
pass is started where its discipline wants it to be, so it comes to its end.
-/

namespace Sable

variable {l : Loader} {needed : Path → Prop} {target p : Phase}

/-- A pass behind the first one leaves the grounds of a context as they are. -/
theorem Context.Passing.grounded {c₀ ctx : Context} {stack : List String}
    (h : Context.Passing target p c₀ stack ctx) (ht : target.previous? = some p)
    (hp : Phase.collected ≤ p) (hg : c₀.Grounded l needed) : ctx.Grounded l needed := by
  refine hg.passes h.start h.since fun m hm hold hnew => ?_
  have hphase := Context.phase_of_module? (h.start.module?_of_mem hm)
  rcases h.since.phases m.key with hk | ⟨hprev, -⟩
  · rw [hk, hphase] at hnew
    exact absurd hnew hold
  · rw [hprev, Option.some.injEq, hphase] at ht
    exact absurd (ht ▸ hp) hold

/-- A pass behind the first one leads no module ahead of its imports. -/
theorem Context.Passing.inStep {c₀ ctx : Context} {stack : List String}
    (h : Context.Passing target p c₀ stack ctx) (ht : target.previous? = some p)
    (hg : c₀.Grounded l needed) (hs : c₀.InStep []) : ctx.InStep [] where
  outer m hm b hb := by
    have hphase := Context.phase_of_module? (h.walking.linked.module?_of_mem hm)
    obtain ⟨m', hm', q, -, rfl⟩ := h.since.exists_mem h.start hm
    have hb' := h.since.scopes.imports _ ▸ hb
    have hle : c₀.phase m'.key ≤ c₀.phase b.key := by
      rw [Context.phase_of_module? (h.start.module?_of_mem hm')]
      exact hs.outer m' hm' b hb'
    rw [← hphase]
    rcases h.since.phases m'.key with hk | ⟨hprev, hk⟩
    · rw [hk]
      exact hle.trans (h.since.phase_le _)
    · rw [hk]
      rcases h.closed m' hm' hk.ge with hold | hfollows
      · exact hold.trans (hle.trans (h.since.phase_le _))
      · -- The pass has followed the import that bound the alias.
        have hself := ScopeForest.mem_chain_self (ScopeForest.lt_size_of_mem_imports hb')
        obtain ⟨i, ⟨-, houter⟩, halias⟩ := hg.named m' hm' hself hb'
        refine hfollows i (houter rfl) b.key ?_ ?_
        · rw [ScopeForest.importedKey?, halias,
            ScopeForest.visibleImport?_of_mem h.walking.linked.scopes hb, Option.map_some]
        · rw [ht, Option.some.injEq] at hprev
          exact hprev.trans_le (hle.trans (h.since.phase_le _))
  bound hb := (hs.bound (h.since.scopes.imports _ ▸ hb)).imp_right fun hle =>
    hle.trans (h.since.phase_le _)

namespace Compilation

open Context

/-- Checks entry files one after the other. -/
def checkAll (entries : List Path) (c : Compilation) : Compilation :=
  entries.foldl (fun c entry => (c.check entry).2) c

/-- What holds between any two checks. -/
structure Settled (l : Loader) (needed : Path → Prop) (roots : String → Prop)
    (c : Compilation) : Prop where
  /-- Modules come from where they came from. -/
  like : l.Like c.loader
  /-- Graph, bindings and modules agree. -/
  linked : c.context.Linked
  /-- What the context holds has its ground. -/
  grounded : c.context.Grounded l needed
  /-- No module is left out. -/
  accounted : c.context.Accounted roots []
  /-- No module is ahead of its imports. -/
  inStep : c.context.InStep []

variable {roots : String → Prop} {c d : Compilation} {key : String} {entry : Path}

/-- The forest that holds nothing but the scope of the builtin types. -/
private theorem sound_outermost : (ScopeForest.empty.openScope none .global).2.Sound := by
  have parent : ∀ s, (ScopeForest.empty.openScope none .global).2.parent? s = none := by
    intro s
    rw [ScopeForest.parent?_openScope]
    split <;> rfl
  have symbols : ∀ s, (ScopeForest.empty.openScope none .global).2.symbols s = [] :=
    fun s => ScopeForest.symbols_openScope ..
  have imports : ∀ s, (ScopeForest.empty.openScope none .global).2.imports s = [] :=
    fun s => ScopeForest.imports_openScope ..
  constructor
  · simp
  · simp [parent]
  · exact parent 0
  · simp [symbols]
  · simp [symbols]
  · simp [imports]

/-- At the start the builtin types are declared, each with a scope for its members. -/
theorem sound_initial : Context.initial.scopes.Sound := by
  have hsound := sound_outermost
  exact (ScopeForest.grows_declarePrimitives _ hsound.base Primitive.all).sound hsound

section New

variable (l : Loader) (needed : Path → Prop) (roots : String → Prop)

private theorem not_mem_modules_new (m : Module) : m ∉ (new l).context.modules := List.not_mem_nil

private theorem not_edge_new (u v : String) : ¬ (new l).context.graph.Edge u v :=
  ImportGraph.not_edge_empty u v

private theorem imports_new (s : ScopeId) : (new l).context.scopes.imports s = [] := by
  have hgrows := ScopeForest.grows_declarePrimitives _ sound_outermost.base Primitive.all
  exact (hgrows.imports s).trans (ScopeForest.imports_openScope ..)

/-- Before the first check, nothing is there that could disagree. -/
private theorem linked_new : (new l).context.Linked where
  scopes := sound_initial
  graph := ImportGraph.sound_empty
  keys_nodup := List.nodup_nil
  normal m hm := absurd hm (not_mem_modules_new l m)
  parsed m hm := absurd hm (not_mem_modules_new l m)
  places m hm := absurd hm (not_mem_modules_new l m)
  root m hm := absurd hm (not_mem_modules_new l m)
  roots_nodup := List.nodup_nil
  edge_iff m hm := absurd hm (not_mem_modules_new l m)
  source he := absurd he (not_edge_new l _ _)
  bound {s b} hb := by
    rw [imports_new l s] at hb
    exact absurd hb List.not_mem_nil

/-- Before the first check, nothing is there that needs a ground. -/
private theorem grounded_new : (new l).context.Grounded l needed where
  loaded m hm := absurd hm (not_mem_modules_new l m)
  edges he := absurd he (not_edge_new l _ _)
  named m hm := absurd hm (not_mem_modules_new l m)
  explained _ hr := absurd hr List.not_mem_nil
  collected m hm := absurd hm (not_mem_modules_new l m)

theorem settled_new : Settled l needed roots (new l) where
  like := Loader.Like.refl l
  linked := linked_new l
  grounded := grounded_new l needed
  accounted := Or.inr fun m hm => absurd hm (not_mem_modules_new l m)
  inStep := by
    refine ⟨fun m hm => absurd hm (not_mem_modules_new l m), fun {s b} hb => ?_⟩
    rw [imports_new l s] at hb
    exact absurd hb List.not_mem_nil

end New

theorem extends_enter (ctx : Context) (key? : Option String) :
    ctx.Extends { ctx with entry? := key? } := ⟨id, id, id, .refl _, id, List.prefix_rfl⟩

theorem enrols_enter (ctx : Context) (key? : Option String) :
    ctx.Enrols { ctx with entry? := key? } :=
  ⟨extends_enter ctx key?, fun h => h.of_same rfl rfl rfl, fun _ => Or.inl rfl, fun _ => rfl,
    .of_same rfl rfl⟩

/-- Noting which module is asked for changes nothing that counts. -/
theorem Settled.enter (h : Settled l needed roots c) (key? : Option String) :
    Settled l needed roots (c.update fun ctx => { ctx with entry? := key? }) := by
  have hext := extends_enter c.context key?
  exact ⟨h.like, h.linked.of_same rfl rfl rfl, ⟨h.grounded.loaded, h.grounded.edges,
    h.grounded.named, fun r hr hfatal => (h.grounded.explained r hr hfatal).later h.linked hext,
    h.grounded.collected⟩, h.accounted.congr hext rfl, ⟨h.inStep.outer, h.inStep.bound⟩⟩

/-! ### The first pass -/

/-- A registered entry may be collected. -/
theorem ready_of_registers (hacc : c.context.Accounted roots [])
    (hstep : c.context.InStep []) (hroot : roots key) (hlike : l.Like d.loader)
    (hreg : Registers l needed key c.context d.context) :
    (collecting l needed roots).Ready [] key d := by
  obtain ⟨target, htarget⟩ := hreg.target
  obtain ⟨hmem, rfl⟩ := mem_of_module? htarget
  refine ⟨⟨⟨hreg.linked, .nil, by simp⟩, .singleton _, ?_⟩, hlike, hreg.grounded, ?_, ?_⟩
  · rw [phase_of_module? htarget]
    exact hreg.linked.parsed target hmem
  · refine hacc.imp (Spoiled.later hreg.onward) fun hall m hm => ?_
    have hold : m ∈ c.context.modules → d.context.Accounts roots [target.key] m :=
      fun hm => (hall m hm).later hreg.onward (List.nil_subset _)
    rcases hreg.modules with he | ⟨-, -, hnew⟩
    · exact hold (he ▸ hm)
    · rcases hnew m hm with hm | hkey
      · exact hold hm
      · exact ⟨Or.inl (by simp [hkey]), m.key, hkey.symm ▸ hroot, .refl⟩
  · exact hstep.extend hreg.linked hreg.onward (fun k => (hreg.phases k).imp_right
      fun ⟨_, hk⟩ => hk.le) (List.nil_subset _) fun hb => Or.inl (hreg.imports _ ▸ hb)

/-- The first file that is asked for is registered if it is a program. -/
theorem exists_register_ok (file : Path) (h : (l.load file).1.isOk = true) (key : String) :
    ∃ c, ((new l).update fun ctx => { ctx with entry? := some key }).register key file =
      (.ok (), c) := by
  have hload : ((new l).update fun ctx => { ctx with entry? := some key }).loader.load file =
    l.load file := rfl
  rw [register, if_neg (by exact Bool.false_ne_true), hload]
  generalize l.load file = r at h ⊢
  obtain ⟨e | program, next⟩ := r
  · cases h
  · exact ⟨_, rfl⟩

/-- The depth that collection is given is enough. -/
theorem limit_le (hready : (collecting l needed roots).Ready [] key c) :
    (collecting l needed roots).limit ≤
      c.context.modules.length + c.loader.store.size + 1 + ([] : List String).length := by
  have hle : l.fileKeys.dedup.length ≤ c.loader.store.size := by
    rw [hready.2.1.store, ← l.length_fileKeys]
    exact (List.dedup_sublist l.fileKeys).length_le
  simp only [collecting, List.length_nil]
  omega

/-- Collection comes to its end. -/
theorem collect_spec (hclosed : l.Closed needed)
    (hready : (collecting l needed roots).Ready [] key c) :
    Collecting l needed roots [] (c.collect key) ∧ c.Advances (c.collect key) ∧
      Phase.collected ≤ (c.collect key).context.phase key :=
  (obeys_collecting hclosed).runWithin _ hready (limit_le hready)

/-! ### The passes behind it -/

/-- Resolution comes to its end. -/
theorem resolve_spec {ctx : Context} (hl : ctx.Linked) (hle : Phase.collected ≤ ctx.phase key) :
    Passing .resolved .collected ctx [] (Context.resolve key ctx) ∧
      Phase.resolved ≤ (Context.resolve key ctx).phase key :=
  traverse_passing filling_resolver (fun _ => rfl) rfl (by decide) hl hle

/-- Type checking comes to its end. -/
theorem typecheck_spec {ctx : Context} (hl : ctx.Linked) (hle : Phase.resolved ≤ ctx.phase key) :
    Passing .typechecked .resolved ctx [] (Context.check key ctx) ∧
      Phase.typechecked ≤ (Context.check key ctx).phase key :=
  traverse_passing filling_checker (fun _ => rfl) rfl (by decide) hl hle

/-- Behind collection, either a fatal report ends the check or both other passes run. -/
theorem runPasses_cases {c₁ : Compilation} (h : c₁ = c.collect key) (hl : c₁.context.Linked)
    (hle : Phase.collected ≤ c₁.context.phase key) :
    (c₁.context.diagnostics.hasFatal = true ∧ c.runPasses key = c₁) ∨
      (c₁.context.diagnostics.hasFatal = false ∧ ∃ r t : Context,
        Passing .resolved .collected c₁.context [] r ∧ Phase.resolved ≤ r.phase key ∧
          Passing .typechecked .resolved r [] t ∧ Phase.typechecked ≤ t.phase key ∧
            c.runPasses key = ⟨t, c₁.loader⟩) := by
  subst h
  cases hfatal : (c.collect key).context.diagnostics.hasFatal with
  | true => exact Or.inl ⟨rfl, by simp [runPasses, andThen, hfatal]⟩
  | false =>
    obtain ⟨hr, hrkey⟩ := resolve_spec hl hle
    obtain ⟨ht, htkey⟩ := typecheck_spec hr.walking.linked hrkey
    have hfatal' := hr.since.hasFatal_eq.trans hfatal
    refine Or.inr ⟨rfl, _, _, hr, hrkey, ht, htkey, ?_⟩
    simp [runPasses, andThen, hfatal, hfatal', update]

/-! ### The whole check -/

/-- The passes keep what holds between checks. -/
theorem settled_runPasses (hclosed : l.Closed needed)
    (hready : (collecting l needed roots).Ready [] key c) :
    Settled l needed roots (c.runPasses key) := by
  obtain ⟨hc, -, hkey⟩ := collect_spec hclosed hready
  have hl := hc.walking.linked
  rcases runPasses_cases rfl hl hkey with ⟨-, he⟩ | ⟨-, r, t, hr, -, ht, -, he⟩
  · exact he ▸ ⟨hc.like, hl, hc.grounded, hc.accounted, hc.inStep⟩
  · have hgrounded := hr.grounded rfl le_rfl hc.grounded
    exact he ▸ ⟨hc.like, ht.walking.linked, ht.grounded rfl (by decide) hgrounded,
      (hc.accounted.passes hl hr.since).passes hr.walking.linked ht.since,
      ht.inStep rfl hgrounded (hr.inStep rfl hc.grounded hc.inStep)⟩

/-- A check keeps what holds between checks. -/
theorem Settled.check (h : Settled l needed roots c) (hclosed : l.Closed needed)
    (hneeded : needed entry) (hroot : roots (l.moduleKey entry)) :
    Settled l needed roots (c.check entry).2 := by
  have h' := h.enter (some (l.moduleKey entry))
  rcases hreg : (c.update fun ctx => { ctx with entry? := some (l.moduleKey entry) }).register
    (l.moduleKey entry) entry with ⟨e | u, d⟩
  · obtain ⟨hlike, hfails, hd⟩ := register_error h'.like hreg
    have hsettled : Settled l needed roots d :=
      ⟨hlike, hd ▸ h'.linked, hd ▸ h'.grounded, hd ▸ h'.accounted, hd ▸ h'.inStep⟩
    cases e with
    | read e => simpa only [Compilation.check, h.like.moduleKey_eq, hreg] using hsettled
    | grammar e =>
      simp only [Compilation.check, h.like.moduleKey_eq, hreg]
      exact ⟨hlike, hsettled.linked.report _,
        hsettled.grounded.report hsettled.linked fun _ => .unparsed hneeded hfails,
        hsettled.accounted.congr (extends_report ..) rfl,
        ⟨hsettled.inStep.outer, hsettled.inStep.bound⟩⟩
  · obtain ⟨hlike, hd⟩ := register_ok h'.linked h'.grounded h'.like hneeded rfl hreg
    simp only [Compilation.check, h.like.moduleKey_eq, hreg]
    exact settled_runPasses hclosed (ready_of_registers h'.accounted h'.inStep hroot hlike hd)

/-- Any number of checks keep what holds between checks. -/
theorem Settled.checkAll (h : Settled l needed roots c) (hclosed : l.Closed needed)
    (hneeded : ∀ p, needed p) (hroot : ∀ k, roots k) (entries : List Path) :
    Settled l needed roots (checkAll entries c) := by
  induction entries generalizing c with
  | nil => exact h
  | cons entry entries ih => exact ih (h.check hclosed (hneeded entry) (hroot _))

/--
The import graph says what the scopes say: from a registered module, edges lead just to the keys
that aliases are bound to in its tree of scopes, each such key is registered, and the alias
stands for the outermost scope of the module registered under it.
-/
def Agrees (ctx : Context) : Prop :=
  ∀ m ∈ ctx.modules,
    (∀ k, ctx.graph.Edge m.key k ↔
      ∃ s b, m.root ∈ ctx.scopes.chain s ∧ b ∈ ctx.scopes.imports s ∧ b.key = k) ∧
    ∀ s b, m.root ∈ ctx.scopes.chain s → b ∈ ctx.scopes.imports s →
      ∃ target, ctx.module? b.key = some target ∧ b.root = target.root

/-- After any checks, graph, scopes and modules agree on what is imported. -/
theorem checkAll_agrees (l : Loader) (entries : List Path) :
    Agrees (checkAll entries (new l)).context := by
  have hclosed : l.Closed fun _ => True := fun _ _ _ _ => trivial
  have h := (settled_new l (fun _ => True) fun _ => True).checkAll hclosed
    (fun _ => trivial) (fun _ => trivial) entries
  intro m hm
  refine ⟨h.linked.edge_iff m hm, fun s b _ hb => ?_⟩
  obtain ⟨-, target, htarget, hkey, hroot⟩ := h.linked.bound hb
  exact ⟨target, hkey ▸ h.linked.module?_of_mem htarget, hroot.symm⟩

end Compilation

end Sable

/-!
## Histories of collection

Collection walks no module twice, so it has a history: one visit after the other, and the visits of
each module that it has led on spell the script of the module.
-/

namespace Sable.Compilation

open Context

variable {l : Loader} {needed : Path → Prop} {roots : String → Prop} {c : Compilation}
  {key : String} {stack : List String} {m : Module} {s : ScopeId}

/-! ### Visits -/

/-- A place that stays in its scope declares names in the tree of its module. -/
theorem fills_stop (hs : (collecting l needed roots).At stack m s c) (x : Stop) :
    c.Fills m ((collector m).stop s x c) := by
  have hvisits := @visits_fills l needed roots stack m
  cases x with
  | typeDecl d => exact hvisits.typeDecl d hs
  | declaring isConst targets values span => exact hvisits.declaring isConst targets values span hs
  | declared targets values => exact hvisits.declared targets values hs
  | assigning targets values span => exact hvisits.assigning targets values span hs
  | name name => exact hvisits.name name hs
  | qualified module name => exact hvisits.qualified module name hs

/-- The head of a function or a method declares names there, and opens the scope of its body. -/
theorem opens_head (hs : (collecting l needed roots).At stack m s c) {hd : Head} {ys : List Step}
    (hocc : (Step.body hd ys).Occurs m.program.steps) :
    c.Opens m ((collector m).head s hd c) := by
  obtain ⟨_ | receiver, name, params, ret⟩ := hd
  · exact collectFunction_opens hs.2.1 hs.2.2 name params
  · have hplace : Place.receiver receiver ∈ m.program.places := by
      rw [← m.program.placesAll_steps]
      exact hocc.places_subset (by simp [Step.places])
    exact collectMethod_opens hs.2.1 hs.2.2 (hs.2.2.places hs.2.1 _ hplace) name params

/-- A module that is turned to is entered or passed over, and nothing else happens. -/
theorem enter_eq (hready : (collecting l needed roots).Ready stack key c) :
    (collection.enter key c).2 = c := by
  rcases he : collection.enter key c with ⟨m?, d⟩
  exact (enter_collection hready.1 he).1

/-! ### Runs -/

/-- Collection walks no module twice. -/
theorem once_collecting : collection.Once (collecting l needed roots) where
  finished_later hd h := h.trans (hd.onward.phase_le _)
  fresh h he := by
    obtain ⟨rfl, hm, hphase⟩ := enter_collection h.1 he
    refine ⟨fun hfin => ?_, (List.nodup_cons.mp h.1.nodup).1⟩
    have hle : Phase.collected ≤ Phase.parsed := hphase ▸ phase_of_module? hm ▸ hfin
    exact absurd hle (by decide)

/--
Collection has a history, in which it visits the modules that it leads on, and only these, each of
them as its script says.
-/
theorem exists_history_collect (hclosed : l.Closed needed)
    (hready : (collecting l needed roots).Ready [] key c) :
    ∃ W, collection.History (collecting l needed roots) c W (c.collect key) ∧
      (collecting l needed roots).Closes [] c W (c.collect key) ∧
        ∀ m v, .visited m v ∈ W → .closed m ∈ W :=
  (obeys_collecting hclosed).history once_collecting _ hready (limit_le hready) [] .start

end Sable.Compilation
