import Sable.Proofs.Compilation.Checking
import Sable.Proofs.Module.Projection

/-!
# Recorded checks

What the passes do on the way can be recorded beside the state. A ledger takes each pass to one that
keeps a record and changes nothing else, and so takes the checks of a compilation to checks with a
record. What the parts of a check respect holds between any two checks, since each pass is started
where its discipline wants it to be. A recorder keeps records of one kind beside all states; it makes
a ledger.
-/

namespace Sable

/-- A way to keep a record beside compilations and, while a pass is run on it, beside a context. -/
structure Ledger where
  /-- Compilations with a record beside them. -/
  Whole : Type
  /-- Contexts with a record beside them. -/
  Part : Type
  /-- The compilation beside a record. -/
  whole : Whole → Compilation
  /-- The context beside a record. -/
  part : Part → Context
  /-- Another compilation beside the same record. -/
  put : Whole → Compilation → Whole
  /-- The context of a compilation beside the same record. -/
  focus : Whole → Part
  /-- A compilation with another context, beside the record of the context. -/
  restore : Whole → Part → Whole
  /-- The first pass beside a record. -/
  collection : Traversal Whole
  /-- A pass behind the first one, with the traversal that it makes, beside a record. -/
  traversal : Pass → Traversal Context → Traversal Part
  /-- The compilation is the one that has been put there. -/
  whole_put : ∀ c d, whole (put c d) = d
  /-- The context is that of the compilation. -/
  part_focus : ∀ c, part (focus c) = (whole c).context
  /-- The compilation takes the context over. -/
  whole_restore : ∀ c d, whole (restore c d) = { whole c with context := part d }
  /-- Recording the first pass changes nothing. -/
  collection_projects : collection.Projects whole Compilation.collection
  /-- Recording another pass changes nothing. -/
  traversal_projects : ∀ pass t, (traversal pass t).Projects part t

namespace Ledger

open Compilation Context

variable (L : Ledger)

/-- Collects a module, recorded. -/
def collect (key : String) (c : L.Whole) : L.Whole :=
  L.collection.runWithin
    ((L.whole c).context.modules.length + (L.whole c).loader.store.size + 1) key c

/-- Runs a pass behind the first one, recorded, unless some problem keeps it from being started. -/
def andThen (t : Traversal Context) (pass : Pass) (key : String) (c : L.Whole) : L.Whole :=
  if (L.whole c).context.diagnostics.hasFatal then c
  else
    L.restore c
      ((L.traversal pass t).runWithin ((L.whole c).context.modules.length + 1) key (L.focus c))

/-- Puts a module through all passes, recorded. -/
def runPasses (key : String) (c : L.Whole) : L.Whole :=
  L.andThen typing .typechecking key (L.andThen resolution .resolving key (L.collect key c))

/-- Checks an entry file, recorded. -/
def check (entry : Path) (c : L.Whole) : L.Whole :=
  let key := (L.whole c).loader.moduleKey entry
  match ((L.whole c).update fun ctx => { ctx with entry? := some key }).register key entry with
  | (.ok _, d) => L.runPasses key (L.put c d)
  | (.error (.read _), d) => L.put c d
  | (.error (.grammar e), d) =>
    L.put c (d.update fun ctx => ctx.report (loadReport entry (.grammar e)))

/-- Checks entry files one after the other, recorded. -/
def checkAll (entries : List Path) (c : L.Whole) : L.Whole :=
  entries.foldl (fun c entry => L.check entry c) c

/-- A pass behind the first one is run on the context, or is not started. -/
theorem andThen_cases (t : Traversal Context) (pass : Pass) (key : String) (c : L.Whole) :
    L.andThen t pass key c = c ∨
      ∃ d, d = (L.traversal pass t).runWithin ((L.whole c).context.modules.length + 1) key
          (L.focus c) ∧ L.andThen t pass key c = L.restore c d := by
  unfold Ledger.andThen
  split
  · exact Or.inl rfl
  · exact Or.inr ⟨_, rfl, rfl⟩

/-! ### The compilation beside the record -/

theorem whole_collect (key : String) (c : L.Whole) :
    L.whole (L.collect key c) = (L.whole c).collect key :=
  (L.collection_projects.runWithin _ key c).symm

theorem whole_andThen (t : Traversal Context) (pass : Pass) (key : String) (c : L.Whole) :
    L.whole (L.andThen t pass key c) = (L.whole c).andThen (traverse t key) := by
  have h := (L.traversal_projects pass t).runWithin ((L.whole c).context.modules.length + 1) key
    (L.focus c)
  unfold Ledger.andThen Compilation.andThen
  split
  · rfl
  · rw [L.part_focus] at h
    rw [L.whole_restore, ← h]
    rfl

/-- A recorded check checks what it records. -/
theorem whole_check (entry : Path) (c : L.Whole) :
    L.whole (L.check entry c) = ((L.whole c).check entry).2 := by
  unfold Ledger.check Compilation.check
  dsimp only
  rcases ((L.whole c).update fun ctx =>
    { ctx with entry? := some ((L.whole c).loader.moduleKey entry) }).register
      ((L.whole c).loader.moduleKey entry) entry with ⟨(_ | _) | _, d⟩
  · exact L.whole_put c d
  · exact L.whole_put c _
  · simp only [Ledger.runPasses, whole_andThen, whole_collect, L.whole_put]
    rfl

theorem whole_checkAll (entries : List Path) (c : L.Whole) :
    L.whole (L.checkAll entries c) = Compilation.checkAll entries (L.whole c) := by
  induction entries generalizing c with
  | nil => rfl
  | cons entry entries ih =>
    refine (ih (L.check entry c)).trans ?_
    rw [whole_check]
    rfl

/-! ### What holds between checks -/

/-- The parts of a check respect what is to hold between checks. -/
structure Keeps (l : Loader) (needed : Path → Prop) (roots : String → Prop)
    (I : L.Whole → Prop) : Prop where
  /-- A module may be registered, or problems reported; nothing is imported then. -/
  put : ∀ {c d}, I c → (L.whole c).context.Enrols d.context →
    (∀ s, d.context.scopes.imports s = (L.whole c).context.scopes.imports s) → I (L.put c d)
  /-- A module may be collected. -/
  collect : ∀ {key c}, I c → (collecting l needed roots).Ready [] key (L.whole c) →
    I (L.collect key c)
  /-- A module may be resolved. -/
  resolve : ∀ {key c}, I c → (L.whole c).context.Linked →
    Phase.collected ≤ (L.whole c).context.phase key → I (L.andThen resolution .resolving key c)
  /-- A module may be type checked. -/
  typecheck : ∀ {key c}, I c → (L.whole c).context.Linked →
    Phase.resolved ≤ (L.whole c).context.phase key → I (L.andThen typing .typechecking key c)

variable {L} {l : Loader} {needed : Path → Prop} {roots : String → Prop} {I : L.Whole → Prop}
  {c : L.Whole} {key : String} {entry : Path}

/-- The passes keep what holds between checks. -/
theorem Keeps.runPasses (h : L.Keeps l needed roots I) (hc : I c) (hclosed : l.Closed needed)
    (hready : (collecting l needed roots).Ready [] key (L.whole c)) :
    I (L.runPasses key c) := by
  obtain ⟨hcollecting, -, hkey⟩ := collect_spec hclosed hready
  have hl := hcollecting.walking.linked
  have hcollected := h.collect hc hready
  rw [← L.whole_collect] at hl hkey
  have hresolved := h.resolve hcollected hl hkey
  -- A pass that is not started leaves the compilation as it is, and so is none behind it.
  cases hfatal : (L.whole (L.collect key c)).context.diagnostics.hasFatal with
  | true =>
    have hskip : ∀ t pass, L.andThen t pass key (L.collect key c) = L.collect key c :=
      fun t pass => if_pos hfatal
    rw [Ledger.runPasses, hskip, hskip]
    exact hcollected
  | false =>
    obtain ⟨hr, hrkey⟩ := resolve_spec hl hkey
    have hstate : (L.whole (L.andThen resolution .resolving key (L.collect key c))).context =
        Context.resolve key (L.whole (L.collect key c)).context := by
      rw [L.whole_andThen, Compilation.andThen, hfatal]
      rfl
    exact h.typecheck hresolved (hstate ▸ hr.walking.linked) (hstate ▸ hrkey)

/-- A check keeps what holds between checks. -/
theorem Keeps.check (h : L.Keeps l needed roots I) (hc : I c)
    (hsettled : Settled l needed roots (L.whole c)) (hclosed : l.Closed needed)
    (hneeded : needed entry) (hroot : roots (l.moduleKey entry)) : I (L.check entry c) := by
  have hs := hsettled.enter (some (l.moduleKey entry))
  have henter := enrols_enter (L.whole c).context (some (l.moduleKey entry))
  rcases hreg : ((L.whole c).update fun ctx =>
    { ctx with entry? := some (l.moduleKey entry) }).register (l.moduleKey entry) entry
    with ⟨e | u, d⟩
  · obtain ⟨-, -, hd⟩ := register_error hs.like hreg
    have henrols : (L.whole c).context.Enrols d.context := hd ▸ henter
    have himports : ∀ s, d.context.scopes.imports s = (L.whole c).context.scopes.imports s :=
      fun s => congrArg (fun ctx => ctx.scopes.imports s) hd
    cases e with
    | read e =>
      simpa only [Ledger.check, hsettled.like.moduleKey_eq, hreg] using h.put hc henrols himports
    | grammar e =>
      simp only [Ledger.check, hsettled.like.moduleKey_eq, hreg]
      exact h.put hc (henrols.trans (enrols_report ..)) himports
  · obtain ⟨hlike, hd⟩ := register_ok hs.linked hs.grounded hs.like hneeded rfl hreg
    have hready := ready_of_registers hs.accounted hs.inStep hroot hlike hd
    simp only [Ledger.check, hsettled.like.moduleKey_eq, hreg]
    refine h.runPasses (h.put hc (henter.trans (hd.enrols hreg)) hd.imports) hclosed ?_
    rwa [L.whole_put]

/-- Any number of checks keep what holds between them. -/
theorem Keeps.checkAll (h : L.Keeps l needed roots I) (hc : I c)
    (hsettled : Settled l needed roots (L.whole c)) (hclosed : l.Closed needed)
    (hneeded : ∀ p, needed p) (hroot : ∀ k, roots k) (entries : List Path) :
    I (L.checkAll entries c) := by
  induction entries generalizing c with
  | nil => exact hc
  | cons entry entries ih =>
    refine ih (h.check hc hsettled hclosed (hneeded entry) (hroot _)) ?_
    rw [L.whole_check]
    exact hsettled.check hclosed (hneeded entry) (hroot _)

end Ledger

/-! ### Recorders -/

/-- A way to keep a record beside the state of traversals, whatever the states are. -/
structure Recorder where
  /-- States with a record beside them. -/
  Of : Type → Type
  /-- The state beside a record. -/
  state : {σ : Type} → Of σ → σ
  /-- Another state beside the same record. -/
  put : {σ τ : Type} → Of σ → τ → Of τ
  /-- The same traversal beside a record, which takes it for a pass. -/
  traversal : {σ : Type} → Pass → Traversal σ → Traversal (Of σ)
  /-- The state is the one that has been put there. -/
  state_put : ∀ {σ τ : Type} (c : Of σ) (d : τ), state (put c d) = d
  /-- Recording changes nothing. -/
  projects : ∀ {σ : Type} (pass : Pass) (t : Traversal σ), (traversal pass t).Projects state t

namespace Recorder

open Compilation Context

variable (r : Recorder)

/-- Collects a module, recorded. -/
def collect (key : String) (c : r.Of Compilation) : r.Of Compilation :=
  (r.traversal .collecting collection).runWithin
    ((r.state c).context.modules.length + (r.state c).loader.store.size + 1) key c

/-- Runs a pass behind the first one, recorded, unless some problem keeps it from being started. -/
def andThen (t : Traversal Context) (pass : Pass) (key : String) (c : r.Of Compilation) :
    r.Of Compilation :=
  if (r.state c).context.diagnostics.hasFatal then c
  else
    let d := (r.traversal pass t).runWithin ((r.state c).context.modules.length + 1) key
      (r.put c (r.state c).context)
    r.put d { r.state c with context := r.state d }

/-- Puts a module through all passes, recorded. -/
def runPasses (key : String) (c : r.Of Compilation) : r.Of Compilation :=
  r.andThen typing .typechecking key (r.andThen resolution .resolving key (r.collect key c))

/-- Checks an entry file, recorded. -/
def check (entry : Path) (c : r.Of Compilation) : r.Of Compilation :=
  let key := (r.state c).loader.moduleKey entry
  match ((r.state c).update fun ctx => { ctx with entry? := some key }).register key entry with
  | (.ok _, d) => r.runPasses key (r.put c d)
  | (.error (.read _), d) => r.put c d
  | (.error (.grammar e), d) =>
    r.put c (d.update fun ctx => ctx.report (loadReport entry (.grammar e)))

/-- Checks entry files one after the other, recorded. -/
def checkAll (entries : List Path) (c : r.Of Compilation) : r.Of Compilation :=
  entries.foldl (fun c entry => r.check entry c) c

/-- A recorder keeps a record beside compilations and contexts alike. -/
def ledger : Ledger where
  Whole := r.Of Compilation
  Part := r.Of Context
  whole := r.state
  part := r.state
  put := r.put
  focus c := r.put c (r.state c).context
  restore c d := r.put d { r.state c with context := r.state d }
  collection := r.traversal .collecting collection
  traversal := r.traversal
  whole_put := r.state_put
  part_focus _ := r.state_put ..
  whole_restore _ _ := r.state_put ..
  collection_projects := r.projects ..
  traversal_projects := r.projects

/-- A pass behind the first one is run on the context, or is not started. -/
theorem andThen_cases (t : Traversal Context) (pass : Pass) (key : String)
    (c : r.Of Compilation) :
    r.andThen t pass key c = c ∨
      ∃ d, d = (r.traversal pass t).runWithin ((r.state c).context.modules.length + 1) key
          (r.put c (r.state c).context) ∧
        r.andThen t pass key c = r.put d { r.state c with context := r.state d } :=
  r.ledger.andThen_cases t pass key c

theorem state_checkAll (entries : List Path) (c : r.Of Compilation) :
    r.state (r.checkAll entries c) = Compilation.checkAll entries (r.state c) :=
  r.ledger.whole_checkAll entries c

/-- The parts of a check respect what is to hold between checks. -/
structure Keeps (l : Loader) (needed : Path → Prop) (roots : String → Prop)
    (I : r.Of Compilation → Prop) : Prop where
  /-- A module may be registered, or problems reported; nothing is imported then. -/
  put : ∀ {c d}, I c → (r.state c).context.Enrols d.context →
    (∀ s, d.context.scopes.imports s = (r.state c).context.scopes.imports s) → I (r.put c d)
  /-- A module may be collected. -/
  collect : ∀ {key c}, I c → (collecting l needed roots).Ready [] key (r.state c) →
    I (r.collect key c)
  /-- A module may be resolved. -/
  resolve : ∀ {key c}, I c → (r.state c).context.Linked →
    Phase.collected ≤ (r.state c).context.phase key → I (r.andThen resolution .resolving key c)
  /-- A module may be type checked. -/
  typecheck : ∀ {key c}, I c → (r.state c).context.Linked →
    Phase.resolved ≤ (r.state c).context.phase key → I (r.andThen typing .typechecking key c)

variable {r} {l : Loader} {needed : Path → Prop} {roots : String → Prop}
  {I : r.Of Compilation → Prop} {c : r.Of Compilation}

/-- Any number of checks keep what holds between them. -/
theorem Keeps.checkAll (h : r.Keeps l needed roots I) (hc : I c)
    (hsettled : Settled l needed roots (r.state c)) (hclosed : l.Closed needed)
    (hneeded : ∀ p, needed p) (hroot : ∀ k, roots k) (entries : List Path) :
    I (r.checkAll entries c) := by
  have hledger : r.ledger.Keeps l needed roots I := ⟨h.put, h.collect, h.resolve, h.typecheck⟩
  exact hledger.checkAll hc hsettled hclosed hneeded hroot entries

/-- Recording nothing. -/
def plain : Recorder where
  Of σ := σ
  state c := c
  put _ d := d
  traversal _ t := t
  state_put _ _ := rfl
  projects _ _ := ⟨fun _ _ => rfl, fun _ => ⟨fun _ _ _ => rfl, fun _ _ _ _ _ => rfl,
    fun _ _ _ _ _ _ => rfl, fun _ _ _ => rfl, fun _ _ _ _ _ _ => rfl, fun _ _ _ _ => rfl,
    fun _ _ _ _ => rfl, fun _ _ _ => rfl, fun _ _ _ _ => rfl⟩, fun _ _ => rfl, fun _ _ => rfl⟩

theorem checkAll_plain (entries : List Path) (c : Compilation) :
    plain.checkAll entries c = Compilation.checkAll entries c := plain.state_checkAll entries c

end Recorder

end Sable
