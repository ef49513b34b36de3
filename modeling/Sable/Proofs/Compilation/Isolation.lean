import Sable.Proofs.Compilation.Recording
import Sable.Proofs.Context.Isolated

/-!
# Isolation of modules

The checks of a compilation are noted here: what each visit of the three passes does to the scopes,
and on the walk over which module. Every visit keeps to the tree of its module. So after any checks
the builtin scopes are what they were at first, every other scope lies in the tree of exactly one
module, and no module has changed a name of another one.
-/

namespace Sable.Compilation

open Context

variable {l : Loader} {needed : Path → Prop} {roots : String → Prop} {c d : Compilation}
  {m : Module} {stack : List String} {W : List Deed}

/-- The scopes of a compilation. -/
def scopes (c : Compilation) : ScopeForest := c.context.scopes

/-- What visits do to the scopes is noted, and nothing else is changed. -/
def notebook : Ledger where
  Whole := Noted Compilation
  Part := Noted Context
  whole := Noted.state
  part := Noted.state
  put := Noted.put
  focus c := c.put c.state.context
  restore c d := d.put { c.state with context := d.state }
  collection := collection.noted scopes
  traversal _ t := t.noted Context.scopes
  whole_put _ _ := rfl
  part_focus _ := rfl
  whole_restore _ _ := rfl
  collection_projects := collection.noted_projects scopes
  traversal_projects _ t := t.noted_projects Context.scopes

/-! ### What visits do to modules -/

/-- Declaring names in the tree of a module opens no scope outside of it. -/
theorem Fills.shelters (h : c.Fills m d) (hl : c.context.Linked) (hm : c.context.Knows m) :
    c.context.Shelters d.context where
  onward := h.context.toExtends hl
  opened t ht ht' := ⟨m, (knows_congr h.context.modules).mpr hm, h.opened t ht ht'⟩
  roots m' hm' := Or.inl ⟨m', (knows_congr h.context.modules).mp hm', rfl⟩

/-- The first pass keeps modules isolated, visit by visit. -/
theorem notes_collecting (hclosed : l.Closed needed) :
    (collecting l needed roots).Notes scopes (fun W c => c.context.Isolated W) collection where
  enter {stack key c} hready W h := by
    have henter : collection.enter key c =
        ((collection.enter key c).1, (collection.enter key c).2) := rfl
    obtain ⟨hsame, -⟩ := enter_collection hready.1 henter
    exact hsame.symm ▸ h
  visits stack m := (visits_fills stack m).imp fun hs hd W h =>
    h.visit (hd.context.linked hs.2.1) hs.2.2.1 (hd.shelters hs.2.1 hs.2.2.1) hd.outside
  importing {stack m s i c} hi hs W h := by
    rw [importing_collection]
    rcases hc : collectImport m s i c with ⟨key?, d⟩
    have himported := hs.1.imported hclosed hs.2.2 hi hc
    have henrols := himported.enrols hc
    exact h.visit himported.linked hs.2.2.1 henrols.shelters fun t _ => henrols.symbols t
  leave {stack m c} hs W h := by
    obtain ⟨-, hleads, -⟩ := hs.1.walking.leave hs.2.2.1
      (show Phase.collected.previous? = some .parsed from rfl)
    refine h.same (hleads.shelters hs.2.1) fun t => ?_
    show (c.context.setPhase m.key .collected).scopes.symbols t = _
    rw [scopes_setPhase]

/-- A pass behind the first one keeps modules isolated, visit by visit. -/
theorem notes_passing {target p : Phase} {pass : Pass} {activity : String}
    {v : Module → Visitor Context} (hv : ∀ m, Filling (v m)) (hlocal : ∀ m, Local (v m))
    (hi : ∀ m, (v m).importing = nextModule target) (ht : target.previous? = some p)
    (hp : Phase.parsed ≤ p) (c₀ : Context) :
    (passing target p c₀).Notes Context.scopes (fun W c => c.Isolated W)
      (traversal target pass activity v) where
  enter {stack key c} hready W h := by
    have henter : c.enter key target pass activity =
        ((c.enter key target pass activity).1, (c.enter key target pass activity).2) := rfl
    obtain ⟨hsame, -⟩ := hready.1.enter_cases ht hp henter
    exact hsame.symm ▸ h
  visits stack m := ((visits_types hv c₀ stack m).and (visits_local hv hlocal c₀ stack m)).imp
    fun hs hd W h => by
      have hleads : Context.Leads target _ _ := hd.1.leads
      refine h.visit (hd.1.linked hs.2.1) hs.2.2.1 (hleads.shelters hs.2.1) fun t htree => ?_
      exact hd.2 t (ScopeForest.chain_of_untyped hd.1.untyped t ▸ htree)
  importing {stack m s i c} _ hs W h := by
    have hsame : ((v m).importing s i c).2 = c := by
      rw [hi]
      rfl
    have hshelters := (Leads.refl target c).shelters hs.2.1
    show ((v m).importing s i c).2.Isolated
      (W ++ [⟨m.key, c.scopes, ((v m).importing s i c).2.scopes⟩])
    rw [hsame]
    exact h.visit hs.2.1 hs.2.2.1 hshelters fun _ _ => rfl
  leave {stack m c} hs W h := by
    obtain ⟨-, hleads, -⟩ := hs.1.walking.leave hs.2.2.1 ht
    refine h.same (hleads.shelters hs.2.1) fun t => ?_
    show (c.setPhase m.key target).scopes.symbols t = _
    rw [scopes_setPhase]

/-! ### Isolation between checks -/

/-- Between checks, modules are isolated. -/
def Apart (c : Noted Compilation) : Prop := c.state.context.Isolated c.deeds

/-- A pass behind the first one leaves modules isolated, if it may be started. -/
theorem Apart.passing {c : Noted Compilation} (h : Apart c) {target p : Phase} {pass : Pass}
    {activity : String} {v : Module → Visitor Context} (hv : ∀ m, Filling (v m))
    (hlocal : ∀ m, Local (v m)) (hi : ∀ m, (v m).importing = nextModule target)
    (ht : target.previous? = some p) (hp : Phase.parsed ≤ p) (hl : c.state.context.Linked)
    {key : String} (hle : p ≤ c.state.context.phase key) :
    Apart (notebook.andThen (traversal target pass activity v) pass key c) := by
  rcases notebook.andThen_cases (traversal target pass activity v) pass key c with he | ⟨d, rfl, he⟩
  · rw [he]
    exact h
  · have hobeys : (traversal target pass activity v).Obeys
        (Context.passing target p c.state.context) := obeys_passing hv hi ht hp _
    have hready : ((Context.passing target p c.state.context).noted
        fun W c => c.Isolated W).Ready [] key (c.put c.state.context) := ⟨ready_passing hl hle, h⟩
    have hrun := (hobeys.noted (notes_passing hv hlocal hi ht hp _)).runWithin
      (c.state.context.modules.length + 1) hready (by simp [Discipline.noted, Context.passing])
    rw [he]
    exact hrun.1.2

/-- Modules stay isolated along a check. -/
private theorem keeps_apart (hclosed : l.Closed needed) :
    notebook.Keeps l needed roots Apart where
  put h hd _ := h.same hd.shelters hd.symbols
  collect {key c} h hready := by
    have hready' : ((collecting l needed roots).noted
        fun W c => c.context.Isolated W).Ready [] key c := ⟨hready, h⟩
    exact (((obeys_collecting hclosed).noted (notes_collecting hclosed)).runWithin _ hready'
      (limit_le hready)).1.2
  resolve h hl hle :=
    h.passing filling_resolver local_resolver (fun _ => rfl) rfl (by decide) hl hle
  typecheck h hl hle :=
    h.passing filling_checker local_checker (fun _ => rfl) rfl (by decide) hl hle

/-- Behind any checks modules are isolated. -/
theorem isolated_checkAll (l : Loader) (entries : List Path) :
    ∃ W, (checkAll entries (new l)).context.Isolated W := by
  have hclosed : l.Closed fun _ => True := fun _ _ _ _ => trivial
  have hstart : Apart (.start (new l)) := isolated_initial
  have h : (notebook.checkAll entries (.start (new l))).state.context.Isolated _ :=
    (keeps_apart hclosed).checkAll hstart (settled_new l (fun _ => True) fun _ => True)
      hclosed (fun _ => trivial) (fun _ => trivial) entries
  have hstate : (notebook.checkAll entries (.start (new l))).state = checkAll entries (new l) :=
    notebook.whole_checkAll entries (.start (new l))
  rw [hstate] at h
  exact ⟨_, h⟩

/--
After any checks of any files, the builtin scopes hold the names that they held at first, with the
types that these had. Every other scope lies in the tree of one registered module and of no other
one, so a name that is looked up from there is never that of another module. No name has come or
changed but by the visits that are noted, and a visit on the walk over the statements of a module
has left all names outside the tree of that module alone.
-/
theorem checkAll_isolated (l : Loader) (entries : List Path) :
    ∃ deeds, notebook.checkAll entries (.start (new l)) = ⟨checkAll entries (new l), deeds⟩ ∧
      (∀ s, Builtin s → (checkAll entries (new l)).context.scopes.symbols s =
        initial.scopes.symbols s) ∧
      (∀ s, ¬ Builtin s → s < (checkAll entries (new l)).context.scopes.size →
        ∃ m ∈ (checkAll entries (new l)).context.modules,
          (checkAll entries (new l)).context.LiesIn s m) ∧
      Deed.Trail initial.scopes deeds (checkAll entries (new l)).context.scopes ∧
      ∀ x ∈ deeds, ∃ m ∈ (checkAll entries (new l)).context.modules,
        m.key = x.key ∧ x.StaysIn m.root := by
  have hclosed : l.Closed fun _ => True := fun _ _ _ _ => trivial
  have hnew := settled_new l (fun _ => True) fun _ => True
  have hl := (hnew.checkAll hclosed (fun _ => trivial) (fun _ => trivial) entries).linked
  have hstart : Apart (.start (new l)) := isolated_initial
  have h : Apart (notebook.checkAll entries (.start (new l))) :=
    (keeps_apart hclosed).checkAll hstart hnew hclosed (fun _ => trivial) (fun _ => trivial) entries
  have hstate := notebook.whole_checkAll entries (.start (new l))
  generalize notebook.checkAll entries (.start (new l)) = t at h hstate ⊢
  obtain ⟨d, deeds⟩ := t
  obtain rfl : d = checkAll entries (new l) := hstate
  refine ⟨deeds, rfl, h.builtin, fun s hs hsize => ?_, h.trail, fun x hx => ?_⟩
  · rw [builtin_iff, not_lt] at hs
    obtain ⟨m, hm⟩ := h.housed s hs hsize
    obtain ⟨m', hm', -, hroot, -⟩ := hm.exists_mem
    exact ⟨m', hm', hl.liesIn hm' hroot⟩
  · obtain ⟨m, hm, hkey, hstays⟩ := h.confined x hx
    obtain ⟨m', hm', hkey', hroot, -⟩ := hm.exists_mem
    exact ⟨m', hm', hkey'.trans hkey, hroot.symm ▸ hstays⟩

end Sable.Compilation
