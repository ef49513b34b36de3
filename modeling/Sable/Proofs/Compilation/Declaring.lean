import Sable.Context.Collection
import Sable.Proofs.Context.Sparing
import Sable.Proofs.Scope.Typed

/-!
# Declarations of a module

What collection declares for a module lies in the tree of the module: a name is declared in a
scope of the tree, and the scope of its members is opened inside that scope. The one place
where a declaration is made elsewhere than where it is written is a method, and its receiver
cannot name a builtin type; so methods stay in the tree as well.
-/

namespace Sable.Compilation

open Context

/-- A compilation that another one can turn into by declaring names in the tree of a module. -/
structure Fills (m : Module) (c d : Compilation) : Prop where
  /-- The context is filled. -/
  context : c.context.Fills d.context
  /-- No file is read. -/
  loader : d.loader = c.loader
  /-- Outside the tree nothing is declared. -/
  outside : ∀ t, m.root ∉ d.context.scopes.chain t →
    d.context.scopes.symbols t = c.context.scopes.symbols t
  /-- Outside the tree no scope is opened. -/
  opened : ∀ t : Nat, c.context.scopes.size ≤ t → t < d.context.scopes.size →
    m.root ∈ d.context.scopes.chain t
  /-- No name is given a type. -/
  types : ∀ t name, d.context.scopes.typeOf? t name = c.context.scopes.typeOf? t name

variable {c d e : Compilation} {m : Module} {s : ScopeId}

theorem Fills.refl (m : Module) (c : Compilation) : c.Fills m c :=
  ⟨Context.Fills.refl _, rfl, fun _ _ => rfl, fun _ ht ht' => absurd ht' ht.not_gt, fun _ _ => rfl⟩

theorem Fills.trans (hl : c.context.Linked) (h : c.Fills m d) (h' : d.Fills m e) :
    c.Fills m e where
  context := h.context.trans h'.context
  loader := h'.loader.trans h.loader
  outside t htree := by
    have hsound := (h.context.linked hl).scopes
    have htree' := fun hmem => htree (h'.context.scopes.mem_chain hsound hmem)
    rw [h'.outside t htree, h.outside t htree']
  opened t ht ht' := by
    by_cases hlt : t < d.context.scopes.size
    · exact h'.context.scopes.mem_chain (h.context.linked hl).scopes (h.opened t ht hlt)
    · exact h'.opened t (by omega) ht'
  types t name := (h'.types t name).trans (h.types t name)

theorem Fills.encloses (h : c.Fills m d) (hl : c.context.Linked) (hs : c.context.Encloses m s) :
    d.context.Encloses m s := hs.later (h.context.toExtends hl)

/-- What is declared for a module whose walk is open is declared in no finished tree. -/
theorem Fills.spares (h : c.Fills m d) (hl : c.context.Linked) (hm : c.context.Knows m)
    (hp : c.context.phase m.key = .parsed) : c.context.Spares d.context :=
  spares_of_outside hl hm hp fun t ht htree => by
    rw [← h.context.scopes.chain_eq hl.scopes ht] at htree
    rw [ScopeForest.declarations, h.outside t htree, ScopeForest.declarations]

theorem fills_reportIn (c : Compilation) (m : Module) (span : Span) (message : String) :
    c.Fills m (c.reportIn m span message) :=
  ⟨Context.fills_reportIn .., rfl, fun _ _ => rfl, fun _ ht ht' => absurd ht' ht.not_gt,
    fun _ _ => rfl⟩

/-- What comes of opening a scope in the tree of a module, inside its outermost scope. -/
def Opens (c : Compilation) (m : Module) (r : Option ScopeId × Compilation) : Prop :=
  c.Fills m r.2 ∧ ∀ t ∈ r.1, r.2.context.Encloses m t ∧ t ≠ m.root

/-- What is declared in an opened scope leaves it open. -/
theorem opens_then (hl : c.context.Linked) {r : Option ScopeId × Compilation}
    {f : ScopeId → Compilation → Compilation}
    (hf : ∀ {t} {d : Compilation}, d.context.Linked → d.context.Encloses m t → d.Fills m (f t d)) :
    c.Opens m r → c.Opens m (match r with
      | (none, d) => (none, d)
      | (some t, d) => (some t, f t d)) := by
  intro h
  obtain ⟨_ | t, d⟩ := r
  · exact h
  · obtain ⟨ht, hne⟩ := h.2 t rfl
    have hl' := h.1.context.linked hl
    have hfill := hf hl' ht
    refine ⟨h.1.trans hl hfill, ?_⟩
    rintro inner ⟨rfl⟩
    exact ⟨hfill.encloses hl' ht, hne⟩

/-- A name is declared in the tree of a module, and its members lie in the tree. -/
theorem declare_opens (hl : c.context.Linked) (hs : c.context.Encloses m s) (kind : SymbolKind)
    (name : Ident) : c.Opens m (c.declare m s kind name) := by
  unfold declare
  split
  · exact ⟨fills_reportIn .., by simp⟩
  · cases hdeclare : c.context.scopes.declare s name kind none with
    | error e => exact ⟨fills_reportIn .., by simp⟩
    | ok r =>
      obtain ⟨members?, F⟩ := r
      have hzero := ScopeForest.ne_zero_of_mem_chain hl.scopes (hs.root hl) hs.2
      obtain ⟨hF, hmembers⟩ := ScopeForest.grows_declare
        (ScopeForest.lt_size_of_mem_chain hs.2) (fun h => absurd h hzero) hdeclare
      have hchain := hF.mem_chain hl.scopes hs.2
      have hinside : ∀ t ∈ members?, m.root ∈ F.chain t := fun t ht =>
        ScopeForest.mem_chain_of_parent? (hF.sound hl.scopes) hchain (hmembers t ht)
      have hfills : c.Fills m (c.update fun ctx => { ctx with scopes := F }) := by
        refine ⟨⟨hF, rfl, rfl, [], by simp [update], by simp⟩, rfl, fun t htree => ?_,
          fun t ht ht' => hinside t (ScopeForest.members?_of_size_le hdeclare ht ht'),
          ScopeForest.typeOf?_declare hdeclare⟩
        have hne : t ≠ s := by
          rintro rfl
          exact htree hchain
        exact ScopeForest.symbols_declare hdeclare hne
      refine ⟨hfills, fun t ht => ⟨⟨(hfills.encloses hl hs).1, hinside t ht⟩, ?_⟩⟩
      -- The scope around an outermost scope is in no tree.
      rintro rfl
      have hroot : F.parent? m.root = some 0 :=
        (hfills.encloses hl hs).root (hfills.context.linked hl)
      rw [hmembers _ ht, Option.some.injEq] at hroot
      exact hzero hroot

/-- Names are declared in the tree of a module. -/
theorem declareAll_fills (hl : c.context.Linked) (hs : c.context.Encloses m s)
    (kind : SymbolKind) (names : List Ident) : c.Fills m (declareAll m s kind names c) := by
  induction names generalizing c with
  | nil => exact Fills.refl m c
  | cons name names ih =>
    have hname := (declare_opens hl hs kind name).1
    exact hname.trans hl (ih (hname.context.linked hl) (hname.encloses hl hs))

/-- A type is declared in the tree of a module, with its fields. -/
theorem collectTypeDecl_fills (hl : c.context.Linked) (hs : c.context.Encloses m s)
    (d : TypeDecl) : c.Fills m (collectTypeDecl m s d c) := by
  have h := declare_opens hl hs .type d.name
  unfold collectTypeDecl
  generalize c.declare m s .type d.name = r at h ⊢
  obtain ⟨_ | members, e⟩ := r
  · exact h.1
  · dsimp only
    split
    · have hl' := h.1.context.linked hl
      exact h.1.trans hl (declareAll_fills hl' (h.2 members rfl).1 ..)
    · exact h.1

/-- A function is declared in the tree of a module, with its parameters. -/
theorem collectFunction_opens (hl : c.context.Linked) (hs : c.context.Encloses m s)
    (name : Ident) (params : List Param) : c.Opens m (collectFunction m s name params c) :=
  opens_then hl (fun hl hs => declareAll_fills hl hs ..) (declare_opens hl hs .func name)

/-- A receiver that names no builtin type has its members in the tree that it is seen from. -/
theorem receiverMembers_mem_chain {F : ScopeForest} (hF : F.Sound) {r : ScopeId}
    (hroot : F.parent? r = some 0) (hs : r ∈ F.chain s) {receiver : Param}
    (hr : receiver.ty.NamesNoBuiltin) {members : ScopeId}
    (h : receiverMembers F s receiver = .ok members) : r ∈ F.chain members := by
  unfold receiverMembers at h
  split at h
  · next name hty =>
    cases hx : F.visible? s name.name with
    | none => simp [hx] at h
    | some x =>
      simp only [hx] at h
      split at h
      · cases ht : x.members? with
        | none => simp [ht] at h
        | some t =>
          simp only [ht, Except.ok.injEq] at h
          subst h
          exact ScopeForest.visibleMembers_mem hF hroot hs (hr name hty) hx ht
      · cases h
  · cases h

/-- So the module of the tree holds them. -/
theorem receiverMembers_mem (hl : c.context.Linked) (hs : c.context.Encloses m s)
    {receiver : Param} (hr : receiver.ty.NamesNoBuiltin) {members : ScopeId}
    (h : receiverMembers c.context.scopes s receiver = .ok members) :
    c.context.Encloses m members :=
  ⟨hs.1, receiverMembers_mem_chain hl.scopes (hs.root hl) hs.2 hr h⟩

/-- A method is declared in the tree of a module, with its receiver. -/
theorem declareMethod_opens (hl : c.context.Linked) (hs : c.context.Encloses m s)
    {receiver : Param} (hr : receiver.ty.NamesNoBuiltin) (name : Ident) :
    c.Opens m (declareMethod m s receiver name c) := by
  unfold declareMethod
  split
  · exact ⟨fills_reportIn .., by simp⟩
  · next members hmembers =>
    exact opens_then hl (fun hl hs => (declare_opens hl hs .var receiver.name).1)
      (declare_opens hl (receiverMembers_mem hl hs hr hmembers) .method name)

/-- A method is declared in the tree of a module, with its receiver and its parameters. -/
theorem collectMethod_opens (hl : c.context.Linked) (hs : c.context.Encloses m s)
    {receiver : Param} (hr : receiver.ty.NamesNoBuiltin) (name : Ident) (params : List Param) :
    c.Opens m (collectMethod m s receiver name params c) :=
  opens_then hl (fun hl hs => declareAll_fills hl hs ..) (declareMethod_opens hl hs hr name)

end Sable.Compilation
