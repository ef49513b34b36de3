import Sable.Proofs.Context.Histories

/-!
# Initial values

Type checking comes to each initial value once and compares it with the type of its variable, as
far as both have a type by then. A type that is known never changes. So at the end a value fits
its variable, unless it is reported; or its type became known too late, because it is the type
of a variable without an annotation whose own initial value is looked at only afterwards.
-/

namespace Sable

/-- An initial value of a variable that a module declares in a scope. -/
structure InitialValue where
  /-- The key of the module. -/
  key : String
  /-- The scope of the declaration. -/
  scope : ScopeId
  /-- The variable. -/
  target : VarBinder
  /-- The value. -/
  value : Expr

/-- The initial values that are looked at on a visit. -/
def Visit.initialValues (key : String) : Visit → List InitialValue
  | .stop s (.declared targets values) =>
    (targets.zip values).map fun (target, value) => ⟨key, s, target, value⟩
  | _ => []

/-- The initial values that are looked at, according to a log. -/
def Entry.initialValues (W : List Entry) : List InitialValue :=
  W.flatMap fun
    | visited m v => v.initialValues m.key
    | closed _ => []

@[simp] theorem Entry.initialValues_append (W K : List Entry) :
    initialValues (W ++ K) = initialValues W ++ initialValues K := List.flatMap_append

@[simp] theorem Entry.initialValues_visited (m : Module) (v : Visit) :
    initialValues [visited m v] = v.initialValues m.key := List.flatMap_singleton ..

@[simp] theorem Entry.initialValues_closed (m : Module) : initialValues [closed m] = [] := rfl

theorem Visit.key_of_mem_initialValues {key : String} {v : Visit} {a : InitialValue}
    (h : a ∈ v.initialValues key) : a.key = key := by
  unfold initialValues at h
  split at h
  · obtain ⟨_, -, rfl⟩ := List.mem_map.mp h
    rfl
  · cases h

/-- The initial values of one module are those of the visits that belong to it. -/
theorem Entry.filter_initialValues (key : String) (W : List Entry) :
    (initialValues W).filter (fun a => a.key = key) =
      (visitsOf key W).flatMap (Visit.initialValues key) := by
  induction W with
  | nil => rfl
  | cons x W ih =>
    rw [← List.singleton_append, initialValues_append, List.filter_append, ih, visitsOf_append,
      List.flatMap_append]
    refine congrArg (· ++ _) ?_
    cases x with
    | closed m => rfl
    | visited m v =>
      rw [initialValues_visited]
      by_cases hkey : m.key = key
      · subst hkey
        rw [visitsOf_visited, List.flatMap_singleton, List.filter_eq_self]
        exact fun a ha => decide_eq_true (Visit.key_of_mem_initialValues ha)
      · have hnil : visitsOf key [visited m v] = [] := by simp [visitsOf, hkey]
        rw [hnil, List.flatMap_nil, List.filter_eq_nil_iff]
        intro a ha
        simpa [Visit.key_of_mem_initialValues ha] using hkey

namespace ScopeForest

/-- The type of a literal. -/
private def literalType? : Expr → Option Ty
  | .literal value _ => some value.ty
  | _ => none

/-- The scope and the name of the declaration that an expression stands for, if it is a name. -/
def referent? (F : ScopeForest) (s : ScopeId) : Expr → Option (ScopeId × String)
  | .ident name => (F.locate? s name.name).map fun x => (x.1, name.name)
  | .qualified module name _ =>
    (F.visibleImport? s module.name).map fun i => (i.root, name.name)
  | .function f => some (s, f.name.name)
  | _ => none

variable {F G : ScopeForest} {s t : ScopeId} {name : String} {e : Expr}

/-- What a name stands for does not depend on types. -/
theorem referent?_congr (h : G.untyped = F.untyped) (s : ScopeId) (e : Expr) :
    G.referent? s e = F.referent? s e := by
  have huntyped : ∀ H : ScopeForest, H.untyped.referent? s e = H.referent? s e := by
    intro H
    cases e with
    | ident name =>
      simp only [referent?, locate?_untyped]
      cases H.locate? s name.name <;> rfl
    | qualified module name span => simp only [referent?, visibleImport?_untyped]
    | _ => rfl
  rw [← huntyped, h, huntyped]

/-- A name has the type of the declaration that it stands for. -/
theorem infer_of_referent? (h : F.referent? s e = some (t, name)) :
    Context.infer F s e = F.typeOf? t name := by
  cases e with
  | ident x =>
    obtain ⟨⟨u, y⟩, hlocate, he⟩ := Option.map_eq_some_iff.mp h
    obtain ⟨rfl, rfl⟩ := Prod.mk.inj he
    obtain ⟨t, -, hfind⟩ := List.exists_of_findSome?_eq_some hlocate
    obtain ⟨z, hz, he⟩ := Option.map_eq_some_iff.mp hfind
    obtain ⟨rfl, rfl⟩ := Prod.mk.inj he
    simp only [Context.infer, visible?, hlocate, Option.map_some, Option.bind_some, typeOf?, hz]
  | qualified module x span =>
    obtain ⟨i, hi, he⟩ := Option.map_eq_some_iff.mp h
    obtain ⟨rfl, rfl⟩ := Prod.mk.inj he
    simp only [Context.infer, importedRoot, hi, typeOf?]
  | function f =>
    obtain ⟨rfl, rfl⟩ := Prod.mk.inj (Option.some.inj h)
    rfl
  | _ => cases h

/-- An expression that is no name has a type that no table decides. -/
private theorem infer_of_referent?_none (h : F.referent? s e = none) :
    Context.infer F s e = literalType? e := by
  cases e with
  | ident x =>
    simp only [Context.infer, visible?, Option.map_eq_none_iff.mp h, Option.map_none,
      Option.bind_none, literalType?]
  | qualified module x span =>
    simp only [Context.infer, importedRoot, Option.map_eq_none_iff.mp h, literalType?]
  | function f => cases h
  | _ => rfl

/-- A type that an expression has come to have was given to the declaration it stands for. -/
theorem infer_later (h : G.untyped = F.untyped) {u : Ty} (hu : Context.infer G s e = some u) :
    Context.infer F s e = some u ∨ ∃ t name, F.referent? s e = some (t, name) ∧
      G.typeOf? t name = some u ∧ F.typeOf? t name ≠ some u := by
  cases href : F.referent? s e with
  | none =>
    rw [infer_of_referent?_none ((referent?_congr h s e).trans href)] at hu
    exact Or.inl ((infer_of_referent?_none href).trans hu)
  | some x =>
    obtain ⟨t, name⟩ := x
    rw [infer_of_referent? ((referent?_congr h s e).trans href)] at hu
    by_cases hsame : F.typeOf? t name = some u
    · exact Or.inl ((infer_of_referent? href).trans hsame)
    · exact Or.inr ⟨t, name, rfl, hu, hsame⟩

end ScopeForest

namespace Context

/-- A value takes its type from a variable without an annotation that is looked at later. -/
def Late (F : ScopeForest) (later : List InitialValue) (s : ScopeId) (e : Expr) : Prop :=
  ∃ b ∈ later, b.target.ty? = none ∧ F.binds b.scope b.target.name = true ∧
    F.referent? s e = some (b.scope, b.target.name.name)

theorem Late.mono {F : ScopeForest} {later later' : List InitialValue} {s : ScopeId} {e : Expr}
    (h : Late F later s e) (hsub : later ⊆ later') : Late F later' s e :=
  h.imp fun _ hb => ⟨hsub hb.1, hb.2⟩

theorem Late.congr {F G : ScopeForest} {later : List InitialValue} {s : ScopeId} {e : Expr}
    (h : Late F later s e) (hG : G.untyped = F.untyped) : Late G later s e := by
  obtain ⟨b, hb, hwritten, hbinds, href⟩ := h
  exact ⟨b, hb, hwritten, (ScopeForest.binds_congr hG ..).trans hbinds,
    (ScopeForest.referent?_congr hG ..).trans href⟩

/-- A state that type checking comes to from another one, with the values it has looked at. -/
inductive Checks (c₀ : Context) : List InitialValue → Context → Prop
  /-- Nothing has happened. -/
  | start : Checks c₀ [] c₀
  /-- The walk over a module is closed. -/
  | lead {W : List InitialValue} {c : Context} {m : Module} :
    Checks c₀ W c → c.Knows m → c.phase m.key = .resolved →
    Checks c₀ W (c.setPhase m.key .typechecked)
  /-- An initial value is looked at in a module that is being walked. -/
  | value {W : List InitialValue} {c : Context} {m : Module} {s : ScopeId} {target : VarBinder}
      {value : Expr} :
    Checks c₀ W c → c.Encloses m s → c.phase m.key = .resolved →
    Checks c₀ (W ++ [⟨m.key, s, target, value⟩]) (c.checkTarget m s target value)

variable {c₀ c d : Context} {m : Module} {s t : ScopeId} {name : String} {W : List InitialValue}

/-! ### One initial value -/

/-- Looking at an initial value gives a type to no name but to a variable that has none. -/
theorem typeOf?_checkTarget (c : Context) (m : Module) (s : ScopeId) (target : VarBinder)
    (value : Expr) (t : ScopeId) (name : String) :
    (c.checkTarget m s target value).scopes.typeOf? t name = c.scopes.typeOf? t name ∨
      (c.scopes.typeOf? t name = none ∧ t = s ∧ name = target.name.name ∧ target.ty? = none ∧
        c.scopes.binds s target.name = true) := by
  unfold checkTarget
  split
  · next hbinds =>
    split
    · exact Or.inl rfl
    · next u _ =>
      split
      · next hnone =>
        split
        · next hwritten =>
          by_cases hsame : t = s ∧ name = target.name.name
          · obtain ⟨rfl, rfl⟩ := hsame
            exact Or.inr ⟨hnone, rfl, rfl, Option.isNone_iff_eq_none.mp hwritten, hbinds⟩
          · exact Or.inl (ScopeForest.typeOf?_setType_of_ne u hsame)
        · exact Or.inl rfl
      · split
        · exact Or.inl rfl
        · exact Or.inl rfl
  · exact Or.inl rfl

/-- A type that is known does not change. -/
theorem typeOf?_checkTarget_of_some {target : VarBinder} {value : Expr} {u : Ty}
    (h : c.scopes.typeOf? t name = some u) :
    (c.checkTarget m s target value).scopes.typeOf? t name = some u := by
  rcases typeOf?_checkTarget c m s target value t name with hsame | ⟨hnone, -⟩
  · exact hsame.trans h
  · rw [h] at hnone
    cases hnone

/-- A value whose type is known fits its variable, or is reported. -/
theorem accepts_of_checkTarget {target : VarBinder} {value : Expr} {expected u : Ty}
    (hbinds : c.scopes.binds s target.name = true)
    (hexpected : c.scopes.typeOf? s target.name.name = some expected)
    (hu : infer c.scopes s value = some u)
    (hclean : (c.checkTarget m s target value).diagnostics.hasErrors = false) :
    expected.accepts u = true := by
  by_contra hnot
  have hreport : c.checkTarget m s target value = c.reportIn m .typechecking value.span
      (mismatchMessage u target.name.name expected) := by
    unfold ScopeForest.typeOf? at hexpected
    simp only [checkTarget, hbinds, hu, hexpected, if_neg hnot, ↓reduceIte]
  rw [hreport] at hclean
  simp [reportIn, report, Diagnostics.hasErrors, Severity.isError] at hclean

/-! ### Runs of type checking -/

/-- An element of a list with one more element is that element, or stands before it. -/
private theorem append_singleton_cases {α : Type} {xs before after : List α} {x a : α}
    (h : xs ++ [x] = before ++ a :: after) :
    (a = x ∧ after = []) ∨ ∃ rest, after = rest ++ [x] ∧ xs = before ++ a :: rest := by
  rcases List.eq_nil_or_concat' after with rfl | ⟨rest, y, rfl⟩
  · obtain ⟨-, hx⟩ := List.append_inj' h rfl
    exact Or.inl ⟨(List.singleton_inj.mp hx).symm, rfl⟩
  · rw [← List.cons_append, ← List.append_assoc] at h
    obtain ⟨hxs, hx⟩ := List.append_inj' h rfl
    exact Or.inr ⟨rest, by rw [List.singleton_inj.mp hx], hxs⟩

namespace Checks

/-- From the beginning of a run to its end, only what the pass may do is done. -/
theorem leads (h : Checks c₀ W c) : c₀.Leads .typechecked c := by
  induction h with
  | start => exact Leads.refl _ _
  | lead _ hm hphase ih =>
    obtain ⟨q, -, hmod⟩ := hm
    rw [phase_of_module? hmod] at hphase
    exact ih.trans (leads_setPhase hmod (hphase ▸ rfl))
  | value _ _ _ ih => exact ih.trans (types_checkTarget ..).leads

/-- A type that is known does not change. -/
theorem typeOf?_eq (h : Checks c₀ W c) {u : Ty} (hu : c₀.scopes.typeOf? t name = some u) :
    c.scopes.typeOf? t name = some u := by
  induction h with
  | start => exact hu
  | lead _ _ _ ih => rwa [scopes_setPhase]
  | value _ _ _ ih => exact typeOf?_checkTarget_of_some ih

/-- A name that is given a type lies in the tree of a module that has been walked. -/
theorem encloses_of_typeOf? (h : Checks c₀ W c) (hl : c₀.Linked)
    (ht : (c.scopes.typeOf? t name).isSome) :
    (c₀.scopes.typeOf? t name).isSome ∨ ∃ m, c.Encloses m t ∧ Phase.resolved ≤ c.phase m.key := by
  induction h with
  | start => exact Or.inl ht
  | @lead W c m hrun hm hphase ih =>
    rw [scopes_setPhase] at ht
    obtain ⟨q, -, hmod⟩ := hm
    rw [phase_of_module? hmod] at hphase
    have hlead : c.Leads .typechecked _ := leads_setPhase hmod (hphase ▸ rfl)
    refine (ih ht).imp_right ?_
    rintro ⟨m', hm', hle⟩
    exact ⟨m', hm'.later (hlead.toExtends (hrun.leads.linked hl)), hle.trans (hlead.phase_le _)⟩
  | @value W c m s target value hrun hs hphase ih =>
    have htypes := types_checkTarget m s c target value
    have hext := htypes.toExtends (hrun.leads.linked hl)
    rcases typeOf?_checkTarget c m s target value t name with hsame | ⟨-, rfl, -⟩
    · rw [hsame] at ht
      refine (ih ht).imp_right ?_
      rintro ⟨m', hm', hle⟩
      exact ⟨m', hm'.later hext, hle.trans (hext.phase_le _)⟩
    · exact Or.inr ⟨m, hs.later hext, hphase.ge.trans (hext.phase_le _)⟩

/--
If nothing is reported, the initial value of a variable whose type was known at the beginning
fits this type, unless its own type became known too late.
-/
theorem fits (h : Checks c₀ W c) (hclean : c.diagnostics.hasErrors = false)
    {before after : List InitialValue} {a : InitialValue} (hW : W = before ++ a :: after)
    (hbinds : c.scopes.binds a.scope a.target.name = true) {expected u : Ty}
    (hexpected : c₀.scopes.typeOf? a.scope a.target.name.name = some expected)
    (hu : infer c.scopes a.scope a.value = some u) :
    expected.accepts u = true ∨ Late c.scopes after a.scope a.value := by
  induction h generalizing before after with
  | start => simp at hW
  | @lead W c m _ hm hphase ih =>
    obtain ⟨q, -, hmod⟩ := hm
    rw [phase_of_module? hmod] at hphase
    have hlead : c.Leads .typechecked _ := leads_setPhase hmod (hphase ▸ rfl)
    rw [scopes_setPhase] at hbinds hu ⊢
    exact ih (hlead.clean hclean) hW hbinds hu
  | @value W c m s target value hrun _ _ ih =>
    have htypes := types_checkTarget m s c target value
    have hclean' := (htypes.passes : c.Passes .typechecked _).clean hclean
    have hbinds' := (ScopeForest.binds_congr htypes.untyped ..).symm.trans hbinds
    have hlater := ScopeForest.infer_later htypes.untyped hu
    rcases append_singleton_cases hW with ⟨rfl, rfl⟩ | ⟨rest, rfl, hsplit⟩
    · -- The value is the one that is looked at last, so it makes no other type known.
      have hexpected' := hrun.typeOf?_eq hexpected
      refine Or.inl (accepts_of_checkTarget hbinds' hexpected' ?_ hclean)
      rcases hlater with hu | ⟨t, name, -, hu, hne⟩
      · exact hu
      · rcases typeOf?_checkTarget c m s target value t name with hsame | ⟨hnone, rfl, rfl, -⟩
        · exact absurd (hsame.symm.trans hu) hne
        · rw [hexpected'] at hnone
          cases hnone
    · rcases hlater with hu | ⟨t, name, href, hu, hne⟩
      · exact (ih hclean' hsplit hbinds' hu).imp_right fun hlate =>
          (hlate.congr htypes.untyped).mono (List.subset_append_left ..)
      · -- The value has its type from the variable that has just been looked at.
        rcases typeOf?_checkTarget c m s target value t name with
          hsame | ⟨-, rfl, rfl, hwritten, hb⟩
        · exact absurd (hsame.symm.trans hu) hne
        · exact Or.inr ⟨_, List.mem_append_right _ (List.mem_singleton_self _), hwritten,
            (ScopeForest.binds_congr htypes.untyped ..).trans hb,
            (ScopeForest.referent?_congr htypes.untyped ..).trans href⟩

/-- The initial values of a declaration are looked at one after the other. -/
theorem values (h : Checks c₀ W c) (hs : c.Encloses m s) (hphase : c.phase m.key = .resolved)
    (hl : c₀.Linked) (pairs : List (VarBinder × Expr)) :
    Checks c₀ (W ++ pairs.map fun pair => ⟨m.key, s, pair.1, pair.2⟩)
      (pairs.foldl (fun c pair => c.checkTarget m s pair.1 pair.2) c) := by
  induction pairs generalizing c W with
  | nil => simpa using h
  | cons pair pairs ih =>
    obtain ⟨target, value⟩ := pair
    have htypes := types_checkTarget m s c target value
    have hext := htypes.toExtends (h.leads.linked hl)
    have hnext := ih (h.value hs hphase) (hs.later hext)
      ((phase_congr htypes.modules _).trans hphase)
    rw [List.append_assoc] at hnext
    exact hnext

end Checks

/-- Each state that type checking comes to is the end of a run over the values in its log. -/
theorem checks_of_history {W : List Entry}
    (h : typing.History (passing .typechecked .resolved c₀) c₀ W c) :
    Checks c₀ (Entry.initialValues W) c := by
  induction h with
  | start => exact .start
  | @enter W c stack key _ hready ih =>
    have henter : c.enter key .typechecked .typechecking "type checking" =
        ((c.enter key .typechecked .typechecking "type checking").1,
          (c.enter key .typechecked .typechecking "type checking").2) := rfl
    obtain ⟨hsame, -⟩ := hready.1.enter_cases rfl (by decide) henter
    exact hsame.symm ▸ ih
  | @importing W _ _ _ _ _ _ _ _ _ ih =>
    rw [Entry.initialValues_append, Entry.initialValues_visited]
    exact (List.append_nil (Entry.initialValues W)).symm ▸ ih
  | @stop W c _ m s x _ hs _ ih =>
    rw [Entry.initialValues_append, Entry.initialValues_visited]
    cases x with
    | declared targets values =>
      have hphase := hs.1.walking.phases _ (List.mem_cons_self ..)
      exact ih.values hs.2.2 hphase hs.1.start (targets.zip values)
    | _ => exact (List.append_nil (Entry.initialValues W)).symm ▸ ih
  | @head W c _ m s hd _ _ _ _ ih =>
    have hsame : ((checker m).head s hd c).2 = c := by
      obtain ⟨_ | receiver, name, params, ret⟩ := hd <;> rfl
    rw [Entry.initialValues_append, Entry.initialValues_visited]
    exact hsame.symm ▸ (List.append_nil (Entry.initialValues W)).symm ▸ ih
  | close _ hs ih =>
    rw [Entry.initialValues_append, Entry.initialValues_closed, List.append_nil]
    exact ih.lead hs.2.2.1 (hs.1.walking.phases _ (List.mem_cons_self ..))

end Context

end Sable
