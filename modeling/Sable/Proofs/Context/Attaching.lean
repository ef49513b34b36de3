import Sable.Proofs.Context.Histories

/-!
# Attached types

Resolution gives types to names one after the other. Most of them come from the declaration that
the name is bound by: its annotation, its signature or its definition, with the meaning that they
have when resolution comes past. The one exception are members of declared types: the fields of
the struct type behind a definition are given to all members of that name, whichever declaration
they are bound by.
-/

namespace Sable

/-! ### Fields of struct types -/

namespace Ty

theorem mem_insertField {name : String} {t : Ty} {field : String × Ty}
    {fields : List (String × Ty)} (h : field ∈ insertField name t fields) :
    field = (name, t) ∨ field ∈ fields := by
  induction fields with
  | nil => exact Or.inl (List.mem_singleton.mp h)
  | cons other fields ih =>
    obtain ⟨otherName, otherTy⟩ := other
    rw [insertField] at h
    split at h
    · exact (List.mem_cons.mp h).imp_right (List.mem_cons_of_mem _)
    · split at h
      · exact List.mem_cons.mp h
      · rcases List.mem_cons.mp h with h | h
        · exact Or.inr (h ▸ List.mem_cons_self ..)
        · exact (ih h).imp_right (List.mem_cons_of_mem _)

/-- A struct type has no field but those that it is made of. -/
theorem mem_of_structOf {name name' : String} {fields fields' : List (String × Ty)}
    (h : structOf name fields = .struct name' fields') : fields' ⊆ fields := by
  have hfold : ∀ (fields acc : List (String × Ty)),
      fields.foldl (fun acc f => insertField f.1 f.2 acc) acc ⊆ acc ++ fields := by
    intro fields
    induction fields with
    | nil => simp
    | cons field fields ih =>
      intro acc x hx
      rcases List.mem_append.mp (ih _ hx) with hx | hx
      · rcases mem_insertField hx with rfl | hx
        · simp
        · exact List.mem_append_left _ hx
      · exact List.mem_append_right _ (List.mem_cons_of_mem _ hx)
  obtain ⟨-, rfl⟩ := Ty.struct.inj h
  exact hfold fields []

/-- The fields of a struct type have the types that their written types mean. -/
theorem exists_of_denoteFields {F : ScopeForest} {s : ScopeId} :
    ∀ {fields : List FieldDecl} {ts : List (String × Ty)}, denoteFields F s fields = .ok ts →
      ∀ {name t}, (name, t) ∈ ts →
        ∃ f ∈ fields, f.name.name = name ∧ denote F s anonymousStruct f.ty = .ok t
  | [], ts, h, name, t, ht => by
    obtain rfl := Except.ok.inj h
    cases ht
  | .mk field ty span :: fields, ts, h, name, t, ht => by
    rw [denoteFields] at h
    cases hty : denote F s anonymousStruct ty with
    | error e => simp [hty] at h
    | ok u =>
      cases hrest : denoteFields F s fields with
      | error e => simp [hty, hrest, Except.map] at h
      | ok us =>
        simp only [hty, hrest, Except.map, Except.ok.injEq] at h
        subst h
        rcases List.mem_cons.mp ht with he | ht
        · obtain ⟨rfl, rfl⟩ := Prod.mk.inj he
          exact ⟨_, List.mem_cons_self .., rfl, hty⟩
        · obtain ⟨f, hf, hname, hmeans⟩ := exists_of_denoteFields hrest ht
          exact ⟨f, List.mem_cons_of_mem _ hf, hname, hmeans⟩

/-- A declared type that is written as a struct type has the fields that are written in it. -/
theorem exists_of_ofTypeDecl {F : ScopeForest} {s : ScopeId} {name : String} {t : Ty}
    {fields : List FieldDecl} {span : Span} (h : ofTypeDecl F s name (.struct fields span) = .ok t)
    {structName : String} {ts : List (String × Ty)} (ht : t.unwrap = .struct structName ts)
    {field : String} {u : Ty} (hu : (field, u) ∈ ts) :
    ∃ f ∈ fields, f.name.name = field ∧ ofTypeExpr F s f.ty = .ok u := by
  simp only [ofTypeDecl, denote] at h
  cases hfields : denoteFields F s fields with
  | error e => simp [hfields, Except.map] at h
  | ok us =>
    simp only [hfields, Except.map, Except.ok.injEq] at h
    subst h
    exact exists_of_denoteFields hfields (mem_of_structOf ht hu)

end Ty

namespace ScopeForest

/-- The scope that declares the name behind a head: for a method, that of its type's members. -/
def holder? (F : ScopeForest) (s : ScopeId) (h : Head) : Option ScopeId :=
  match h.receiver? with
  | none => some s
  | some receiver => Context.methodScope F s receiver

theorem bodyOf?_eq (F : ScopeForest) (s : ScopeId) (h : Head) :
    F.bodyOf? s h = (F.holder? s h).bind fun u => F.declaredMembers? u h.name := by
  unfold bodyOf? holder?
  cases h.receiver? <;> rfl

theorem holder?_congr {F G : ScopeForest} (h : G.untyped = F.untyped) (s : ScopeId) (hd : Head) :
    G.holder? s hd = F.holder? s hd := by
  unfold holder?
  cases hd.receiver? with
  | none => rfl
  | some receiver =>
    dsimp only
    unfold Context.methodScope
    split
    · rw [← typeMembers?_untyped, h, typeMembers?_untyped]
    · rfl

theorem declaredMembers?_of_untyped {F G : ScopeForest} (h : G.untyped = F.untyped) (s : ScopeId)
    (name : Ident) : G.declaredMembers? s name = F.declaredMembers? s name := by
  rw [← declaredMembers?_untyped, h, declaredMembers?_untyped]

end ScopeForest

namespace Context

/-! ### What a declaration gives -/

/-- A written type has meant a type at one of some moments. -/
def Meant (M : List Context) (s : ScopeId) (ty : TypeExpr) (t : Ty) : Prop :=
  ∃ c ∈ M, Ty.ofTypeExpr c.scopes s ty = .ok t

/-- A type declaration has meant a type at one of some moments. -/
def Defined (M : List Context) (s : ScopeId) (D : TypeDecl) (t : Ty) : Prop :=
  ∃ c ∈ M, Ty.ofTypeDecl c.scopes s D.name.name D.ty = .ok t

/-- A signature has meant a function type, part by part. -/
inductive Signed (M : List Context) (s : ScopeId) (params : List Param) (ret : Option TypeExpr) :
    Ty → Prop
  | intro {ts : List Ty} {t? : Option Ty} :
    List.Forall₂ (fun p t => Meant M s p.ty t) params ts → Option.Rel (Meant M s) ret t? →
    Signed M s params ret (.function ts t?)

/-- A struct type states a field once, and the name of the field is bound by it. -/
def States (F : ScopeForest) (members : ScopeId) (ty : TypeExpr) (name : String) : Prop :=
  ∃ fields span, ty = .struct fields span ∧ ∃ f ∈ fields, f.name.name = name ∧
    (∀ g ∈ fields, g.name.name = name → g = f) ∧ F.binds members f.name = true

/-- The type of a name in a scope that its own declaration states, which stands in a scope. -/
inductive Owns (F : ScopeForest) (M : List Context) (s : ScopeId) :
    Step → ScopeId → String → Ty → Prop
  /-- The annotation of a variable or a constant. -/
  | target {isConst : Bool} {targets : List VarBinder} {values : List Expr} {span : Span}
      {target : VarBinder} {ty : TypeExpr} {t : Ty} :
    target ∈ targets → target.ty? = some ty → F.binds s target.name = true → Meant M s ty t →
    Owns F M s (.stop (.declaring isConst targets values span)) s target.name.name t
  /-- The written type of a parameter or a receiver. -/
  | parameter {h : Head} {ys : List Step} {body : ScopeId} {p : Param} {t : Ty} :
    F.bodyOf? s h = some body → p ∈ h.receiver?.toList ++ h.params →
    F.binds body p.name = true → Meant M s p.ty t → Owns F M s (.body h ys) body p.name.name t
  /-- The signature of a function or a method. -/
  | signature {h : Head} {ys : List Step} {u body : ScopeId} {t : Ty} :
    F.holder? s h = some u → F.declaredMembers? u h.name = some body →
    Signed M s h.params h.ret t → Owns F M s (.body h ys) u h.name.name t
  /-- The definition of a type. -/
  | definition {D : TypeDecl} {members : ScopeId} {t : Ty} :
    F.declaredMembers? s D.name = some members → Defined M s D t →
    Owns F M s (.stop (.typeDecl D)) s D.name.name t
  /-- The written type of a field. -/
  | field {D : TypeDecl} {members : ScopeId} {fields : List FieldDecl} {span : Span}
      {f : FieldDecl} {t : Ty} :
    F.declaredMembers? s D.name = some members → D.ty = .struct fields span → f ∈ fields →
    F.binds members f.name = true → Meant M s f.ty t →
    Owns F M s (.stop (.typeDecl D)) members f.name.name t

/--
A member of a declared type has a type that the struct type behind the definition has for a field
of that name, though the declaration of the type does not state it once and for this member.
-/
inductive Borrows (F : ScopeForest) (M : List Context) (s : ScopeId) :
    Step → ScopeId → String → Ty → Prop
  | intro {D : TypeDecl} {members : ScopeId} {structName name : String}
      {fields : List (String × Ty)} {t u : Ty} :
    F.declaredMembers? s D.name = some members → Defined M s D t →
    t.unwrap = .struct structName fields → (name, u) ∈ fields → ¬ States F members D.ty name →
    Borrows F M s (.stop (.typeDecl D)) members name u

/-- What a step of a script gives to a name. -/
def Attached (F : ScopeForest) (M : List Context) (s : ScopeId) (y : Step) (u : ScopeId)
    (name : String) (t : Ty) : Prop := Owns F M s y u name t ∨ Borrows F M s y u name t

/--
The moments of a run of resolution from a context over some modules, the last moment first.
-/
inductive Resolves (c₀ : Context) (P : Module → Prop) : List Context → Prop
  /-- Nothing has happened. -/
  | start : Resolves c₀ P [c₀]
  /-- A problem is reported. -/
  | report {c : Context} {M : List Context} {m : Module} (span : Span) (message : String) :
    Resolves c₀ P (c :: M) → P m →
    Resolves c₀ P (c.reportIn m .resolving span message :: c :: M)
  /-- The walk over a module is closed. -/
  | lead {c : Context} {M : List Context} {m : Module} :
    Resolves c₀ P (c :: M) → c.Knows m → c.phase m.key = .collected →
    Resolves c₀ P (c.setPhase m.key .resolved :: c :: M)
  /-- A name is given a type that a step in a module that is being walked gives to it. -/
  | give {c : Context} {M : List Context} {m : Module} {s u : ScopeId} {y : Step} {name : String}
      {t : Ty} :
    Resolves c₀ P (c :: M) → P m → c.Encloses m s → c.phase m.key = .collected →
    y.Occurs m.program.steps → Attached c.scopes (c :: M) s y u name t →
    Resolves c₀ P (c.setType u name t :: c :: M)

variable {c₀ c d e : Context} {P Q : Module → Prop} {m : Module} {s : ScopeId}
  {M N K : List Context}

/-- A run over some modules is one over more. -/
theorem Resolves.mono (h : Resolves c₀ P M) (hPQ : ∀ m, P m → Q m) : Resolves c₀ Q M := by
  induction h with
  | start => exact .start
  | report span message _ hp ih => exact .report span message ih (hPQ _ hp)
  | lead _ hm hphase ih => exact .lead ih hm hphase
  | give _ hp hs hphase hy ht ih => exact .give ih (hPQ _ hp) hs hphase hy ht

theorem Meant.mono {ty : TypeExpr} {t : Ty} (h : Meant M s ty t) (hsub : M ⊆ N) :
    Meant N s ty t := h.imp fun _ hc => ⟨hsub hc.1, hc.2⟩

theorem Defined.mono {D : TypeDecl} {t : Ty} (h : Defined M s D t) (hsub : M ⊆ N) :
    Defined N s D t := h.imp fun _ hc => ⟨hsub hc.1, hc.2⟩

/-! ### Moments of a visit -/

/-- A moment of a run at which a visit in a scope of a module is made. -/
structure Standing (c₀ : Context) (P : Module → Prop) (m : Module) (s : ScopeId) (c : Context)
    (M : List Context) : Prop where
  /-- The moments up to this one make a run. -/
  run : Resolves c₀ P (c :: M)
  /-- The module is one of the run. -/
  visited : P m
  /-- The scope lies in the tree of the module. -/
  here : c.Encloses m s
  /-- The walk over the module is open. -/
  phase : c.phase m.key = .collected

/-- A later moment of the same visit. -/
structure Passed (c₀ : Context) (P : Module → Prop) (m : Module) (s : ScopeId) (c : Context)
    (M : List Context) (d : Context) (N : List Context) : Prop where
  /-- The visit goes on. -/
  standing : Standing c₀ P m s d N
  /-- All moments before stay. -/
  later : c :: M <:+ d :: N
  /-- Only types change. -/
  untyped : d.scopes.untyped = c.scopes.untyped

theorem Passed.refl (h : Standing c₀ P m s c M) : Passed c₀ P m s c M c M :=
  ⟨h, List.suffix_rfl, rfl⟩

theorem Passed.trans (h : Passed c₀ P m s c M d N) (h' : Passed c₀ P m s d N e K) :
    Passed c₀ P m s c M e K :=
  ⟨h'.standing, h.later.trans h'.later, h'.untyped.trans h.untyped⟩

namespace Standing

theorem report (h : Standing c₀ P m s c M) (span : Span) (message : String) :
    Passed c₀ P m s c M (c.reportIn m .resolving span message) (c :: M) :=
  ⟨⟨.report span message h.run h.visited, h.visited, h.here, h.phase⟩, List.suffix_cons .., rfl⟩

theorem give (h : Standing c₀ P m s c M) {y : Step} (hy : y.Occurs m.program.steps) {u : ScopeId}
    {name : String} {t : Ty} (ht : Attached c.scopes (c :: M) s y u name t) :
    Passed c₀ P m s c M (c.setType u name t) (c :: M) := by
  have huntyped : (c.setType u name t).scopes.untyped = c.scopes.untyped :=
    ScopeForest.untyped_setType ..
  refine ⟨⟨.give h.run h.visited h.here h.phase hy ht, h.visited, ⟨h.here.1, ?_⟩, h.phase⟩,
    List.suffix_cons .., huntyped⟩
  exact (ScopeForest.chain_of_untyped huntyped s).symm ▸ h.here.2

/-- A name that the declaration at hand binds is given a type; otherwise nothing happens. -/
theorem giveDeclared (h : Standing c₀ P m s c M) {y : Step} (hy : y.Occurs m.program.steps)
    (u : ScopeId) (name : Ident) {t : Ty}
    (ht : c.scopes.binds u name = true → Attached c.scopes (c :: M) s y u name.name t) :
    ∃ N, Passed c₀ P m s c M (c.setDeclaredType u name t) N := by
  unfold setDeclaredType
  split
  · next hbinds => exact ⟨_, h.give hy (ht hbinds)⟩
  · exact ⟨M, .refl h⟩

/-- A written type means a type at this very moment, or a problem is reported. -/
theorem denoteIn (h : Standing c₀ P m s c M) (ty : TypeExpr) :
    ∃ N, Passed c₀ P m s c M (c.denoteIn m s ty).2 N ∧
      ∀ t ∈ (c.denoteIn m s ty).1, Meant ((c.denoteIn m s ty).2 :: N) s ty t := by
  unfold Context.denoteIn
  cases hty : Ty.ofTypeExpr c.scopes s ty with
  | ok t =>
    refine ⟨M, .refl h, ?_⟩
    rintro _ ⟨rfl⟩
    exact ⟨c, List.mem_cons_self .., hty⟩
  | error e => exact ⟨_, h.report .., nofun⟩

/-- A written type that means something is given to a name, if the name is bound as it says. -/
theorem denoteThenGive (h : Standing c₀ P m s c M) {y : Step} (hy : y.Occurs m.program.steps)
    (u : ScopeId) (name : Ident) (ty : TypeExpr)
    (ht : ∀ {N : List Context} {t : Ty} {d : Context}, d.scopes.untyped = c.scopes.untyped →
      d.scopes.binds u name = true → Meant (d :: N) s ty t →
        Attached d.scopes (d :: N) s y u name.name t) :
    ∃ N, Passed c₀ P m s c M (match c.denoteIn m s ty with
      | (some t, d) => d.setDeclaredType u name t
      | (none, d) => d) N := by
  obtain ⟨N, hpassed, hmeant⟩ := h.denoteIn ty
  generalize c.denoteIn m s ty = r at hpassed hmeant ⊢
  obtain ⟨_ | t, d⟩ := r
  · exact ⟨N, hpassed⟩
  · obtain ⟨K, hgiven⟩ := hpassed.standing.giveDeclared hy u name
      fun hbinds => ht hpassed.untyped hbinds (hmeant t rfl)
    exact ⟨K, hpassed.trans hgiven⟩

theorem resolveTargets (h : Standing c₀ P m s c M) {isConst : Bool} {all : List VarBinder}
    {values : List Expr} {span : Span}
    (hy : (Step.stop (.declaring isConst all values span)).Occurs m.program.steps) :
    ∀ targets ⊆ all, ∃ N, Passed c₀ P m s c M (c.resolveTargets m s targets) N := by
  intro targets
  induction targets generalizing c M with
  | nil => exact fun _ => ⟨M, .refl h⟩
  | cons target targets ih =>
    intro hsub
    obtain ⟨htarget, hrest⟩ := List.cons_subset.mp hsub
    have hfirst : ∃ N, Passed c₀ P m s c M (c.resolveTargets m s [target]) N := by
      unfold Context.resolveTargets
      rw [List.foldl_cons, List.foldl_nil]
      cases hty : target.ty? with
      | none => exact ⟨M, .refl h⟩
      | some ty =>
        exact h.denoteThenGive hy s target.name ty fun _ hbinds hmeant =>
          Or.inl (.target htarget hty hbinds hmeant)
    obtain ⟨N, hpassed⟩ := hfirst
    obtain ⟨K, hpassed'⟩ := ih hpassed.standing hrest
    exact ⟨K, hpassed.trans hpassed'⟩

/-- The fields of the struct type behind a definition are given to the members of that name. -/
theorem resolveFields (h : Standing c₀ P m s c M) {D : TypeDecl}
    (hy : (Step.stop (.typeDecl D)).Occurs m.program.steps) {members : ScopeId} {t : Ty}
    (hmembers : c.scopes.declaredMembers? s D.name = some members)
    (ht : Ty.ofTypeDecl c.scopes s D.name.name D.ty = .ok t) :
    ∃ N, Passed c₀ P m s c M (c.resolveFields members t) N := by
  unfold Context.resolveFields
  split
  · next structName all hunwrap =>
    have hfields : ∀ fields ⊆ all, ∀ {d : Context} {N : List Context}, Passed c₀ P m s c M d N →
        ∃ K, Passed c₀ P m s c M
          (fields.foldl (fun d f => d.setType members f.1 f.2) d) K := by
      intro fields
      induction fields with
      | nil => exact fun _ d N hd => ⟨N, hd⟩
      | cons field fields ih =>
        intro hsub d N hd
        obtain ⟨hfield, hrest⟩ := List.cons_subset.mp hsub
        obtain ⟨name, u⟩ := field
        have hc : c ∈ d :: N := hd.later.subset (List.mem_cons_self ..)
        have hmembers' : d.scopes.declaredMembers? s D.name = some members :=
          (ScopeForest.declaredMembers?_of_untyped hd.untyped ..).trans hmembers
        refine ih hrest (hd.trans (hd.standing.give hy ?_))
        by_cases hstates : States d.scopes members D.ty name
        · obtain ⟨stated, span, hD, f, hf, rfl, honly, hbinds⟩ := hstates
          rw [hD] at ht
          obtain ⟨g, hg, hgname, hmeans⟩ := Ty.exists_of_ofTypeDecl ht hunwrap hfield
          obtain rfl := honly g hg hgname
          exact Or.inl (.field hmembers' hD hf hbinds ⟨c, hc, hmeans⟩)
        · exact Or.inr (.intro hmembers' ⟨c, hc, ht⟩ hunwrap hfield hstates)
    exact hfields all (List.Subset.refl _) (.refl h)
  · exact ⟨M, .refl h⟩

theorem resolveTypeDecl (h : Standing c₀ P m s c M) {D : TypeDecl}
    (hy : (Step.stop (.typeDecl D)).Occurs m.program.steps) :
    ∃ N, Passed c₀ P m s c M (c.resolveTypeDecl m s D) N := by
  unfold Context.resolveTypeDecl
  split
  · exact ⟨M, .refl h⟩
  · next members hmembers =>
    cases ht : Ty.ofTypeDecl c.scopes s D.name.name D.ty with
    | ok t =>
      obtain ⟨N, hpassed⟩ := h.resolveFields hy hmembers ht
      have hc : c ∈ c.resolveFields members t :: N := hpassed.later.subset (List.mem_cons_self ..)
      have hmembers' : (c.resolveFields members t).scopes.declaredMembers? s D.name =
          some members := (ScopeForest.declaredMembers?_of_untyped hpassed.untyped ..).trans hmembers
      have hgiven := hpassed.standing.give hy (Or.inl (.definition hmembers' ⟨c, hc, ht⟩))
      exact ⟨_, hpassed.trans hgiven⟩
    | error e => exact ⟨_, h.report ..⟩

theorem resolveParams (h : Standing c₀ P m s c M) {hd : Head} {ys : List Step}
    (hy : (Step.body hd ys).Occurs m.program.steps) {body : ScopeId}
    (hbody : c.scopes.bodyOf? s hd = some body) :
    ∀ params ⊆ hd.params, ∃ N, Passed c₀ P m s c M (Context.resolveParams m s body params c).2 N ∧
      ∀ ts ∈ (Context.resolveParams m s body params c).1,
        List.Forall₂ (fun p t => Meant ((Context.resolveParams m s body params c).2 :: N) s p.ty t)
          params ts := by
  intro params
  induction params generalizing c M with
  | nil =>
    refine fun _ => ⟨M, .refl h, ?_⟩
    rintro _ ⟨rfl⟩
    exact .nil
  | cons p ps ih =>
    intro hsub
    obtain ⟨hp, hrest⟩ := List.cons_subset.mp hsub
    obtain ⟨N, hpassed, hmeant⟩ := h.denoteIn p.ty
    rw [Context.resolveParams]
    generalize c.denoteIn m s p.ty = r at hpassed hmeant ⊢
    obtain ⟨_ | t, d⟩ := r
    · have hbody' := (ScopeForest.bodyOf?_congr hpassed.untyped s hd).trans hbody
      obtain ⟨K, hpassed', -⟩ := ih hpassed.standing hbody' hrest
      exact ⟨K, hpassed.trans hpassed', fun _ h => by cases h⟩
    · have hbody' := (ScopeForest.bodyOf?_congr hpassed.untyped s hd).trans hbody
      obtain ⟨K, hgiven⟩ := hpassed.standing.giveDeclared (t := t) hy body p.name
        fun hbinds =>
          Or.inl (.parameter hbody' (List.mem_append_right _ hp) hbinds (hmeant t rfl))
      have hbody'' := (ScopeForest.bodyOf?_congr hgiven.untyped s hd).trans hbody'
      obtain ⟨L, hpassed', hmeant'⟩ := ih hgiven.standing hbody'' hrest
      refine ⟨L, hpassed.trans (hgiven.trans hpassed'), fun ts hts => ?_⟩
      obtain ⟨us, hus, rfl⟩ := Option.map_eq_some_iff.mp hts
      refine .cons ((hmeant t rfl).mono ?_) (hmeant' us hus)
      exact (hgiven.trans hpassed').later.subset

theorem resolveResult (h : Standing c₀ P m s c M) (ret : Option TypeExpr) :
    ∃ N, Passed c₀ P m s c M (c.resolveResult m s ret).2 N ∧
      ∀ t? ∈ (c.resolveResult m s ret).1,
        Option.Rel (Meant ((c.resolveResult m s ret).2 :: N) s) ret t? := by
  cases ret with
  | none =>
    refine ⟨M, .refl h, ?_⟩
    rintro _ ⟨rfl⟩
    exact .none
  | some ty =>
    obtain ⟨N, hpassed, hmeant⟩ := h.denoteIn ty
    refine ⟨N, hpassed, fun t? ht => ?_⟩
    rw [Context.resolveResult, Option.mem_def, Option.map_eq_some_iff] at ht
    obtain ⟨t, ht, rfl⟩ := ht
    exact .some (hmeant t ht)

theorem resolveSignature (h : Standing c₀ P m s c M) {hd : Head} {ys : List Step}
    (hy : (Step.body hd ys).Occurs m.program.steps) {body : ScopeId}
    (hbody : c.scopes.bodyOf? s hd = some body) :
    ∃ N, Passed c₀ P m s c M (c.resolveSignature m s body hd.params hd.ret).2 N ∧
      ∀ t ∈ (c.resolveSignature m s body hd.params hd.ret).1,
        Signed ((c.resolveSignature m s body hd.params hd.ret).2 :: N) s hd.params hd.ret t := by
  obtain ⟨N, hparams, hts⟩ := h.resolveParams hy hbody hd.params (List.Subset.refl _)
  obtain ⟨K, hresult, ht?⟩ := hparams.standing.resolveResult hd.ret
  have hpassed := hparams.trans hresult
  simp only [Context.resolveSignature]
  generalize Context.resolveParams m s body hd.params c = r at hts hresult ht? hpassed ⊢
  generalize r.2.resolveResult m s hd.ret = r' at hresult ht? hpassed ⊢
  obtain ⟨ts?, d⟩ := r
  obtain ⟨t??, e⟩ := r'
  dsimp only at hts hresult ht? hpassed ⊢
  split
  · next ts t? =>
    refine ⟨K, hpassed, ?_⟩
    rintro _ ⟨rfl⟩
    refine .intro ((hts ts rfl).imp fun p t hp => ?_) (ht? t? rfl)
    exact hp.mono hresult.later.subset
  · exact ⟨K, hpassed, fun _ h => by cases h⟩

/-- The name behind a head is given the type of its signature, if that means something. -/
private theorem setSignature (h : Standing c₀ P m s c M) {hd : Head} {ys : List Step}
    (hy : (Step.body hd ys).Occurs m.program.steps) {u body : ScopeId}
    (hu : c.scopes.holder? s hd = some u)
    (hbody : c.scopes.declaredMembers? u hd.name = some body) :
    ∃ N, Passed c₀ P m s c M
      ((c.resolveSignature m s body hd.params hd.ret).2.setSignature u hd.name
        (c.resolveSignature m s body hd.params hd.ret).1) N := by
  have hbody' : c.scopes.bodyOf? s hd = some body := by
    rw [ScopeForest.bodyOf?_eq, hu, Option.bind_some, hbody]
  obtain ⟨N, hpassed, hsigned⟩ := h.resolveSignature hy hbody'
  generalize c.resolveSignature m s body hd.params hd.ret = r at hpassed hsigned ⊢
  obtain ⟨_ | t, d⟩ := r
  · exact ⟨N, hpassed⟩
  · have hu' := (ScopeForest.holder?_congr hpassed.untyped s hd).trans hu
    have hbody'' := (ScopeForest.declaredMembers?_of_untyped hpassed.untyped u hd.name).trans hbody
    have hgiven := hpassed.standing.give hy (Or.inl (.signature hu' hbody'' (hsigned t rfl)))
    exact ⟨_, hpassed.trans hgiven⟩

theorem resolveHead (h : Standing c₀ P m s c M) {name : Ident} {params : List Param}
    {ret : Option TypeExpr} {ys : List Step}
    (hy : (Step.body ⟨none, name, params, ret⟩ ys).Occurs m.program.steps) :
    ∃ N, Passed c₀ P m s c M (c.resolveHead m s name params ret).2 N := by
  unfold Context.resolveHead
  split
  · exact ⟨M, .refl h⟩
  · next body hbody => exact h.setSignature hy rfl hbody

theorem resolveMethodHead (h : Standing c₀ P m s c M) {receiver : Param} {name : Ident}
    {params : List Param} {ret : Option TypeExpr} {ys : List Step}
    (hy : (Step.body ⟨some receiver, name, params, ret⟩ ys).Occurs m.program.steps) :
    ∃ N, Passed c₀ P m s c M (c.resolveMethodHead m s receiver name params ret).2 N := by
  unfold Context.resolveMethodHead
  split
  · next typeName hty =>
    split
    · exact ⟨M, .refl h⟩
    · next members hmembers =>
      split
      · exact ⟨M, .refl h⟩
      · next body hbody =>
        have hu : c.scopes.holder? s ⟨some receiver, name, params, ret⟩ = some members := by
          simp only [ScopeForest.holder?, methodScope, hty, hmembers]
        obtain ⟨N, hpassed⟩ := h.denoteThenGive hy body receiver.name receiver.ty
          fun {N t d} huntyped hbinds hmeant => by
            refine Or.inl (.parameter (p := receiver) ?_ (by simp) hbinds hmeant)
            rw [ScopeForest.bodyOf?_congr huntyped, ScopeForest.bodyOf?_eq, hu, Option.bind_some,
              hbody]
        have hu' := (ScopeForest.holder?_congr hpassed.untyped s _).trans hu
        have hbody' :=
          (ScopeForest.declaredMembers?_of_untyped hpassed.untyped members name).trans hbody
        obtain ⟨K, hpassed'⟩ := hpassed.standing.setSignature hy hu' hbody'
        exact ⟨K, hpassed.trans hpassed'⟩
  · exact ⟨M, .refl h⟩

theorem resolveArity (h : Standing c₀ P m s c M) (span : Span) (targets values : Nat) :
    ∃ N, Passed c₀ P m s c M (c.resolveArity m span targets values) N := by
  unfold Context.resolveArity
  split
  · exact ⟨M, .refl h⟩
  · exact ⟨_, h.report ..⟩

/-- A place that stays in its scope is visited. -/
theorem stop (h : Standing c₀ P m s c M) {x : Stop} (hy : (Step.stop x).Occurs m.program.steps) :
    ∃ N, Passed c₀ P m s c M ((resolver m).stop s x c) N := by
  cases x with
  | typeDecl D => exact h.resolveTypeDecl hy
  | declaring isConst targets values span =>
    obtain ⟨N, hpassed⟩ := h.resolveTargets hy targets (List.Subset.refl _)
    simp only [Visitor.stop, resolver]
    split
    · exact ⟨N, hpassed⟩
    · obtain ⟨K, hpassed'⟩ := hpassed.standing.resolveArity span targets.length values.length
      exact ⟨K, hpassed.trans hpassed'⟩
  | declared targets values => exact ⟨M, .refl h⟩
  | assigning targets values span => exact h.resolveArity ..
  | name name =>
    simp only [Visitor.stop, resolver, resolveName]
    split
    · exact ⟨M, .refl h⟩
    · exact ⟨_, h.report ..⟩
  | qualified module name =>
    simp only [Visitor.stop, resolver, resolveQualified]
    split
    · exact ⟨_, h.report ..⟩
    · split
      · exact ⟨M, .refl h⟩
      · exact ⟨_, h.report ..⟩

/-- The head of a function or a method is visited. -/
theorem head (h : Standing c₀ P m s c M) {hd : Head} {ys : List Step}
    (hy : (Step.body hd ys).Occurs m.program.steps) :
    ∃ N, Passed c₀ P m s c M ((resolver m).head s hd c).2 N := by
  obtain ⟨_ | receiver, name, params, ret⟩ := hd
  · exact h.resolveHead hy
  · exact h.resolveMethodHead hy

end Standing

/-! ### What has been given -/

theorem Signed.mono {params : List Param} {ret : Option TypeExpr} {t : Ty}
    (h : Signed M s params ret t) (hsub : M ⊆ N) : Signed N s params ret t := by
  obtain ⟨hparams, hret⟩ := h
  refine .intro (hparams.imp fun p t hp => hp.mono hsub) ?_
  cases hret with
  | none => exact .none
  | some h => exact .some (h.mono hsub)

theorem States.congr {F G : ScopeForest} (h : G.untyped = F.untyped) {members : ScopeId}
    {ty : TypeExpr} {name : String} : States G members ty name ↔ States F members ty name := by
  simp only [States, ScopeForest.binds_congr h]

/-- What a step gives to a name, it gives on the same tables later as well. -/
theorem Attached.mono {F G : ScopeForest} (hG : G.untyped = F.untyped) (hsub : M ⊆ N) {y : Step}
    {u : ScopeId} {name : String} {t : Ty} (h : Attached F M s y u name t) :
    Attached G N s y u name t := by
  have hbody := fun u hd => ScopeForest.bodyOf?_congr hG u hd
  have hholder := fun u hd => ScopeForest.holder?_congr hG u hd
  have hmembers := fun u name => ScopeForest.declaredMembers?_of_untyped hG u name
  have hbinds := fun u name => ScopeForest.binds_congr hG u name
  rcases h with h | ⟨hD, ht, hunwrap, hu, hstates⟩
  · refine Or.inl ?_
    cases h with
    | target htarget hty hb hmeant =>
      exact .target htarget hty ((hbinds ..).trans hb) (hmeant.mono hsub)
    | parameter hb hp hbind hmeant =>
      exact .parameter ((hbody ..).trans hb) hp ((hbinds ..).trans hbind) (hmeant.mono hsub)
    | signature hu hb hsigned =>
      exact .signature ((hholder ..).trans hu) ((hmembers ..).trans hb) (hsigned.mono hsub)
    | definition hD ht => exact .definition ((hmembers ..).trans hD) (ht.mono hsub)
    | field hD hfields hf hb hmeant =>
      exact .field ((hmembers ..).trans hD) hfields hf ((hbinds ..).trans hb) (hmeant.mono hsub)
  · exact Or.inr (.intro ((hmembers ..).trans hD) (ht.mono hsub) hunwrap hu
      fun h => hstates ((States.congr hG).mp h))

/-- The receiver of a method in a module names no builtin type. -/
theorem namesNoBuiltin_of_occurs (hl : c.Linked) (hs : c.Encloses m s) {hd : Head}
    {ys : List Step} (hy : (Step.body hd ys).Occurs m.program.steps) {receiver : Param}
    (hr : hd.receiver? = some receiver) : receiver.ty.NamesNoBuiltin := by
  have hmem : Place.receiver receiver ∈ m.program.places := by
    rw [← m.program.placesAll_steps]
    exact hy.places_subset (by simp [Step.places, hr])
  exact hs.places hl _ hmem

/-- The scope that declares the name behind a head lies in the tree of the module. -/
theorem holder?_mem (hl : c.Linked) (hs : c.Encloses m s) {hd : Head} {ys : List Step}
    (hy : (Step.body hd ys).Occurs m.program.steps) {u : ScopeId}
    (hu : c.scopes.holder? s hd = some u) : m.root ∈ c.scopes.chain u := by
  unfold ScopeForest.holder? at hu
  split at hu
  · exact Option.some.inj hu ▸ hs.2
  · next receiver hr =>
    exact ScopeForest.methodScope_mem hl.scopes (hs.root hl) hs.2
      (namesNoBuiltin_of_occurs hl hs hy hr) hu

/-- A step gives types to names in the tree of its module. -/
theorem Attached.encloses (hl : c.Linked) (hs : c.Encloses m s) {y : Step}
    (hy : y.Occurs m.program.steps) {u : ScopeId} {name : String} {t : Ty}
    (h : Attached c.scopes M s y u name t) : c.Encloses m u := by
  refine ⟨hs.1, ?_⟩
  rcases h with h | ⟨hD, -⟩
  · cases h with
    | target => exact hs.2
    | parameter hbody =>
      exact ScopeForest.bodyOf?_mem hl.scopes (hs.root hl) hs.2
        (fun _ hr => namesNoBuiltin_of_occurs hl hs hy hr) hbody
    | signature hu => exact holder?_mem hl hs hy hu
    | definition => exact hs.2
    | field hD => exact ScopeForest.declaredMembers?_mem hl.scopes hs.2 hD
  · exact ScopeForest.declaredMembers?_mem hl.scopes hs.2 hD

/-- From each moment of a run of resolution to the last, only what the pass may do is done. -/
theorem Resolves.leads (h : Resolves c₀ P (c :: M)) (hd : d ∈ c :: M) : d.Leads .resolved c := by
  generalize hL : c :: M = L at h
  induction h generalizing c M with
  | start =>
    obtain ⟨rfl, rfl⟩ := List.cons.inj hL
    exact List.mem_singleton.mp hd ▸ Leads.refl _ _
  | report span message _ _ ih =>
    obtain ⟨rfl, rfl⟩ := List.cons.inj hL
    rcases List.mem_cons.mp hd with rfl | hd
    · exact Leads.refl _ _
    · exact (ih hd rfl).trans (types_reportIn _ _ (Or.inl rfl) _ _).leads
  | lead _ hm hphase ih =>
    obtain ⟨rfl, rfl⟩ := List.cons.inj hL
    rcases List.mem_cons.mp hd with rfl | hd
    · exact Leads.refl _ _
    · obtain ⟨q, -, hmod⟩ := hm
      rw [phase_of_module? hmod] at hphase
      exact (ih hd rfl).trans (leads_setPhase hmod (hphase ▸ rfl))
  | give _ _ _ _ _ _ ih =>
    obtain ⟨rfl, rfl⟩ := List.cons.inj hL
    rcases List.mem_cons.mp hd with rfl | hd
    · exact Leads.refl _ _
    · exact (ih hd rfl).trans (types_setType ..).leads

/-- A run of resolution begins where it says. -/
theorem Resolves.start_mem (h : Resolves c₀ P M) : c₀ ∈ M := by
  induction h with
  | start => exact List.mem_singleton_self _
  | report _ _ _ _ ih => exact List.mem_cons_of_mem _ ih
  | lead _ _ _ ih => exact List.mem_cons_of_mem _ ih
  | give _ _ _ _ _ _ ih => exact List.mem_cons_of_mem _ ih

/--
A type that a run of resolution leaves behind was there before, or was given to the name by a
step in a module of the run whose tree holds the name.
-/
theorem Resolves.attached (h : Resolves c₀ P (c :: M)) (hl : c₀.Linked) {u : ScopeId}
    {name : String} {t : Ty} (ht : c.scopes.typeOf? u name = some t) :
    c₀.scopes.typeOf? u name = some t ∨ ∃ m s y, P m ∧ c.Encloses m s ∧ c.Encloses m u ∧
      y.Occurs m.program.steps ∧ Attached c.scopes (c :: M) s y u name t := by
  generalize hL : c :: M = L at h
  induction h generalizing c M with
  | start =>
    obtain ⟨rfl, rfl⟩ := List.cons.inj hL
    exact Or.inl ht
  | @report c M _ span message _ _ ih =>
    obtain ⟨rfl, rfl⟩ := List.cons.inj hL
    have hold : c.scopes.typeOf? u name = some t := ht
    refine (ih hold rfl).imp_right ?_
    rintro ⟨m, s, y, hm, hs, hu, hy, hgiven⟩
    exact ⟨m, s, y, hm, hs, hu, hy, hgiven.mono rfl (List.subset_cons_self ..)⟩
  | @lead c M _ hrun hknows hphase ih =>
    obtain ⟨rfl, rfl⟩ := List.cons.inj hL
    obtain ⟨q, -, hmod⟩ := hknows
    rw [phase_of_module? hmod] at hphase
    have hlead : c.Leads .resolved _ := leads_setPhase hmod (hphase ▸ rfl)
    have hext := hlead.toExtends ((hrun.leads hrun.start_mem).linked hl)
    have hold : c.scopes.typeOf? u name = some t := by
      rwa [setPhase_eq hmod (hphase ▸ by decide)] at ht
    refine (ih hold rfl).imp_right ?_
    rintro ⟨m, s, y, hm, hs, hu, hy, hgiven⟩
    exact ⟨m, s, y, hm, hs.later hext, hu.later hext, hy,
      hgiven.mono hlead.untyped (List.subset_cons_self ..)⟩
  | @give c M m s u' y name' t' hrun hm hs hphase hy hgiven ih =>
    obtain ⟨rfl, rfl⟩ := List.cons.inj hL
    have htypes := types_setType c u' name' t'
    have hext := htypes.toExtends ((hrun.leads hrun.start_mem).linked hl)
    have hsub : c :: M ⊆ c.setType u' name' t' :: c :: M := List.subset_cons_self ..
    by_cases hsame : u = u' ∧ name = name'
    · obtain ⟨rfl, rfl⟩ := hsame
      have hu := hgiven.encloses ((hrun.leads hrun.start_mem).linked hl) hs hy
      obtain rfl : t' = t := by
        have hset : (c.scopes.setType u name t').typeOf? u name = some t := ht
        rw [ScopeForest.typeOf?_setType, if_pos ⟨rfl, rfl⟩, Option.map_eq_some_iff] at hset
        exact hset.choose_spec.2
      exact Or.inr ⟨m, s, y, hm, hs.later hext, hu.later hext, hy,
        hgiven.mono htypes.untyped hsub⟩
    · have hold : c.scopes.typeOf? u name = some t :=
        (ScopeForest.typeOf?_setType_of_ne t' hsame).symm.trans ht
      refine (ih hold rfl).imp_right ?_
      rintro ⟨m, s, y, hm, hs, hu, hy, hgiven⟩
      exact ⟨m, s, y, hm, hs.later hext, hu.later hext, hy, hgiven.mono htypes.untyped hsub⟩

/-- A run of resolution leaves the types in trees that have been resolved as they are. -/
theorem Resolves.typeOf?_eq (h : Resolves c₀ P (c :: M)) (hl : c₀.Linked) {u : ScopeId}
    (hm : c₀.Encloses m u) (hphase : Phase.resolved ≤ c₀.phase m.key) (name : String) :
    c.scopes.typeOf? u name = c₀.scopes.typeOf? u name := by
  generalize hL : c :: M = L at h
  induction h generalizing c M with
  | start =>
    obtain ⟨rfl, rfl⟩ := List.cons.inj hL
    rfl
  | @report c M _ span message _ _ ih =>
    obtain ⟨rfl, rfl⟩ := List.cons.inj hL
    exact (ih rfl : c.scopes.typeOf? u name = _)
  | @lead c M m' _ _ _ ih =>
    obtain ⟨rfl, rfl⟩ := List.cons.inj hL
    rw [scopes_setPhase]
    exact ih rfl
  | @give c M m' s u' y name' t hrun _ hs hphase' hy hgiven ih =>
    obtain ⟨rfl, rfl⟩ := List.cons.inj hL
    refine (ScopeForest.typeOf?_setType_of_ne t fun hsame => ?_).trans (ih rfl)
    -- The scope would lie in the trees of two modules, one of which has not been resolved.
    have hleads := hrun.leads hrun.start_mem
    have hlc := hleads.linked hl
    have hu := hm.later (hleads.toExtends hl)
    obtain ⟨hkey, -⟩ := hu.same hlc (hsame.1.symm ▸ hgiven.encloses hlc hs hy)
    have hlate := hphase.trans (hleads.phase_le m.key)
    rw [← hkey, hphase'] at hlate
    exact absurd hlate (by decide)

/-! ### Runs of resolution -/

/-- The visits that are noted in a log have been made between moments. -/
def Made (W : List Entry) (M : List Context) : Prop :=
  ∀ {m : Module} {s : ScopeId} {x : Stop}, .visited m (.stop s x) ∈ W →
    ∃ c ∈ M, (resolver m).stop s x c ∈ M

theorem Made.later {W K : List Entry} (h : Made W M) (hsub : M ⊆ N)
    (hK : ∀ m s x, .visited m (.stop s x) ∉ K) : Made (W ++ K) N := by
  intro m s x hx
  obtain ⟨c, hc, hd⟩ := h ((List.mem_append.mp hx).resolve_right (hK m s x))
  exact ⟨c, hsub hc, hsub hd⟩

/--
Each state that resolution comes to is the last moment of a run over what it has visited, and
the visits have been made on the way.
-/
theorem resolves_of_history {W : List Entry}
    (h : resolution.History (passing .resolved .collected c₀) c₀ W c) :
    ∃ M, Resolves c₀ (fun m => ∃ v, .visited m v ∈ W) (c :: M) ∧ Made W (c :: M) := by
  have standing : ∀ {stack m s W c M} {v : Visit}, (passing .resolved .collected c₀).At stack m s c →
      Resolves c₀ (fun m => ∃ v, .visited m v ∈ W) (c :: M) →
        Standing c₀ (fun m' => ∃ v', .visited m' v' ∈ W ++ [Entry.visited m v]) m s c M := by
    intro stack m s W c M v hs hM
    refine ⟨hM.mono fun _ hv => hv.imp fun _ => List.mem_append_left _, ?_, hs.2.2, ?_⟩
    · exact ⟨v, List.mem_append_right _ (List.mem_singleton_self _)⟩
    · exact hs.1.walking.phases _ (List.mem_cons_self ..)
  induction h with
  | start => exact ⟨[], .start, nofun⟩
  | @enter W c stack key _ hready ih =>
    have henter : c.enter key .resolved .resolving "resolution" =
        ((c.enter key .resolved .resolving "resolution").1,
          (c.enter key .resolved .resolving "resolution").2) := rfl
    obtain ⟨hsame, -⟩ := hready.1.enter_cases rfl (by decide) henter
    exact hsame.symm ▸ ih
  | importing _ _ _ _ ih =>
    obtain ⟨M, hM, hmade⟩ := ih
    refine ⟨M, hM.mono fun _ hv => hv.imp fun _ => List.mem_append_left _, ?_⟩
    exact hmade.later (List.Subset.refl _) (by simp)
  | @stop W c stack m s x _ hs hy ih =>
    obtain ⟨M, hM, hmade⟩ := ih
    obtain ⟨N, hpassed⟩ := (standing hs hM).stop hy
    refine ⟨N, hpassed.standing.run, fun {m' s' x'} hx => ?_⟩
    rcases List.mem_append.mp hx with hx | hx
    · obtain ⟨e, he, hd⟩ := hmade hx
      exact ⟨e, hpassed.later.subset he, hpassed.later.subset hd⟩
    · obtain ⟨rfl, hv⟩ := Entry.visited.inj (List.mem_singleton.mp hx)
      obtain ⟨rfl, rfl⟩ := Visit.stop.inj hv
      exact ⟨c, hpassed.later.subset (List.mem_cons_self ..), List.mem_cons_self ..⟩
  | head _ hs hy ih =>
    obtain ⟨M, hM, hmade⟩ := ih
    obtain ⟨N, hpassed⟩ := (standing hs hM).head hy
    exact ⟨N, hpassed.standing.run, hmade.later hpassed.later.subset (by simp)⟩
  | close _ hs ih =>
    obtain ⟨M, hM, hmade⟩ := ih
    refine ⟨_, .lead (hM.mono ?_) hs.2.2.1 (hs.1.walking.phases _ (List.mem_cons_self ..)), ?_⟩
    · exact fun _ hv => hv.imp fun _ => List.mem_append_left _
    · exact hmade.later (List.subset_cons_self ..) (by simp)

/-- If nothing is reported, every variable that its declaration binds gets its written type. -/
theorem typed_resolveTargets {targets : List VarBinder}
    (hclean : (c.resolveTargets m s targets).diagnostics.hasErrors = false) {target : VarBinder}
    (htarget : target ∈ targets) (hwritten : target.ty?.isSome)
    (hbinds : c.scopes.binds s target.name = true) :
    ((c.resolveTargets m s targets).scopes.typeOf? s target.name.name).isSome := by
  induction targets generalizing c with
  | nil => cases htarget
  | cons first targets ih =>
    have hrest : ∀ d : Context, c.Types d →
        c.resolveTargets m s (first :: targets) = d.resolveTargets m s targets →
        (target = first → (d.scopes.typeOf? s target.name.name).isSome) →
          ((c.resolveTargets m s (first :: targets)).scopes.typeOf? s target.name.name).isSome := by
      intro d hd he hfirst
      rw [he] at hclean ⊢
      rcases List.mem_cons.mp htarget with heq | htarget
      · exact (types_resolveTargets m s d targets).typed (hfirst heq)
      · exact ih hclean htarget ((ScopeForest.binds_congr hd.untyped ..).trans hbinds)
    cases hty : first.ty? with
    | none =>
      refine hrest c (Types.refl c) ?_ ?_
      · simp only [resolveTargets, List.foldl_cons, hty]
      · rintro rfl
        rw [hty] at hwritten
        cases hwritten
    | some ty =>
      cases hmeans : Ty.ofTypeExpr c.scopes s ty with
      | ok t =>
        refine hrest (c.setDeclaredType s first.name t) (types_setDeclaredType ..) ?_ ?_
        · simp only [resolveTargets, List.foldl_cons, hty, denoteIn, hmeans]
        · rintro rfl
          rw [setDeclaredType, if_pos hbinds,
            ScopeForest.typeOf?_setType_self t (ScopeForest.isSome_symbol?_of_binds hbinds)]
          rfl
      | error e =>
        -- The report of a written type that means nothing would still be there.
        have he : c.resolveTargets m s (first :: targets) =
            (c.reportIn m .resolving e.span e.message).resolveTargets m s targets := by
          simp only [resolveTargets, List.foldl_cons, hty, denoteIn, hmeans]
        rw [he] at hclean
        have hreported := ((types_resolveTargets m s
          (c.reportIn m .resolving e.span e.message) targets).passes :
            Passes .resolved _ _).clean hclean
        simp [reportIn, report, Diagnostics.hasErrors, Severity.isError] at hreported

/--
Resolution makes a run over the modules that it leads on, in which it comes to all places that
stay in their scopes.
-/
theorem exists_resolves {ctx : Context} (hl : ctx.Linked) {key : String}
    (hle : Phase.collected ≤ ctx.phase key) :
    ∃ M, Resolves ctx (fun m => Phase.resolved ≤ (resolve key ctx).phase m.key)
        (resolve key ctx :: M) ∧
      ∀ k, (resolve key ctx).phase k = ctx.phase k ∨ ∃ m, m.key = k ∧ (resolve key ctx).Knows m ∧
        ∀ s x, .stop s x ∈ ctx.scopes.itinerary m → ∃ m',
          ∃ c ∈ resolve key ctx :: M, (resolver m').stop s x c ∈ resolve key ctx :: M := by
  obtain ⟨W, hW, hrecounts, hclosed, hvisited⟩ :=
    exists_history filling_resolver (fun _ => rfl) rfl (by decide) hl hle
  obtain ⟨M, hM, hmade⟩ := resolves_of_history hW
  refine ⟨M, hM.mono ?_, fun k => ?_⟩
  · rintro m ⟨v, hv⟩
    exact (hclosed m (hvisited m v hv)).2
  · refine (hrecounts.closed k).imp_right ?_
    rintro ⟨m, hm, rfl⟩
    refine ⟨m, rfl, hrecounts.knows hm, fun s x hx => ?_⟩
    rw [← (hclosed m hm).1] at hx
    obtain ⟨m', -, hmem⟩ := Entry.mem_visitsOf.mp hx
    exact ⟨m', hmade hmem⟩

end Context

end Sable
