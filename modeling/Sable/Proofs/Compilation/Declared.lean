import Sable.Proofs.Compilation.Checking
import Sable.Proofs.Scope.Binding

/-!
# The first declaration wins

Collection fills the tree of a module by the declarations of the module in the order of the source. A
name is bound as the first declaration of it in its scope says, and each later one is reported where
it stands. Meanwhile other modules are collected, but each of them fills a tree of its own, and its
reports name a file of its own.
-/

namespace Sable.Compilation

open Context

/-! ### Reports of refused declarations -/

/-- The report of a declaration in a module whose scope binds the name already. -/
def duplicateReport (m : Module) (name : Ident) : Diagnostic :=
  ⟨m.file.text, name.span, (DuplicateSymbol.mk name.name name.span).message, .semanticError,
    .collecting, none⟩

/-- Such reports of different names differ. -/
theorem duplicateReport_inj {m : Module} {x y : Ident} :
    duplicateReport m x = duplicateReport m y ↔ x = y := by
  refine ⟨fun h => ?_, congrArg _⟩
  obtain ⟨-, hspan, hmessage, -⟩ := Diagnostic.mk.inj h
  simp only [DuplicateSymbol.message, String.append_left_inj, String.append_right_inj] at hmessage
  exact Ident.mk.injEq .. ▸ ⟨hmessage, hspan⟩

variable {l : Loader} {needed : Path → Prop} {roots : String → Prop} {c d e : Compilation}
  {m : Module} {s t : ScopeId} {D E E' : List Declaration} {F : ScopeForest}

/-- What is wrong with a receiver is not that a name is declared twice. -/
theorem message_ne_of_receiverMembers {G : ScopeForest} {receiver : Param} {x : Span × String}
    (h : receiverMembers G s receiver = .error x) (y : DuplicateSymbol) : x.2 ≠ y.message := by
  intro heq
  have hfirst := congrArg (fun text => text.toList.head?) heq
  unfold receiverMembers at h
  split at h
  · split at h
    · obtain rfl := Except.error.inj h
      simp [DuplicateSymbol.message] at hfirst
    · split at h
      · split at h
        · cases h
        · obtain rfl := Except.error.inj h
          simp [DuplicateSymbol.message] at hfirst
      · obtain rfl := Except.error.inj h
        simp [DuplicateSymbol.message] at hfirst
  · obtain rfl := Except.error.inj h
    simp [DuplicateSymbol.message] at hfirst

/-! ### Declaring names -/

/--
A compilation turns into another one by declarations in the tree of a module, which has been filled
by some declarations before. Each of them that is refused is reported once.
-/
structure Declares (m : Module) (D : List Declaration) (c : Compilation) (E : List Declaration)
    (d : Compilation) : Prop where
  /-- Names are declared in the tree. -/
  fills : c.Fills m d
  /-- The tree has been filled by all declarations. -/
  holds : d.context.scopes.Holds m.root (D ++ E)
  /-- The refused ones are reported in the file of the module. -/
  reports : ∃ R, d.context.diagnostics.items = c.context.diagnostics.items ++ R ∧
    (∀ x ∈ R, x.file = m.file.text) ∧
    ∀ name, R.count (duplicateReport m name) = (Declaration.refusedFrom D E).count name

theorem Declares.nil (h : c.context.scopes.Holds m.root D) : Declares m D c [] c where
  fills := .refl m c
  holds := (List.append_nil D).symm ▸ h
  reports := ⟨[], by simp [Declaration.refusedFrom]⟩

theorem Declares.trans (hl : c.context.Linked) (h : Declares m D c E d)
    (h' : Declares m (D ++ E) d E' e) : Declares m D c (E ++ E') e where
  fills := h.fills.trans hl h'.fills
  holds := List.append_assoc .. ▸ h'.holds
  reports := by
    obtain ⟨R, hitems, hfile, hcount⟩ := h.reports
    obtain ⟨R', hitems', hfile', hcount'⟩ := h'.reports
    refine ⟨R ++ R', by rw [hitems', hitems, List.append_assoc], ?_, fun name => ?_⟩
    · exact List.forall_mem_append.mpr ⟨hfile, hfile'⟩
    · rw [List.count_append, hcount, hcount', Declaration.refusedFrom_append, List.count_append]

/-- What is reported for another reason declares nothing. -/
theorem declares_reportIn (h : c.context.scopes.Holds m.root D) (span : Span) {message : String}
    (hmessage : ∀ y : DuplicateSymbol, message ≠ y.message) :
    Declares m D c [] (c.reportIn m span message) where
  fills := fills_reportIn ..
  holds := (List.append_nil D).symm ▸ h
  reports := by
    refine ⟨[⟨m.file.text, span, message, .semanticError, .collecting, none⟩], rfl, by simp, ?_⟩
    intro name
    rw [Declaration.refusedFrom, List.count_nil, List.count_eq_zero, List.mem_singleton]
    exact fun heq => hmessage _ (congrArg Diagnostic.message heq).symm

/-- A name is declared, or refused if the tree binds it already. -/
theorem declares_declare (hl : c.context.Linked) {x : Declaration}
    (hs : c.context.Encloses m x.scope) (h : c.context.scopes.Holds m.root D)
    (hname : x.name.name ≠ "") :
    Declares m D c [x] (c.declare m x.scope x.kind x.name).2 ∧
      (x.kind.opensScope = true → ∀ F,
        (c.declare m x.scope x.kind x.name).2.context.scopes.Precedes F →
          (c.declare m x.scope x.kind x.name).1 = x.inner? F D) := by
  have hfills := (declare_opens hl hs x.kind x.name).1
  have hempty : ¬ x.name.name.isEmpty = true := by simpa using hname
  have hrefused : x.refused D = (c.context.scopes.symbol? x.scope x.name.name).isSome :=
    (h.isSome_eq hs.2 x.name.name).symm
  unfold declare at hfills ⊢
  rw [if_neg hempty] at hfills ⊢
  cases hdeclare : c.context.scopes.declare x.scope x.name x.kind none with
  | error y =>
    rw [hdeclare] at hfills
    obtain ⟨hbound, rfl⟩ := ScopeForest.of_declare_error hdeclare
    rw [hbound] at hrefused
    refine ⟨⟨hfills, h.refuse hs.2 hrefused, [duplicateReport m x.name], rfl, ?_, fun name => ?_⟩,
      fun _ F _ => ?_⟩
    · simp [duplicateReport]
    · simp only [Declaration.refusedFrom, hrefused, ↓reduceIte, List.append_nil,
        List.count_singleton, beq_iff_eq, duplicateReport_inj]
    · rw [Declaration.inner?, if_pos hrefused]
  | ok r =>
    obtain ⟨members?, G⟩ := r
    rw [hdeclare] at hfills
    rw [ScopeForest.symbol?_eq_none_of_declare hdeclare] at hrefused
    refine ⟨⟨hfills, h.declare hl.scopes hfills.context.scopes hs.2 hdeclare, [], ?_, by simp,
      fun name => ?_⟩, fun _ F hF => ?_⟩
    · exact (List.append_nil _).symm
    · simp [Declaration.refusedFrom, hrefused]
    · have hbound := ScopeForest.symbol?_declare (ScopeForest.lt_size_of_mem_chain hs.2) hdeclare
        x.scope x.name.name
      rw [if_pos ⟨rfl, rfl⟩] at hbound
      rw [Declaration.inner?, hrefused, Option.isSome_none, if_neg Bool.false_ne_true,
        hF.membersOf?_eq hbound]

/-- Names are declared one after the other. -/
theorem declares_declareAll (hl : c.context.Linked) (hs : c.context.Encloses m s)
    (h : c.context.scopes.Holds m.root D) (kind : SymbolKind) {names : List Ident}
    (hnames : ∀ name ∈ names, name.name ≠ "") :
    Declares m D c (names.map fun name => ⟨s, kind, name⟩) (declareAll m s kind names c) := by
  induction names generalizing c D with
  | nil => exact .nil h
  | cons name names ih =>
    rw [List.forall_mem_cons] at hnames
    have hfirst := (declares_declare (x := ⟨s, kind, name⟩) hl hs h hnames.1).1
    exact hfirst.trans hl (ih (hfirst.fills.context.linked hl) (hfirst.fills.encloses hl hs)
      hfirst.holds hnames.2)

/-! ### Declarations with names inside -/

/-- Declares a name and, if it is not refused, names in the scope of its members. -/
def declareWith (m : Module) (x : Declaration) (kind : SymbolKind) (names : List Ident)
    (c : Compilation) : Option ScopeId × Compilation :=
  match c.declare m x.scope x.kind x.name with
  | (none, c) => (none, c)
  | (some members, c) => (some members, c.declareAll m members kind names)

/-- A type is declared with its fields. -/
theorem collectTypeDecl_eq (m : Module) (s : ScopeId) (x : TypeDecl) (c : Compilation) :
    collectTypeDecl m s x c = (declareWith m ⟨s, .type, x.name⟩ .field x.fieldNames c).2 := by
  rw [collectTypeDecl, declareWith, TypeDecl.fieldNames]
  rcases c.declare m s .type x.name with ⟨_ | members, e⟩
  · rfl
  · cases x.ty <;> rfl

/-- A method whose receiver is rejected is reported and nothing else. -/
theorem collectMethod_error {receiver : Param} {x : Span × String}
    (h : receiverMembers c.context.scopes s receiver = .error x) (m : Module) (name : Ident)
    (params : List Param) :
    collectMethod m s receiver name params c = (none, c.reportIn m x.1 x.2) := by
  simp [collectMethod, declareMethod, h]

/-- A method is declared in the scope that its receiver stands for, with all its arguments. -/
theorem collectMethod_eq {receiver : Param} {members : ScopeId}
    (h : receiverMembers c.context.scopes s receiver = .ok members) (m : Module) (name : Ident)
    (params : List Param) :
    collectMethod m s receiver name params c =
      declareWith m ⟨members, .method, name⟩ .var ((receiver :: params).map Param.name) c := by
  rw [collectMethod, declareMethod, h, declareWith]
  dsimp only
  rcases c.declare m members .method name with ⟨_ | body, e⟩ <;> rfl

/-- A name is declared with the names inside it, or refused with them. -/
theorem declares_declareWith (hl : c.context.Linked) {x : Declaration}
    (hs : c.context.Encloses m x.scope) (h : c.context.scopes.Holds m.root D)
    (hname : x.name.name ≠ "") (hkind : x.kind.opensScope = true) (kind : SymbolKind)
    {names : List Ident} (hnames : ∀ name ∈ names, name.name ≠ "")
    (hF : (declareWith m x kind names c).2.context.scopes.Precedes F) :
    Declares m D c (x.withNames F D kind names) (declareWith m x kind names c).2 ∧
      (declareWith m x kind names c).1 = x.inner? F D := by
  obtain ⟨hdeclares, hinner⟩ := declares_declare hl hs h hname
  have hopens := declare_opens hl hs x.kind x.name
  replace hinner := hinner hkind F
  rw [Declaration.withNames]
  unfold declareWith at hF ⊢
  generalize c.declare m x.scope x.kind x.name = r at hdeclares hinner hopens hF ⊢
  obtain ⟨_ | members, e⟩ := r
  · rw [← hinner hF]
    exact ⟨hdeclares, rfl⟩
  · have hl' := hdeclares.fills.context.linked hl
    have hall := declares_declareAll hl' (hopens.2 members rfl).1 hdeclares.holds kind hnames
    rw [← hinner (hall.fills.context.scopes.toPrecedes.trans hF)]
    exact ⟨hdeclares.trans hl hall, rfl⟩

/-! ### Places -/

/-- A receiver stands for the members of the nearest type that has been declared under its name. -/
theorem receiverScope?_eq (hl : c.context.Linked) (hs : c.context.Encloses m s)
    (h : c.context.scopes.Holds m.root D) {receiver : Param} (hr : receiver.ty.NamesNoBuiltin)
    (hF : c.context.scopes.Precedes F) (hsound : F.Sound) :
    Declaration.receiverScope? F D s receiver =
      (receiverMembers c.context.scopes s receiver).toOption := by
  unfold Declaration.receiverScope? receiverMembers
  cases hty : receiver.ty with
  | named name =>
    have hlocate := h.rel_locate? hl.scopes (hs.root hl) hs.2 (hr name hty)
    have hchain := ScopeForest.chain_eq_of_parent hl.scopes hsound hF.size_le hF.parent
      (ScopeForest.lt_size_of_mem_chain hs.2)
    dsimp only
    rw [hchain]
    rw [ScopeForest.visible?]
    generalize (c.context.scopes.chain s).findSome? _ = x, c.context.scopes.locate? s name.name = y
      at hlocate
    cases hlocate with
    | none => rfl
    | @some d y hy =>
      obtain ⟨hbinds, hscope, hsymbol⟩ := hy
      rw [Option.bind_some, Option.map_some, hscope, hF.membersOf?_eq hsymbol, ← hbinds.kind]
      dsimp only
      split
      · cases y.2.members? <;> rfl
      · rfl
  | _ => rfl

/-- A place that stays in its scope declares what it states. -/
theorem declares_stop (hl : c.context.Linked) (hs : c.context.Encloses m s)
    (h : c.context.scopes.Holds m.root D) {x : Stop}
    (hnames : ∀ name, .name name ∈ x.sites → name.name ≠ "")
    (hF : ((collector m).stop s x c).context.scopes.Precedes F) :
    Declares m D c (x.declarations F D s) ((collector m).stop s x c) := by
  cases x with
  | typeDecl y =>
    rw [show (collector m).stop s (.typeDecl y) c = _ from collectTypeDecl_eq m s y c] at hF ⊢
    exact (declares_declareWith hl hs h (hnames _ (by simp [Stop.sites, TypeDecl.sites])) rfl .field
      (fun name hname => hnames name (TypeDecl.name_mem_sites_of_field hname)) hF).1
  | declaring isConst targets values span =>
    have hnamed : ∀ name ∈ targets.map VarBinder.name, name.name ≠ "" := fun name hname => by
      obtain ⟨target, htarget, rfl⟩ := List.mem_map.mp hname
      refine hnames _ (List.mem_cons_of_mem _ (List.mem_append_left _ ?_))
      exact List.mem_flatMap.mpr ⟨target, htarget, List.mem_cons_self ..⟩
    have hall := declares_declareAll hl hs h (varKind isConst) hnamed
    rw [List.map_map] at hall
    exact hall
  | _ => exact .nil h

/-- The head of a function or a method declares what it states, and opens its body there. -/
theorem declares_head (hl : c.context.Linked) (hs : c.context.Encloses m s)
    (h : c.context.scopes.Holds m.root D) {hd : Head}
    (hnames : ∀ name, .name name ∈ hd.sites → name.name ≠ "")
    (hr : ∀ receiver, hd.receiver? = some receiver → receiver.ty.NamesNoBuiltin)
    (hF : ((collector m).head s hd c).2.context.scopes.Precedes F) (hsound : F.Sound) :
    Declares m D c (hd.declarations F D s) ((collector m).head s hd c).2 ∧
      ((collector m).head s hd c).1 = hd.body? F D s := by
  have hname := hnames _ hd.name_mem_sites
  have harguments : ∀ name ∈ hd.argumentNames, name.name ≠ "" :=
    fun name hmem => hnames name (Head.name_mem_sites_of_argument hmem)
  obtain ⟨_ | receiver, name, params, ret⟩ := hd
  · exact declares_declareWith (x := ⟨s, .func, name⟩) hl hs h hname rfl .var harguments hF
  · have hopens := collectMethod_opens hl hs (hr receiver rfl) name params
    have hscope := receiverScope?_eq hl hs h (hr receiver rfl)
      (hopens.1.context.scopes.toPrecedes.trans hF) hsound
    rw [Head.declarations, Head.body?, Head.declaration?]
    dsimp only
    rw [hscope]
    cases hreceiver : receiverMembers c.context.scopes s receiver with
    | error x =>
      have herror : (collector m).head s ⟨some receiver, name, params, ret⟩ c =
          (none, c.reportIn m x.1 x.2) := collectMethod_error hreceiver m name params
      rw [herror]
      exact ⟨declares_reportIn h x.1 (message_ne_of_receiverMembers hreceiver), rfl⟩
    | ok members =>
      have hok : (collector m).head s ⟨some receiver, name, params, ret⟩ c =
          declareWith m ⟨members, .method, name⟩ .var ((receiver :: params).map Param.name) c :=
        collectMethod_eq hreceiver m name params
      rw [hok] at hF ⊢
      exact declares_declareWith hl (receiverMembers_mem hl hs (hr receiver rfl) hreceiver) h hname
        rfl .var harguments hF

end Sable.Compilation
