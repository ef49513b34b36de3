import Mathlib.Logic.Relation
import Sable.Proofs.Scope.Typed

/-!
# Nested scopes

However a forest is built, its scopes are nested: a scope is opened behind the scope around it,
and belongs to at most one name, which that scope declares. So every walk outward comes to its
end, and what is looked up on the way is what the nearest scope has to say.
-/

namespace Sable.ScopeForest

/-- A forest in which every scope stands behind the scope around it and below one name at most. -/
structure Nested (F : ScopeForest) : Prop where
  /-- A scope is opened behind the scope around it. -/
  parent_lt : ∀ {s p : Nat}, F.parent? s = some p → p < s
  /-- A scope declares a name once. -/
  names_nodup : ∀ s, ((F.symbols s).map Symbol.name).Nodup
  /-- The members of a name lie in the scope that declares it. -/
  members : ∀ {s x t}, x ∈ F.symbols s → x.members? = some t → F.parent? t = some s
  /-- No two names share the scope of their members. -/
  owner : ∀ {s s' x y t}, x ∈ F.symbols s → y ∈ F.symbols s' → x.members? = some t →
    y.members? = some t → s = s' ∧ x = y

variable {F G : ScopeForest}

/-! ### Changes -/

theorem symbols_modifySymbol (F : ScopeForest) (s t : ScopeId) (name : String)
    (f : Symbol → Symbol) :
    (F.modifySymbol s name f).symbols t =
      if t = s then (F.symbols t).map fun x => if x.name = name then f x else x
      else F.symbols t := by
  rw [symbols, modifySymbol, scope?_modify]
  split
  · cases hscope : F.scope? t <;> simp [symbols, hscope, Scope.modifySymbol]
  · rfl

/-- A name that a scope does not declare is none of its names. -/
theorem symbol?_eq_none_iff {s : ScopeId} {name : String} :
    F.symbol? s name = none ↔ name ∉ (F.symbols s).map Symbol.name := by
  simp [symbol?_eq_find?]

namespace Nested

/-- A change that keeps scopes in place, and names with their members, keeps scopes nested. -/
theorem of_map (h : F.Nested) (hparent : ∀ s, G.parent? s = F.parent? s)
    (hsymbols : ∀ s, ∃ g : Symbol → Symbol, G.symbols s = (F.symbols s).map g ∧
      ∀ x, (g x).name = x.name ∧ (g x).members? = x.members?) : G.Nested where
  parent_lt hp := h.parent_lt (hparent _ ▸ hp)
  names_nodup s := by
    obtain ⟨g, hg, hsame⟩ := hsymbols s
    have hnames : Symbol.name ∘ g = Symbol.name := funext fun x => (hsame x).1
    rw [hg, List.map_map, hnames]
    exact h.names_nodup s
  members {s x t} hx ht := by
    obtain ⟨g, hg, hsame⟩ := hsymbols s
    obtain ⟨y, hy, rfl⟩ := List.mem_map.mp (hg ▸ hx)
    exact (hparent t).trans (h.members hy ((hsame y).2 ▸ ht))
  owner {s s' x y t} hx hy hxt hyt := by
    obtain ⟨g, hg, hsame⟩ := hsymbols s
    obtain ⟨g', hg', hsame'⟩ := hsymbols s'
    obtain ⟨x₀, hx₀, rfl⟩ := List.mem_map.mp (hg ▸ hx)
    obtain ⟨y₀, hy₀, rfl⟩ := List.mem_map.mp (hg' ▸ hy)
    obtain ⟨rfl, rfl⟩ := h.owner hx₀ hy₀ ((hsame x₀).2 ▸ hxt) ((hsame' y₀).2 ▸ hyt)
    exact ⟨rfl, List.map_inj_left.mp (hg.symm.trans hg') x₀ hx₀⟩

theorem modifySymbol (h : F.Nested) (s : ScopeId) (name : String) {f : Symbol → Symbol}
    (hf : ∀ x, (f x).name = x.name ∧ (f x).members? = x.members?) :
    (F.modifySymbol s name f).Nested := by
  refine h.of_map (fun t => parent?_modify F s t fun _ => rfl) fun t => ?_
  rw [symbols_modifySymbol]
  split
  · refine ⟨_, rfl, fun x => ?_⟩
    split
    · exact hf x
    · exact ⟨rfl, rfl⟩
  · exact ⟨id, (List.map_id _).symm, fun _ => ⟨rfl, rfl⟩⟩

/-- A change that leaves the names alone keeps scopes nested. -/
theorem of_symbols (h : F.Nested) (hparent : ∀ s, G.parent? s = F.parent? s)
    (hsymbols : ∀ s, G.symbols s = F.symbols s) : G.Nested :=
  h.of_map hparent fun s => ⟨id, (hsymbols s).trans (List.map_id _).symm, fun _ => ⟨rfl, rfl⟩⟩

/-- A scope may be opened inside any other, or outside of all. -/
theorem openScope (h : F.Nested) {parent? : Option ScopeId} (hparent : ∀ p ∈ parent?, p < F.size)
    (kind : ScopeKind) : (F.openScope parent? kind).2.Nested where
  parent_lt {s p} hp := by
    rw [parent?_openScope] at hp
    split at hp
    · next hs => exact hs ▸ hparent p hp
    · exact h.parent_lt hp
  names_nodup s := symbols_openScope F parent? kind s ▸ h.names_nodup s
  members {s x t} hx ht := by
    have hold := h.members (symbols_openScope F parent? kind s ▸ hx) ht
    rw [parent?_openScope, if_neg (lt_size_of_parent? hold).ne, hold]
  owner hx hy := h.owner (symbols_openScope F parent? kind _ ▸ hx)
    (symbols_openScope F parent? kind _ ▸ hy)

/-- A new name may be declared whose members lie in its scope and are those of no other name. -/
private theorem addSymbol (h : F.Nested) {s : ScopeId} {x : Symbol}
    (hname : x.name ∉ (F.symbols s).map Symbol.name)
    (hmembers : ∀ t ∈ x.members?, F.parent? t = some s)
    (howner : ∀ t ∈ x.members?, ∀ y ∈ F.symbols s, y.members? ≠ some t) :
    (F.modify s fun scope => { scope with symbols := scope.symbols ++ [x] }).Nested := by
  have hparent := fun t => parent?_modify F s t (f := fun scope =>
    { scope with symbols := scope.symbols ++ [x] }) fun _ => rfl
  have hadded : ∀ {t y}, y ∈ (F.modify s fun scope =>
      { scope with symbols := scope.symbols ++ [x] }).symbols t →
      y ∈ F.symbols t ∨ (t = s ∧ y = x) := by
    intro t y hy
    rw [symbols_addSymbol] at hy
    rcases List.mem_append.mp hy with hy | hy
    · exact Or.inl hy
    · split at hy
      · next ht => exact Or.inr ⟨ht.1, List.mem_singleton.mp hy⟩
      · cases hy
  constructor
  · intro t p hp
    exact h.parent_lt (hparent t ▸ hp)
  · intro t
    rw [symbols_addSymbol]
    split
    · next ht =>
      obtain ⟨rfl, -⟩ := ht
      rw [List.map_append]
      exact (h.names_nodup t).append (List.nodup_singleton _) (by simpa using hname)
    · simpa using h.names_nodup t
  · intro t y u hy hu
    rw [hparent]
    rcases hadded hy with hy | ⟨rfl, rfl⟩
    · exact h.members hy hu
    · exact hmembers u hu
  · intro t t' y z u hy hz hyu hzu
    rcases hadded hy with hyold | ⟨rfl, rfl⟩
    · rcases hadded hz with hzold | ⟨rfl, rfl⟩
      · exact h.owner hyold hzold hyu hzu
      · obtain rfl := Option.some.inj ((h.members hyold hyu).symm.trans (hmembers u hzu))
        exact absurd hyu (howner u hzu y hyold)
    · rcases hadded hz with hzold | ⟨rfl, rfl⟩
      · obtain rfl := Option.some.inj ((h.members hzold hzu).symm.trans (hmembers u hyu))
        exact absurd hzu (howner u hyu z hzold)
      · exact ⟨rfl, rfl⟩

/-- A declaration opens a scope of its own for the members of its name. -/
theorem declare (h : F.Nested) {s : Nat} (hs : s < F.size) {name : Ident} {kind : SymbolKind}
    {ty? : Option Ty} {members? : Option ScopeId}
    (hd : F.declare s name kind ty? = .ok (members?, G)) : G.Nested := by
  unfold ScopeForest.declare at hd
  split at hd
  · cases hd
  · next hfree =>
    have hname : name.name ∉ (F.symbols s).map Symbol.name :=
      symbol?_eq_none_iff.mp (Option.not_isSome_iff_eq_none.mp hfree)
    cases hkind : kind.opensScope
    · simp only [hkind, Bool.false_eq_true, ↓reduceIte] at hd
      obtain ⟨rfl, rfl⟩ := Prod.mk.inj (Except.ok.inj hd)
      exact h.addSymbol hname nofun nofun
    · simp only [hkind, ↓reduceIte] at hd
      obtain ⟨rfl, rfl⟩ := Prod.mk.inj (Except.ok.inj hd)
      have hparent : ∀ p, some s = some p → p < F.size := fun p hp => Option.some.inj hp ▸ hs
      have hopen := h.openScope hparent kind.memberScopeKind
      refine hopen.addSymbol (symbols_openScope F (some s) _ s ▸ hname) ?_ ?_
      · rintro t ⟨⟩
        exact (parent?_openScope ..).trans (if_pos rfl)
      · rintro t ⟨⟩ y hy hyt
        -- Before it was opened, no scope of that number could belong to a name.
        have hold := h.members (symbols_openScope F (some s) _ s ▸ hy) hyt
        exact absurd (lt_size_of_parent? hold) (lt_irrefl F.size)

theorem addImport (h : F.Nested) {s : Nat} (hs : s < F.size) {i : ImportBinding}
    (hi : F.addImport s i = .ok G) : G.Nested :=
  h.of_symbols (binds_of_addImport hs hi).parent (binds_of_addImport hs hi).symbols

end Nested

/-! ### Any sequence of changes -/

/-- A change of a forest. -/
inductive Change
  /-- A scope is opened inside another one, or outside of all. -/
  | openScope (parent? : Option ScopeId) (kind : ScopeKind)
  /-- A name is declared, unless the scope declares it already. -/
  | declare (s : ScopeId) (name : Ident) (kind : SymbolKind) (ty? : Option Ty)
  /-- A scope is given a kind. -/
  | setKind (s : ScopeId) (kind : ScopeKind)
  /-- A name is given a type. -/
  | setType (s : ScopeId) (name : String) (ty : Ty)
  /-- A name is given a kind. -/
  | setSymbolKind (s : ScopeId) (name : String) (kind : SymbolKind)
  /-- A module is imported, unless its key or its alias is imported already. -/
  | addImport (s : ScopeId) (i : ImportBinding)

namespace Change

/-- The scope that a change is made in; a scope that is opened outside of all is made in none. -/
def scope? : Change → Option ScopeId
  | openScope parent? _ => parent?
  | declare s _ _ _ => some s
  | setKind s _ => some s
  | setType s _ _ => some s
  | setSymbolKind s _ _ => some s
  | addImport s _ => some s

/-- The forest behind a change. A change that is refused leaves it as it is. -/
def apply (F : ScopeForest) : Change → ScopeForest
  | openScope parent? kind => (F.openScope parent? kind).2
  | declare s name kind ty? =>
    match F.declare s name kind ty? with
    | .ok (_, G) => G
    | .error _ => F
  | setKind s kind => F.setKind s kind
  | setType s name ty => F.setType s name ty
  | setSymbolKind s name kind => F.setSymbolKind s name kind
  | addImport s i =>
    match F.addImport s i with
    | .ok G => G
    | .error _ => F

end Change

/-- A forest that changes of the empty one lead to, each made in a scope that is open. -/
inductive Built : ScopeForest → Prop
  | empty : Built empty
  | change {F : ScopeForest} {change : Change} : Built F → (∀ s ∈ change.scope?, s < F.size) →
    Built (change.apply F)

/-- Whether changes, made one after the other, are each made in a scope that is open. -/
def Change.allOpen (F : ScopeForest) : List Change → Bool
  | [] => true
  | change :: changes =>
    (change.scope?.all fun s => decide (s < F.size)) && allOpen (change.apply F) changes

theorem Built.foldl (h : F.Built) {changes : List Change} (hopen : Change.allOpen F changes) :
    (changes.foldl Change.apply F).Built := by
  induction changes generalizing F with
  | nil => exact h
  | cons change changes ih =>
    rw [Change.allOpen, Bool.and_eq_true] at hopen
    have hscope := (Option.all_eq_true _ _).mp hopen.1
    exact ih (h.change fun s hs => of_decide_eq_true (hscope s hs)) hopen.2

theorem nested_empty : empty.Nested := by
  constructor <;> simp [empty, symbols, ScopeForest.scope?, ScopeForest.parent?]

/-- A change keeps scopes nested. -/
theorem Nested.apply (h : F.Nested) {change : Change} (hs : ∀ s ∈ change.scope?, s < F.size) :
    (change.apply F).Nested := by
  cases change with
  | openScope parent? kind => exact h.openScope hs kind
  | declare s name kind ty? =>
    simp only [Change.apply]
    cases hd : F.declare s name kind ty? with
    | ok r => exact h.declare (hs s rfl) hd
    | error e => exact h
  | setKind s kind =>
    exact h.of_symbols (fun t => parent?_modify F s t fun _ => rfl)
      fun t => symbols_modify F s t fun _ => rfl
  | setType s name ty => exact h.modifySymbol s name fun _ => ⟨rfl, rfl⟩
  | setSymbolKind s name kind => exact h.modifySymbol s name fun _ => ⟨rfl, rfl⟩
  | addImport s i =>
    simp only [Change.apply]
    cases hi : F.addImport s i with
    | ok G => exact h.addImport (hs s rfl) hi
    | error e => exact h

/-- Whatever changes are made, scopes are nested. -/
theorem Built.nested (h : F.Built) : F.Nested := by
  induction h with
  | empty => exact nested_empty
  | change _ hs ih => exact ih.apply hs

/-! ### Walks outward -/

/-- A scope is another one, or lies around it. -/
def Around (F : ScopeForest) : ScopeId → ScopeId → Prop :=
  Relation.ReflTransGen fun s p => F.parent? s = some p

namespace Nested

/-- A search along a chain goes on from the scope around. -/
theorem findSome?_chain (h : F.Nested) {α : Type} {f : ScopeId → Option α} {s : Nat}
    (hf : F.size ≤ s → f s = none) :
    (F.chain s).findSome? f =
      (f s).or ((F.parent? s).bind fun p => (F.chain p).findSome? f) := by
  rcases lt_or_ge s F.size with hs | hs
  · cases hp : F.parent? s with
    | none =>
      rw [chain_of_outermost hs hp, List.findSome?_cons]
      cases f s <;> rfl
    | some p =>
      rw [chain_of_parent_lt h.parent_lt hp, List.findSome?_cons]
      cases f s <;> rfl
  · have hnone : F.parent? s = none := by rw [parent?, scope?_eq_none hs]; rfl
    rw [chain_of_size_le hs, hf hs, hnone]
    rfl

/-- A name is looked up in a scope itself first, and then in the scope around. -/
theorem locate?_eq (h : F.Nested) (s : ScopeId) (name : String) :
    F.locate? s name =
      match F.symbol? s name with
      | some x => some (s, x)
      | none => (F.parent? s).bind fun p => F.locate? p name := by
  refine (h.findSome?_chain fun hs => ?_).trans ?_
  · simp [symbol?, scope?_eq_none hs]
  · cases F.symbol? s name <;> rfl

/-- An alias is looked up in a scope itself first, and then in the scope around. -/
theorem visibleImport?_eq (h : F.Nested) (s : ScopeId) (aliasName : String) :
    F.visibleImport? s aliasName =
      match (F.scope? s).bind fun scope => scope.import? aliasName with
      | some i => some i
      | none => (F.parent? s).bind fun p => F.visibleImport? p aliasName := by
  refine (h.findSome?_chain fun hs => ?_).trans ?_
  · rw [scope?_eq_none hs]
    rfl
  · cases (F.scope? s).bind fun scope => scope.import? aliasName <;> rfl

/-- The chain of an open scope holds the scope and those around it. -/
theorem mem_chain_iff (h : F.Nested) {s t : Nat} (hs : s < F.size) :
    t ∈ F.chain s ↔ F.Around s t := by
  constructor
  · intro ht
    induction s using Nat.strong_induction_on with
    | _ s ih =>
      cases hp : F.parent? s with
      | none =>
        rw [chain_of_outermost hs hp, List.mem_singleton] at ht
        exact ht ▸ .refl
      | some p =>
        rw [chain_of_parent_lt h.parent_lt hp] at ht
        rcases List.mem_cons.mp ht with rfl | ht
        · exact .refl
        · have hlt := h.parent_lt hp
          exact (ih p hlt (hlt.trans hs) ht).head hp
  · intro ht
    induction ht using Relation.ReflTransGen.head_induction_on with
    | refl => exact mem_chain_self hs
    | head hp _ ih =>
      rw [chain_of_parent_lt h.parent_lt hp]
      exact List.mem_cons_of_mem _ (ih ((h.parent_lt hp).trans hs))

/-- A scope lies in a function if it belongs to one, or a scope around it does. -/
theorem inFunction_iff (h : F.Nested) (s : Nat) :
    F.inFunction s = true ↔ ∃ t, F.Around s t ∧ F.kind t = .function := by
  rcases lt_or_ge s F.size with hs | hs
  · simp [inFunction, h.mem_chain_iff hs]
  · have hparent : ∀ p, F.parent? s ≠ some p := by simp [parent?, scope?_eq_none hs]
    have hkind : F.kind s ≠ .function := by simp [kind, scope?_eq_none hs]
    simp only [inFunction, chain_of_size_le hs, List.any_nil, Bool.false_eq_true, false_iff]
    rintro ⟨t, ht, hfunction⟩
    rcases ht.cases_head with rfl | ⟨p, hp, -⟩
    · exact hkind hfunction
    · exact hparent p hp

/-- The scopes around a scope have smaller numbers. -/
theorem le_of_around (h : F.Nested) {s t : Nat} (ht : F.Around s t) : t ≤ s := by
  induction ht using Relation.ReflTransGen.head_induction_on with
  | refl => exact le_refl t
  | head hp _ ih => exact ih.trans (h.parent_lt hp).le

/-- Of the scopes right inside another one, only one lies around a given scope. -/
theorem eq_of_around (h : F.Nested) {s t t' u : Nat} (ht : F.Around u t) (ht' : F.Around u t')
    (hs : F.parent? t = some s) (hs' : F.parent? t' = some s) : t = t' := by
  have hunique : Relator.RightUnique fun s p => F.parent? s = some p :=
    fun _ _ _ hp hq => Option.some.inj (hp.symm.trans hq)
  -- Of two scopes on one way outward, the inner one would lie behind the scope around both.
  have hnot : ∀ {v w : Nat}, F.parent? v = some s → F.parent? w = some s → F.Around v w →
      v = w := by
    intro v w hv hw hvw
    rcases hvw.cases_head with he | ⟨p, hp, hpw⟩
    · exact he
    · obtain rfl := Option.some.inj (hv.symm.trans hp)
      have hle := h.le_of_around hpw
      have hlt := h.parent_lt hw
      omega
  rcases Relation.ReflTransGen.total_of_right_unique hunique ht ht' with htt | htt
  · exact hnot hs hs' htt
  · exact (hnot hs' hs htt).symm

/-- A name stands for a declaration in a scope itself exactly if that is the declaration of it. -/
theorem symbol?_eq_some_iff (h : F.Nested) {s : ScopeId} {name : String} {x : Symbol} :
    F.symbol? s name = some x ↔ x ∈ F.symbols s ∧ x.name = name := by
  refine ⟨mem_symbols_of_symbol?, ?_⟩
  rintro ⟨hx, rfl⟩
  cases hy : F.symbol? s x.name with
  | none => exact absurd (List.mem_map_of_mem hx) (symbol?_eq_none_iff.mp hy)
  | some y =>
    obtain ⟨hymem, hyname⟩ := mem_symbols_of_symbol? hy
    rw [List.inj_on_of_nodup_map (h.names_nodup s) hymem hx hyname]

end Nested

end Sable.ScopeForest
