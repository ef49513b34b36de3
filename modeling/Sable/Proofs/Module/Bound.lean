import Sable.Proofs.Compilation.Owning
import Sable.Proofs.Module.Stations
import Sable.Proofs.Scope.Binding

/-!
# What a walk binds

Where a walk goes into every body and none of its declarations is refused, each of them binds its
name: a function next to it, with its parameters in its body, and a type next to it, with its fields
among its members. The scope of the members of a type holds no name beside its fields but those of
methods. If no method stands inside a function, the walk is the one that the tables have behind it.
-/

namespace Sable

namespace ScopeForest

/-- A scope shows a name as it is declared, with the scope of its members; types do not count. -/
def Shows (F : ScopeForest) (s : ScopeId) (kind : SymbolKind) (x : Ident) (t? : Option ScopeId) :
    Prop := F.untyped.symbol? s x.name = some ⟨x.name, kind, none, x.span, t?⟩

variable {F G : ScopeForest} {s r : ScopeId} {kind kind' : SymbolKind} {x x' : Ident}
  {t? t?' : Option ScopeId} {t : ScopeId}

/-- A name that is bound is shown. -/
theorem shows_of_symbol? {name : String} {y : Symbol} (h : F.symbol? s name = some y) :
    F.Shows s y.kind ⟨y.name, y.span⟩ y.members? := by
  obtain ⟨-, rfl⟩ := mem_symbols_of_symbol? h
  rw [Shows, symbol?_untyped, h]
  rfl

namespace Shows

/-- A name that is shown is bound, with some type. -/
theorem exists_symbol? (h : F.Shows s kind x t?) :
    ∃ y, F.symbol? s x.name = some y ∧ y.name = x.name ∧ y.kind = kind ∧ y.span = x.span ∧
      y.members? = t? := by
  rw [Shows, symbol?_untyped] at h
  obtain ⟨y, hy, he⟩ := Option.map_eq_some_iff.mp h
  obtain ⟨hname, hkind, -, hspan, hmembers⟩ := Symbol.mk.inj he
  exact ⟨y, hy, hname, hkind, hspan, hmembers⟩

theorem mem_declarations (h : F.Shows s kind x t?) :
    ⟨x.name, kind, none, x.span, t?⟩ ∈ F.declarations s := by
  rw [← symbols_untyped]
  exact (mem_symbols_of_symbol? h).1

theorem declaredMembers? (h : F.Shows s kind x t?) : F.declaredMembers? s x = t? := by
  obtain ⟨y, hy, -, -, hspan, hmembers⟩ := h.exists_symbol?
  simp only [ScopeForest.declaredMembers?, hy, if_pos hspan, hmembers]

theorem binds (h : F.Shows s kind x t?) : F.binds s x = true := by
  obtain ⟨y, hy, -, -, hspan, -⟩ := h.exists_symbol?
  simp [ScopeForest.binds, hy, hspan]

/-- A scope shows a name in one way only. -/
theorem unique (h : F.Shows s kind x t?) (h' : F.Shows s kind' x' t?') (hname : x.name = x'.name) :
    kind = kind' ∧ x = x' ∧ t? = t?' := by
  rw [Shows, hname] at h
  obtain ⟨-, hkind, -, hspan, ht⟩ := Symbol.mk.inj (Option.some.inj (h.symm.trans h'))
  exact ⟨hkind, Ident.mk.injEq .. ▸ ⟨hname, hspan⟩, ht⟩

/-- Where the same is declared, the same is shown. -/
theorem congr (h : F.Shows s kind x t?) (hsame : G.declarations s = F.declarations s) :
    G.Shows s kind x t? := by
  rwa [Shows, symbol?_eq_find?, symbols_untyped, hsame, ← symbols_untyped, ← symbol?_eq_find?]

theorem lt_size (h : F.Shows s kind x t?) : s < F.size := by
  rw [← size_untyped]
  exact lt_size_of_symbol? h

/-- The members of a name lie in the tree of the name. -/
theorem mem_chain (h : F.Shows s kind x (some t)) (hF : F.Sound) (hs : r ∈ F.chain s) :
    r ∈ F.chain t := declaredMembers?_mem hF hs h.declaredMembers?

/-- The members of a name lie in its scope. -/
theorem parent? (h : F.Shows s kind x (some t)) (hF : F.Sound) : F.parent? t = some s := by
  obtain ⟨y, hy, -, -, -, hmembers⟩ := h.exists_symbol?
  exact hF.members (mem_symbols_of_symbol? hy).1 hmembers

end Shows

/-- A scope tells whose members it holds. -/
theorem Owned.shows_unique (h : F.Owned) {s' : ScopeId} (hx : F.Shows s kind x (some t))
    (hx' : F.Shows s' kind' x' (some t)) : s = s' ∧ kind = kind' ∧ x = x' := by
  obtain ⟨hs, he⟩ := h.owner hx.mem_declarations hx'.mem_declarations rfl rfl
  obtain ⟨hname, hkind, -, hspan, -⟩ := Symbol.mk.inj he
  exact ⟨hs, hkind, Ident.mk.injEq .. ▸ ⟨hname, hspan⟩⟩

end ScopeForest

/-! ### What stands at a place -/

/-- A function is bound next to it, and its arguments are bound in its body. -/
structure Head.Bound (F : ScopeForest) (s : ScopeId) (h : Head) (t : ScopeId) : Prop where
  /-- The name is bound, and the body belongs to it. -/
  name : F.Shows s .func h.name (some t)
  /-- The arguments are bound. -/
  arguments : ∀ x ∈ h.argumentNames, F.Shows t .var x none

/-- A type is bound next to it, and its fields are bound among its members. -/
structure TypeDecl.Bound (F : ScopeForest) (s : ScopeId) (d : TypeDecl) (t : ScopeId) : Prop where
  /-- The name is bound, and the members belong to it. -/
  name : F.Shows s .type d.name (some t)
  /-- The fields are bound. -/
  fields : ∀ x ∈ d.fieldNames, F.Shows t .field x none
  /-- Nothing else is bound among them but methods. -/
  only : ∀ {kind x t?}, F.Shows t kind x t? → kind = .method ∨ (kind = .field ∧ x ∈ d.fieldNames)

namespace Visit

/-- What is declared at the place of a visit is bound. -/
def Bound (F : ScopeForest) : Visit → Prop
  | head s h inner? => ∃ t, inner? = some t ∧ (h.receiver? = none → h.Bound F s t)
  | stop s (.typeDecl d) => ∃ t, d.Bound F s t
  | _ => True

/-- The declarations of a visit, behind those in front of it. -/
def declarations (F : ScopeForest) (D : List Declaration) : Visit → List Declaration
  | importing _ _ => []
  | stop s x => x.declarations F D s
  | head s h _ => h.declarations F D s

/-- A visit makes some of a list of declarations, behind those in front of it. -/
structure Makes (F : ScopeForest) (D E : List Declaration) (v : Visit) : Prop where
  /-- The declarations of the visit follow on those in front of it. -/
  follows : D ++ v.declarations F D <+: E
  /-- A body is found in the scope that its declaration opens. -/
  body : ∀ {s h inner?}, v = .head s h inner? → inner? = h.body? F D s

variable {F : ScopeForest} {D E : List Declaration} {s r : ScopeId} {L : List Visit} {v : Visit}

private theorem Leads.isPrefix (h : Leads F D L E) : D <+: E := by
  obtain ⟨K, rfl, -⟩ := h.names_sublist
  exact List.prefix_append ..

private theorem Leads.makes_stop {x : Stop} (h : Leads F (D ++ x.declarations F D s) L E) :
    Makes F D E (.stop s x) := ⟨h.isPrefix, nofun⟩

private theorem Leads.makes_head {hd : Head} (h : Leads F (D ++ hd.declarations F D s) L E) :
    Makes F D E (.head s hd (hd.body? F D s)) := by
  refine ⟨h.isPrefix, fun he => ?_⟩
  obtain ⟨rfl, rfl, rfl⟩ := Visit.head.inj he
  rfl

/-- Each visit of a walk makes its declarations. -/
theorem Leads.makes (h : Leads F D L E) (hv : v ∈ L) : ∃ D₁, Makes F D₁ E v := by
  induction h with
  | nil => cases hv
  | @importing D _ _ _ _ h ih =>
    rcases List.mem_cons.mp hv with rfl | hv
    · exact ⟨D, (List.append_nil D).symm ▸ h.isPrefix, nofun⟩
    · exact ih hv
  | stop h ih =>
    rcases List.mem_cons.mp hv with rfl | hv
    · exact ⟨_, h.makes_stop⟩
    · exact ih hv
  | head h ih =>
    rcases List.mem_cons.mp hv with rfl | hv
    · exact ⟨_, h.makes_head⟩
    · exact ih hv

/-- Each declaration of a walk is made by some visit. -/
theorem Leads.exists_makes (h : Leads F D L E) {d : Declaration} (hd : d ∈ E) :
    d ∈ D ∨ ∃ v ∈ L, ∃ D₁, Makes F D₁ E v ∧ d ∈ v.declarations F D₁ := by
  induction h with
  | nil => exact Or.inl hd
  | importing _ ih =>
    exact (ih hd).imp_right fun ⟨v, hv, hmakes⟩ => ⟨v, List.mem_cons_of_mem _ hv, hmakes⟩
  | stop h ih =>
    rcases ih hd with hd | ⟨v, hv, hmakes⟩
    · exact (List.mem_append.mp hd).imp_right fun hd =>
        ⟨_, List.mem_cons_self .., _, h.makes_stop, hd⟩
    · exact Or.inr ⟨v, List.mem_cons_of_mem _ hv, hmakes⟩
  | head h ih =>
    rcases ih hd with hd | ⟨v, hv, hmakes⟩
    · exact (List.mem_append.mp hd).imp_right fun hd =>
        ⟨_, List.mem_cons_self .., _, h.makes_head, hd⟩
    · exact Or.inr ⟨v, List.mem_cons_of_mem _ hv, hmakes⟩

end Visit

/-! ### Walks on which nothing is refused -/

/-- None of the declarations of a walk is refused if none is reported so. -/
theorem Declaration.refused_eq_false {D D₁ : List Declaration} {d : Declaration}
    (h : refusedFrom [] D = []) (hd : D₁ ++ [d] <+: D) : d.refused D₁ = false := by
  obtain ⟨D₂, rfl⟩ := hd
  rw [List.append_assoc, refusedFrom_append, List.append_eq_nil_iff] at h
  have hfirst := h.2
  rw [List.singleton_append, List.nil_append, refusedFrom, List.append_eq_nil_iff] at hfirst
  by_contra hrefused
  rw [if_pos (Bool.eq_true_of_not_eq_false hrefused)] at hfirst
  cases hfirst.1

/-- A walk has filled a tree, has gone into every body, and none of its declarations is refused. -/
structure Visit.Settles (F : ScopeForest) (r : ScopeId) (L : List Visit) (D : List Declaration) :
    Prop where
  /-- The walk leads to the declarations. -/
  leads : Visit.Leads F [] L D
  /-- The tree has been filled by them. -/
  holds : F.untyped.Holds r D
  /-- None of them is refused. -/
  free : Declaration.refusedFrom [] D = []
  /-- The walk has stayed in the bodies on the way. -/
  inhabits : ∀ v ∈ L, v.Inhabits r L
  /-- It has come to no name twice. -/
  nodup : (L.flatMap Visit.names).Nodup
  /-- It has gone into every body. -/
  entered : Visit.AllEntered L
  /-- The scopes of members are those of one name each. -/
  owned : F.Owned
  /-- The scopes form a forest below the builtin types. -/
  sound : F.Sound
  /-- The tree lies right below the builtin types. -/
  root : F.parent? r = some 0

/-- What declares the name in a head is a function there, or a method. -/
theorem Head.of_declaration? {F : ScopeForest} {D : List Declaration} {s : ScopeId} {h : Head}
    {d : Declaration} (hd : h.declaration? F D s = some d) :
    (h.receiver? = none ∧ d = ⟨s, .func, h.name⟩) ∨ (d.kind = .method ∧
      ∃ p, h.receiver? = some p ∧ Declaration.receiverScope? F D s p = some d.scope ∧
        d.name = h.name) := by
  unfold Head.declaration? at hd
  split at hd
  · next hnone => exact Or.inl ⟨hnone, (Option.some.inj hd).symm⟩
  · next p hp =>
    obtain ⟨t, ht, rfl⟩ := Option.map_eq_some_iff.mp hd
    exact Or.inr ⟨rfl, p, hp, ht, rfl⟩

private theorem Head.kind_of_declaration? {F : ScopeForest} {D : List Declaration} {s : ScopeId}
    {h : Head} {d : Declaration} (hd : h.declaration? F D s = some d) :
    d.kind = .func ∨ d.kind = .method := by
  rcases Head.of_declaration? hd with ⟨-, rfl⟩ | ⟨hkind, -⟩
  · exact Or.inl rfl
  · exact Or.inr hkind

private theorem Head.opensScope_of_declaration? {F : ScopeForest} {D : List Declaration}
    {s : ScopeId} {h : Head} {d : Declaration} (hd : h.declaration? F D s = some d) :
    d.kind.opensScope = true := by
  rcases Head.kind_of_declaration? hd with he | he <;> rw [he] <;> rfl

private theorem Head.isType_of_declaration? {F : ScopeForest} {D : List Declaration}
    {s : ScopeId} {h : Head} {d : Declaration} (hd : h.declaration? F D s = some d) :
    d.kind.isType = false := by
  rcases Head.kind_of_declaration? hd with he | he <;> rw [he] <;> rfl

namespace Visit.Settles

variable {F : ScopeForest} {r s t u : ScopeId} {L : List Visit} {D D₁ : List Declaration}
  {d : Declaration} {kind : SymbolKind} {x : Ident} {names : List Ident} {t? : Option ScopeId}
  (h : Visit.Settles F r L D)
include h

/-- Each declaration binds its name. -/
theorem shows (hd : d ∈ D) :
    F.Shows d.scope d.kind d.name (F.membersOf? d.scope d.name.name) := by
  obtain ⟨D₁, D₂, rfl⟩ := List.append_of_mem hd
  have hrefused : d.refused D₁ = false := Declaration.refused_eq_false h.free ⟨D₂, by simp⟩
  have hnone : Declaration.first? D₁ d.scope d.name.name = none :=
    Option.not_isSome_iff_eq_none.mp (Bool.eq_false_iff.mp hrefused)
  have hfirst : Declaration.first? (D₁ ++ d :: D₂) d.scope d.name.name = some d := by
    rw [Declaration.first?_append, hnone, Option.none_or]
    simp [Declaration.first?]
  have hscope : r ∈ F.untyped.chain d.scope := h.holds.inside d hd
  have hbinds := h.holds.binds d.scope hscope d.name.name
  rw [hfirst, ScopeForest.symbol?_untyped] at hbinds
  cases hy : F.symbol? d.scope d.name.name with
  | none =>
    rw [hy] at hbinds
    cases hbinds
  | some y =>
    rw [hy] at hbinds
    cases hbinds with
    | some hbinds =>
      have hshows := ScopeForest.shows_of_symbol? hy
      obtain ⟨-, hname⟩ := ScopeForest.mem_symbols_of_symbol? hy
      have hident : (⟨y.name, y.span⟩ : Ident) = d.name := Ident.mk.injEq .. ▸ ⟨hname, hbinds.span⟩
      have hkind : y.kind = d.kind := hbinds.kind
      rwa [hident, hkind, ← show F.membersOf? d.scope d.name.name = y.members? by
        rw [ScopeForest.membersOf?, hy, Option.bind_some]] at hshows

/-- A name that the tree binds has been declared. -/
theorem mem_of_shows (hs : r ∈ F.chain s) (hx : F.Shows s kind x t?) : ⟨s, kind, x⟩ ∈ D := by
  have hbinds := h.holds.binds s (by rwa [ScopeForest.chain_untyped]) x.name
  rw [show F.untyped.symbol? s x.name = _ from hx] at hbinds
  generalize hfirst : Declaration.first? D s x.name = e at hbinds
  cases hbinds with
  | @some e _ hbinds =>
    obtain ⟨hmem, hscope, hname⟩ := Declaration.of_first? hfirst
    have hident : x = e.name := Ident.mk.injEq .. ▸ ⟨hname.symm, hbinds.span⟩
    have hkind : kind = e.kind := hbinds.kind
    exact hident ▸ hkind ▸ hscope ▸ hmem

theorem mem_chain (hd : d ∈ D) : r ∈ F.chain d.scope := by
  rw [← ScopeForest.chain_untyped]
  exact h.holds.inside d hd

/-- A declaration opens the scope that its name has for members. -/
theorem inner?_eq (hd : D₁ ++ [d] <+: D) :
    d.inner? F D₁ = F.membersOf? d.scope d.name.name := by
  rw [Declaration.inner?, Declaration.refused_eq_false h.free hd, if_neg Bool.false_ne_true]

/-- A declaration with names inside it binds these in the scope that it opens. -/
theorem exists_of_withNames (hd : D₁ ++ d.withNames F D₁ kind names <+: D)
    (hopens : d.kind.opensScope = true) (hkind : kind.opensScope = false) :
    ∃ t, d.inner? F D₁ = some t ∧ F.Shows d.scope d.kind d.name (some t) ∧
      ∀ x ∈ names, F.Shows t kind x none := by
  have hpre : D₁ ++ [d] <+: D :=
    List.IsPrefix.trans ((List.prefix_append_right_inj D₁).mpr ⟨_, rfl⟩) hd
  have hmem : d ∈ D := hpre.subset (by simp)
  have hshows := h.shows hmem
  have hsome : (F.membersOf? d.scope d.name.name).isSome = true :=
    (h.owned.isSome hshows.mem_declarations).trans hopens
  obtain ⟨t, ht⟩ := Option.isSome_iff_exists.mp hsome
  have hinner := (h.inner?_eq hpre).trans ht
  refine ⟨t, hinner, ht ▸ hshows, fun x hx => ?_⟩
  have hx' := h.shows (d := ⟨t, kind, x⟩) (hd.subset ?_)
  · have hnone : F.membersOf? t x.name = none := by
      have hclosed := (h.owned.isSome hx'.mem_declarations).trans hkind
      exact Option.not_isSome_iff_eq_none.mp (Bool.eq_false_iff.mp hclosed)
    exact hnone ▸ hx'
  · rw [Declaration.withNames, hinner]
    exact List.mem_append_right _ (List.mem_cons_of_mem _ (List.mem_map_of_mem hx))

/-! ### Bodies and members -/

/-- The head of a function or a method that is visited is declared, with the scope of its body. -/
theorem exists_of_head {hd : Head} {inner? : Option ScopeId} (hv : .head s hd inner? ∈ L)
    (hmakes : Makes F D₁ D (.head s hd inner?)) :
    ∃ d t, hd.declaration? F D₁ s = some d ∧ d.inner? F D₁ = some t ∧ inner? = some t ∧
      F.Shows d.scope d.kind d.name (some t) ∧ ∀ x ∈ hd.argumentNames, F.Shows t .var x none := by
  have hinner : inner? = (hd.declaration? F D₁ s).bind (Declaration.inner? F D₁) := hmakes.body rfl
  have hsome := h.entered _ _ _ hv
  cases hd' : hd.declaration? F D₁ s with
  | none =>
    rw [hinner, hd'] at hsome
    cases hsome
  | some d =>
    have hfollows := hmakes.follows
    rw [Visit.declarations, Head.declarations, hd', Option.elim_some] at hfollows
    obtain ⟨t, ht, hshows, hnames⟩ :=
      h.exists_of_withNames hfollows (Head.opensScope_of_declaration? hd') rfl
    exact ⟨d, t, rfl, ht, by rw [hinner, hd', Option.bind_some, ht], hshows, hnames⟩

/-- The scope of a visit holds no members of a type. -/
theorem isType_of_scope {v : Visit} (hv : v ∈ L) (hs : r ∈ F.chain s)
    (hx : F.Shows s kind x (some v.scope)) : kind.isType = false := by
  rcases h.inhabits v hv with hroot | ⟨s', hd, hbody⟩
  · -- The outermost scope of the tree lies in no other scope of it.
    have hparent := hx.parent? h.sound
    rw [hroot, h.root] at hparent
    exact absurd (Option.some.inj hparent).symm (ScopeForest.ne_zero_of_mem_chain h.sound h.root hs)
  · obtain ⟨D₁, hmakes⟩ := h.leads.makes hbody
    obtain ⟨d, t, hd', -, ht, hshows, -⟩ := h.exists_of_head hbody hmakes
    obtain rfl := Option.some.inj ht
    obtain ⟨-, rfl, -⟩ := h.owned.shows_unique hx hshows
    exact Head.isType_of_declaration? hd'

/-- The members of a type are its fields and methods. -/
theorem members_of_typeDecl {d : TypeDecl} (hv : .stop s (.typeDecl d) ∈ L)
    (ht : F.Shows s .type d.name (some t)) (hs : r ∈ F.chain s) (hx : F.Shows t kind x t?) :
    kind = .method ∨ (kind = .field ∧ x ∈ d.fieldNames) := by
  have hmem := h.mem_of_shows (ht.mem_chain h.sound hs) hx
  have houter : ∀ v ∈ L, t ≠ v.scope := by
    rintro v hv rfl
    exact Bool.noConfusion (h.isType_of_scope hv hs ht)
  obtain ⟨v, hv', D₁, hmakes, hd⟩ := (h.leads.exists_makes hmem).resolve_left List.not_mem_nil
  cases v with
  | importing s' i => cases hd
  | stop s' y =>
    cases y with
    | typeDecl d' =>
      obtain ⟨u, hu, hshows, -⟩ := h.exists_of_withNames hmakes.follows rfl rfl
      rcases List.mem_cons.mp hd with he | hd
      · exact absurd (Declaration.mk.inj he).1 (houter _ hv')
      · rw [hu, Option.elim_some] at hd
        obtain ⟨x', hx', he⟩ := List.mem_map.mp hd
        obtain ⟨rfl, rfl, rfl⟩ := Declaration.mk.inj he
        obtain ⟨rfl, -, hname⟩ := h.owned.shows_unique ht hshows
        -- A name is declared once, so the field stands in the declaration of the type.
        have hsame := Visit.eq_of_mem_names h.nodup hv hv' (List.mem_cons_self ..)
          (show d.name ∈ d'.name :: d'.fieldNames from hname ▸ List.mem_cons_self ..)
        obtain ⟨-, he⟩ := Visit.stop.inj hsame
        exact Or.inr ⟨rfl, (Stop.typeDecl.inj he).symm ▸ hx'⟩
    | declaring isConst targets values span =>
      obtain ⟨b, -, he⟩ := List.mem_map.mp hd
      exact absurd (Declaration.mk.inj he).1.symm (houter _ hv')
    | _ => cases hd
  | head s' hd' inner? =>
    obtain ⟨e, u, he, hu, -, hshows, -⟩ := h.exists_of_head hv' hmakes
    rw [Visit.declarations, Head.declarations, he, Option.elim_some] at hd
    rcases List.mem_cons.mp hd with rfl | hd
    · rcases Head.of_declaration? he with ⟨-, he⟩ | ⟨hkind, -⟩
      · exact absurd (Declaration.mk.inj he).1 (houter _ hv')
      · exact Or.inl hkind
    · rw [hu, Option.elim_some] at hd
      obtain ⟨x', hx', he'⟩ := List.mem_map.mp hd
      obtain ⟨rfl, -, -⟩ := Declaration.mk.inj he'
      obtain ⟨-, hkind, -⟩ := h.owned.shows_unique ht hshows
      have htype := Head.isType_of_declaration? he
      rw [← hkind] at htype
      cases htype

/-- What is declared at the places of the walk is bound. -/
theorem bound {v : Visit} (hv : v ∈ L) : v.Bound F := by
  obtain ⟨D₁, hmakes⟩ := h.leads.makes hv
  cases v with
  | importing s i => trivial
  | stop s x =>
    cases x with
    | typeDecl d =>
      obtain ⟨t, ht, hshows, hnames⟩ := h.exists_of_withNames hmakes.follows rfl rfl
      have hs := h.mem_chain (d := ⟨s, .type, d.name⟩)
        (hmakes.follows.subset (List.mem_append_right _ (List.mem_cons_self ..)))
      exact ⟨t, hshows, hnames, h.members_of_typeDecl hv hshows hs⟩
    | _ => trivial
  | head s hd inner? =>
    obtain ⟨d, t, hd', -, ht, hshows, hnames⟩ := h.exists_of_head hv hmakes
    refine ⟨t, ht, fun hnone => ⟨?_, hnames⟩⟩
    rw [Head.declaration?, hnone] at hd'
    obtain rfl := Option.some.inj hd'
    exact hshows

/-- A type that has been declared in the scope that the walk starts in is found there. -/
private theorem typeMembers?_eq {v : Visit} (hmakes : Makes F D₁ D v) {p : Param} {name : Ident}
    (hp : p.ty = .named name) (ht : Declaration.receiverScope? F D₁ r p = some t) :
    F.typeMembers? r name.name = some t := by
  have hchain := ScopeForest.chain_of_root h.sound h.root
  simp only [Declaration.receiverScope?, hp] at ht
  obtain ⟨e, he, ht⟩ := Option.bind_eq_some_iff.mp ht
  obtain ⟨htype, ht⟩ := Option.ite_none_right_eq_some.mp ht
  have hfound : ∀ {s'}, Declaration.first? D₁ s' name.name = some e →
      e ∈ D ∧ e.scope = s' ∧ e.name.name = name.name := fun hfirst =>
    (Declaration.of_first? hfirst).imp_left fun hmem =>
      hmakes.follows.subset (List.mem_append_left _ hmem)
  have hfirst : Declaration.first? D₁ r name.name = some e := by
    rw [hchain, List.findSome?_cons, List.findSome?_singleton] at he
    cases hr : Declaration.first? D₁ r name.name with
    | some e' => rwa [hr] at he
    | none =>
      rw [hr] at he
      obtain ⟨hmem, hzero, -⟩ := hfound he
      exact absurd hzero (ScopeForest.ne_zero_of_mem_chain h.sound h.root (h.mem_chain hmem))
  obtain ⟨hmem, hscope, hname⟩ := hfound hfirst
  obtain ⟨y, hy, -, hkind, -, hmembers⟩ := (h.shows hmem).exists_symbol?
  rw [hscope, hname] at hy hmembers
  rw [hscope] at ht
  have hvisible : F.visible? r name.name = some y := by
    simp [ScopeForest.visible?, ScopeForest.locate?, hchain, hy]
  simp only [ScopeForest.typeMembers?, hvisible, hkind, htype, ↓reduceIte, hmembers, ht]

/-- The body of a method in the scope that the walk starts in is where the tables have it. -/
private theorem methodBody?_eq {hd : Head} {p : Param} {inner? : Option ScopeId}
    (hv : .head r hd inner? ∈ L) (hp : hd.receiver? = some p) :
    F.methodBody? r p hd.name = inner? := by
  obtain ⟨D₁, hmakes⟩ := h.leads.makes hv
  obtain ⟨d, t, hd', -, rfl, hshows, -⟩ := h.exists_of_head hv hmakes
  rcases Head.of_declaration? hd' with ⟨hnone, -⟩ | ⟨-, q, hq, hscope, hname⟩
  · rw [hp] at hnone
    cases hnone
  obtain rfl := Option.some.inj (hp.symm.trans hq)
  have hty : ∃ name, p.ty = .named name := by
    unfold Declaration.receiverScope? at hscope
    split at hscope
    · next name hty => exact ⟨name, hty⟩
    · cases hscope
  obtain ⟨name, hty⟩ := hty
  have hmembers := h.typeMembers?_eq hmakes hty hscope
  simp only [ScopeForest.methodBody?, Context.methodScope, hty, hmembers, Option.bind_some,
    ← hname, hshows.declaredMembers?]

/-- The walk is the one that the tables have, if all methods stand in the scope that it starts in. -/
theorem eq_visitsAll {ys : List Step} (hL : Spells r ys L)
    (hys : ∀ y ∈ ys, y.enclosedReceivers = []) : L = F.visitsAll r ys := by
  refine hL.eq_visitsAll fun s hd inner? hv => ?_
  rw [ScopeForest.bodyOf?]
  cases hp : hd.receiver? with
  | none =>
    obtain ⟨t, rfl, hbound⟩ := h.bound hv
    exact (hbound hp).name.declaredMembers?.symm
  | some p =>
    obtain rfl := hL.scope_of_method hys hv hp
    exact (h.methodBody?_eq hv hp).symm

end Visit.Settles

end Sable
