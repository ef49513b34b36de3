import Sable.Proofs.Scope.Binding
import Sable.Proofs.Scope.Nested

/-!
# The nearest scope

A walk outward stops at the nearest scope that has something to say. So a name means what the
nearest scope that holds it declares, and a declaration is local: it is refused by its own scope
alone, and of all lookups it changes those of its name that walk past no other declaration of it
before they come to its scope.
-/

namespace Sable.ScopeForest

/-- From a scope outward another one is reached, and no scope in front of it has a property. -/
structure Sees (F : ScopeForest) (P : ScopeId → Prop) (s t : ScopeId) : Prop where
  /-- The scope that is reached is the one started from, or lies around it. -/
  around : F.Around s t
  /-- No scope from the one started from up to the one reached has the property. -/
  clear : ∀ u, F.Around s u → F.Around u t → u ≠ t → ¬ P u

/-- A scope declares a name itself. -/
def Declares (F : ScopeForest) (name : String) (s : ScopeId) : Prop :=
  ∃ x ∈ F.symbols s, x.name = name

variable {F G : ScopeForest} {s t : ScopeId}

theorem declares_iff {name : String} : F.Declares name s ↔ F.symbol? s name ≠ none := by
  rw [ne_eq, symbol?_eq_none_iff, List.mem_map, not_not, Declares]

/-! ### Walks outward, step by step -/

/-- What lies around a scope is the scope, or lies around the one around it. -/
theorem around_iff : F.Around s t ↔ t = s ∨ ∃ p, F.parent? s = some p ∧ F.Around p t :=
  Relation.ReflTransGen.cases_head_iff.trans (or_congr_left eq_comm)

namespace Nested

/-- Scopes that lie around each other are one. -/
theorem around_antisymm (h : F.Nested) (hst : F.Around s t) (hts : F.Around t s) : s = t :=
  Nat.le_antisymm (h.le_of_around hts) (h.le_of_around hst)

/-- A walk outward stops at its start, or goes on in the scope around if nothing stops it. -/
theorem sees_iff (h : F.Nested) {P : ScopeId → Prop} :
    F.Sees P s t ↔ t = s ∨ ¬ P s ∧ ∃ p, F.parent? s = some p ∧ F.Sees P p t := by
  constructor
  · intro hsees
    rcases around_iff.mp hsees.around with rfl | ⟨p, hp, hpt⟩
    · exact Or.inl rfl
    · have hst : s ≠ t := by
        rintro rfl
        exact absurd (h.le_of_around hpt) (Nat.not_le_of_lt (h.parent_lt hp))
      exact Or.inr ⟨hsees.clear s .refl hsees.around hst, p, hp, hpt,
        fun u hu => hsees.clear u (hu.head hp)⟩
  · rintro (rfl | ⟨hs, p, hp, hsees⟩)
    · exact ⟨.refl, fun u hu hus hne => absurd (h.around_antisymm hus hu) hne⟩
    · refine ⟨hsees.around.head hp, fun u hu hut hne => ?_⟩
      rcases around_iff.mp hu with rfl | ⟨q, hq, hqu⟩
      · exact hs
      · obtain rfl := Option.some.inj (hp.symm.trans hq)
        exact hsees.clear u hqu hut hne

/-! ### Searches outward -/

section Search

variable {α : Type} {f : ScopeId → Option α}

/-- A search outward finds what the nearest scope has that has anything. -/
theorem findSome?_chain_eq_some_iff (h : F.Nested) (hf : ∀ s : Nat, F.size ≤ s → f s = none)
    {y : α} : (F.chain s).findSome? f = some y ↔
      ∃ t, F.Sees (fun u => f u ≠ none) s t ∧ f t = some y := by
  induction s using Nat.strong_induction_on with
  | _ s ih =>
    rw [h.findSome?_chain (hf s)]
    cases hs : f s with
    | some z =>
      rw [Option.some_or]
      refine ⟨fun hz => ⟨s, h.sees_iff.mpr (Or.inl rfl), hs.trans hz⟩, ?_⟩
      rintro ⟨t, ht, hy⟩
      rcases h.sees_iff.mp ht with rfl | ⟨hnone, -⟩
      · exact hs.symm.trans hy
      · exact absurd hs fun hs => hnone (by simp [hs])
    | none =>
      rw [Option.none_or]
      constructor
      · intro hfind
        obtain ⟨p, hp, hfind⟩ := Option.bind_eq_some_iff.mp hfind
        obtain ⟨t, ht, hy⟩ := (ih p (h.parent_lt hp)).mp hfind
        exact ⟨t, h.sees_iff.mpr (Or.inr ⟨not_not.mpr hs, p, hp, ht⟩), hy⟩
      · rintro ⟨t, ht, hy⟩
        rcases h.sees_iff.mp ht with rfl | ⟨-, p, hp, htp⟩
        · cases hs.symm.trans hy
        · exact Option.bind_eq_some_iff.mpr ⟨p, hp, (ih p (h.parent_lt hp)).mpr ⟨t, htp, hy⟩⟩

/-- A search outward finds nothing just if no scope around has anything. -/
theorem findSome?_chain_eq_none_iff (h : F.Nested) (hf : ∀ s : Nat, F.size ≤ s → f s = none) :
    (F.chain s).findSome? f = none ↔ ∀ t, F.Around s t → f t = none := by
  induction s using Nat.strong_induction_on with
  | _ s ih =>
    rw [h.findSome?_chain (hf s), Option.or_eq_none_iff]
    constructor
    · rintro ⟨hs, hbind⟩ t ht
      rcases around_iff.mp ht with rfl | ⟨p, hp, hpt⟩
      · exact hs
      · rw [hp, Option.bind_some] at hbind
        exact (ih p (h.parent_lt hp)).mp hbind t hpt
    · intro hall
      refine ⟨hall s .refl, ?_⟩
      cases hp : F.parent? s with
      | none => rfl
      | some p => exact (ih p (h.parent_lt hp)).mpr fun t ht => hall t (ht.head hp)

end Search

/-- A name means what the nearest scope that holds it declares. -/
theorem locate?_eq_some_iff (h : F.Nested) {name : String} {x : Symbol} :
    F.locate? s name = some (t, x) ↔
      F.Sees (F.Declares name) s t ∧ x ∈ F.symbols t ∧ x.name = name := by
  have hP : (fun u => (F.symbol? u name).map (Prod.mk u) ≠ none) = F.Declares name := by
    funext u
    rw [ne_eq, Option.map_eq_none_iff, declares_iff]
  rw [locate?, h.findSome?_chain_eq_some_iff fun u hu => by simp [symbol?, scope?_eq_none hu], hP]
  constructor
  · rintro ⟨u, hu, hfind⟩
    obtain ⟨y, hy, hyx⟩ := Option.map_eq_some_iff.mp hfind
    obtain ⟨rfl, rfl⟩ := Prod.mk.inj hyx
    exact ⟨hu, h.symbol?_eq_some_iff.mp hy⟩
  · rintro ⟨ht, hx⟩
    exact ⟨t, ht, by rw [h.symbol?_eq_some_iff.mpr hx, Option.map_some]⟩

/-- A name means nothing just if no scope around holds it. -/
theorem locate?_eq_none_iff (h : F.Nested) {name : String} :
    F.locate? s name = none ↔ ∀ t, F.Around s t → ¬ F.Declares name t := by
  rw [locate?, h.findSome?_chain_eq_none_iff fun u hu => by simp [symbol?, scope?_eq_none hu]]
  simp only [Option.map_eq_none_iff, declares_iff, not_not]

end Nested

/-! ### Declarations -/

/-- A kind with members has a scope opened for them, and no other scope is opened. -/
theorem members?_declare {name : Ident} {kind : SymbolKind} {ty? : Option Ty}
    {members? : Option ScopeId} (h : F.declare s name kind ty? = .ok (members?, G)) :
    members? = (if kind.opensScope then some F.size else none) ∧
      G.size = F.size + (if kind.opensScope then 1 else 0) := by
  unfold declare at h
  split at h
  · cases h
  cases hkind : kind.opensScope
  · simp only [hkind, Bool.false_eq_true, ↓reduceIte] at h
    obtain ⟨rfl, rfl⟩ := Prod.mk.inj (Except.ok.inj h)
    exact ⟨rfl, size_modify ..⟩
  · simp only [hkind, ↓reduceIte] at h
    obtain ⟨rfl, rfl⟩ := Prod.mk.inj (Except.ok.inj h)
    exact ⟨rfl, (size_modify ..).trans (size_openScope ..)⟩

/-- A declaration is refused just if its own scope holds the name. -/
theorem declare_error_iff {name : Ident} {kind : SymbolKind} {ty? : Option Ty}
    {e : DuplicateSymbol} : F.declare s name kind ty? = .error e ↔
      F.Declares name.name s ∧ e = ⟨name.name, name.span⟩ := by
  constructor
  · intro h
    obtain ⟨hbound, he⟩ := of_declare_error h
    exact ⟨declares_iff.mpr (Option.isSome_iff_ne_none.mp hbound), he⟩
  · rintro ⟨hbound, rfl⟩
    rw [declare, if_pos (Option.isSome_iff_ne_none.mpr (declares_iff.mp hbound))]

/--
A declaration is found from where the way to its scope is clear of other declarations of its name.
All other lookups stay what they are.
-/
theorem Nested.locate?_declare (h : F.Nested) {s : Nat} (hs : s < F.size) {name : Ident}
    {kind : SymbolKind} {ty? : Option Ty} {members? : Option ScopeId}
    (hd : F.declare s name kind ty? = .ok (members?, G)) {t : Nat} (ht : t < F.size)
    (other : String) :
    (other = name.name ∧ F.Sees (F.Declares other) t s →
      G.locate? t other = some (s, ⟨name.name, kind, ty?, name.span, members?⟩)) ∧
    (¬ (other = name.name ∧ F.Sees (F.Declares other) t s) →
      G.locate? t other = F.locate? t other) := by
  have hG := h.declare hs hd
  have hparent := (precedes_declare hd).parent
  have hsymbol := symbol?_declare hs hd
  induction t using Nat.strong_induction_on with
  | _ t ih =>
    rw [hG.locate?_eq, h.locate?_eq, hsymbol, hparent t ht, h.sees_iff]
    by_cases hnew : t = s ∧ other = name.name
    · rw [if_pos hnew]
      exact ⟨fun _ => by rw [hnew.1], fun hnot => absurd ⟨hnew.2, Or.inl hnew.1.symm⟩ hnot⟩
    · rw [if_neg hnew]
      cases hx : F.symbol? t other with
      | some x =>
        refine ⟨?_, fun _ => rfl⟩
        rintro ⟨rfl, rfl | ⟨hnone, -⟩⟩
        · exact absurd ⟨rfl, rfl⟩ hnew
        · exact absurd (declares_iff.mpr (by simp [hx])) hnone
      | none =>
        have hfree : ¬ F.Declares other t := fun hdeclares => declares_iff.mp hdeclares hx
        cases hp : F.parent? t with
        | none =>
          refine ⟨?_, fun _ => rfl⟩
          rintro ⟨rfl, rfl | ⟨-, p, ⟨⟩, -⟩⟩
          exact absurd ⟨rfl, rfl⟩ hnew
        | some p =>
          have hlt := h.parent_lt hp
          obtain ⟨hseen, hsame⟩ := ih p hlt (hlt.trans ht)
          constructor
          · rintro ⟨rfl, rfl | ⟨-, q, ⟨rfl⟩, hsees⟩⟩
            · exact absurd ⟨rfl, rfl⟩ hnew
            · exact hseen ⟨rfl, hsees⟩
          · exact fun hnot => hsame fun hsees =>
              hnot ⟨hsees.1, Or.inr ⟨hfree, p, rfl, hsees.2⟩⟩

/-- From the scope of the members of a new name, all is found that is found from its own scope. -/
theorem Nested.locate?_members (h : F.Nested) {s : Nat} (hs : s < F.size) {name : Ident}
    {kind : SymbolKind} {ty? : Option Ty} {c : ScopeId}
    (hd : F.declare s name kind ty? = .ok (some c, G)) (other : String) :
    G.locate? c other = G.locate? s other := by
  have hG := h.declare hs hd
  have hbound := hG.symbol?_eq_some_iff.mp
    ((symbol?_declare hs hd s name.name).trans (if_pos ⟨rfl, rfl⟩))
  have hc : c = F.size := by
    have hmembers := (members?_declare hd).1
    split at hmembers
    · exact Option.some.inj hmembers
    · cases hmembers
  have hempty : G.symbol? c other = none := by
    rw [symbol?_declare hs hd, if_neg fun hcs => hs.ne (hcs.1.symm.trans hc), symbol?,
      scope?_eq_none hc.ge, Option.bind_none]
  rw [hG.locate?_eq c, hempty, hG.members hbound.1 rfl, Option.bind_some]

/--
Declaration is local and lookup is innermost, in any forest that changes have built. A declaration
is refused just if its own scope holds the name, and then nothing has changed. One that is not
refused opens a scope at most, for the members of its name, from which all is found that is found
from its scope. It is found from exactly those scopes from which its own is reached without passing
another declaration of its name, and no other lookup of any name changes. And in any such forest a
name means what the nearest scope that holds it declares, and nothing if no scope around does.
-/
theorem Built.declare_local_and_locate_nearest (h : F.Built) :
    (∀ (s : Nat) (name : Ident) (kind : SymbolKind) (ty? : Option Ty), s < F.size →
      ((∃ e, F.declare s name kind ty? = .error e) ↔ F.Declares name.name s) ∧
      (∀ e, F.declare s name kind ty? = .error e →
        e = ⟨name.name, name.span⟩ ∧ (Change.declare s name kind ty?).apply F = F) ∧
      ∀ members? G, F.declare s name kind ty? = .ok (members?, G) →
        G.size = F.size + (if kind.opensScope then 1 else 0) ∧
        (∀ c ∈ members?, c = F.size ∧ ∀ other, G.locate? c other = G.locate? s other) ∧
        ∀ (t : Nat) (other : String), t < F.size →
          (other = name.name ∧ F.Sees (F.Declares other) t s →
            G.locate? t other = some (s, ⟨name.name, kind, ty?, name.span, members?⟩)) ∧
          (¬ (other = name.name ∧ F.Sees (F.Declares other) t s) →
            G.locate? t other = F.locate? t other)) ∧
    (∀ s t name x, F.locate? s name = some (t, x) ↔
      F.Sees (F.Declares name) s t ∧ x ∈ F.symbols t ∧ x.name = name) ∧
    ∀ s name, F.locate? s name = none ↔ ∀ t, F.Around s t → ¬ F.Declares name t := by
  have hn := h.nested
  refine ⟨fun s name kind ty? hs => ⟨?_, ?_, ?_⟩, fun s t name x => hn.locate?_eq_some_iff,
    fun s name => hn.locate?_eq_none_iff⟩
  · simp only [declare_error_iff, exists_and_left, exists_eq, and_true]
  · intro e he
    exact ⟨(declare_error_iff.mp he).2, by simp only [Change.apply, he]⟩
  · intro members? G hd
    obtain ⟨hmembers, hsize⟩ := members?_declare hd
    refine ⟨hsize, ?_, fun t other ht => hn.locate?_declare hs hd ht other⟩
    rintro c rfl
    refine ⟨?_, hn.locate?_members hs hd⟩
    split at hmembers
    · exact Option.some.inj hmembers
    · cases hmembers

/-- Three nested scopes, the outermost of which declares a variable. -/
def variableOutside : ScopeForest :=
  [.openScope none .global, .openScope (some 0) .function, .openScope (some 1) .function,
    .declare 0 ⟨"x", Span.nowhere⟩ .var none].foldl Change.apply empty

/-- A function of the same name in the middle is found from inside, and not from outside. -/
theorem locate?_variableOutside :
    variableOutside.Built ∧ 1 < variableOutside.size ∧
      variableOutside.Sees (variableOutside.Declares "x") 2 1 ∧
      ∃ G, variableOutside.declare 1 ⟨"x", Span.nowhere⟩ .func none = .ok (some 3, G) ∧
        G.locate? 2 "x" = some (1, ⟨"x", .func, none, Span.nowhere, some 3⟩) ∧
        G.locate? 0 "x" = variableOutside.locate? 0 "x" := by
  have hbuilt : variableOutside.Built := Built.empty.foldl (by decide)
  have hopen : 1 < variableOutside.size := by decide
  have hfree : ¬ variableOutside.Declares "x" 2 := by
    rw [declares_iff, not_not]
    rfl
  have hsees : variableOutside.Sees (variableOutside.Declares "x") 2 1 :=
    hbuilt.nested.sees_iff.mpr
      (Or.inr ⟨hfree, 1, rfl, hbuilt.nested.sees_iff.mpr (Or.inl rfl)⟩)
  have hunseen : ¬ variableOutside.Sees (variableOutside.Declares "x") 0 1 :=
    fun h => absurd (hbuilt.nested.le_of_around h.around) (by decide)
  obtain ⟨G, hG⟩ : ∃ G, variableOutside.declare 1 ⟨"x", Span.nowhere⟩ .func none =
    .ok (some 3, G) := ⟨_, rfl⟩
  have hlocal := (hbuilt.declare_local_and_locate_nearest.1 1 ⟨"x", Span.nowhere⟩ .func none
    hopen).2.2 (some 3) G hG
  exact ⟨hbuilt, hopen, hsees, G, hG, (hlocal.2.2 2 "x" (by decide)).1 ⟨rfl, hsees⟩,
    (hlocal.2.2 0 "x" (by decide)).2 fun h => hunseen h.2⟩

end Sable.ScopeForest
