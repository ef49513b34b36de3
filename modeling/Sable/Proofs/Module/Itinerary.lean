import Sable.Proofs.Module.History
import Sable.Proofs.Scope.Lookup

/-!
# Itineraries

The tables of a forest say which scope belongs to the head of a function or a method. From them
all visits of a walk over a program can be read off: its itinerary. The passes behind the first
one change no declaration, so they visit a module along the itinerary that its tables give.
-/

namespace Sable

/-- The scope that a visit is made in. -/
def Visit.scope : Visit → ScopeId
  | importing s _ => s
  | stop s _ => s
  | head s _ _ => s

namespace ScopeForest

/-- The scope of the body behind a head, as the tables have it. -/
def bodyOf? (F : ScopeForest) (s : ScopeId) (h : Head) : Option ScopeId :=
  match h.receiver? with
  | none => F.declaredMembers? s h.name
  | some receiver => F.methodBody? s receiver h.name

/-- The scope behind a head lies where it lies without the types. -/
theorem bodyOf?_untyped (F : ScopeForest) (s : ScopeId) (h : Head) :
    F.untyped.bodyOf? s h = F.bodyOf? s h := by
  simp only [bodyOf?, declaredMembers?_untyped, methodBody?_untyped]

/-- Tables with the same declarations lead to the same bodies. -/
theorem bodyOf?_congr {F G : ScopeForest} (h : G.untyped = F.untyped) (s : ScopeId) (hd : Head) :
    G.bodyOf? s hd = F.bodyOf? s hd := by
  rw [← bodyOf?_untyped, h, bodyOf?_untyped]

mutual

/-- The visits of a walk that follows a step, as the tables have them. -/
def visits (F : ScopeForest) (s : ScopeId) : Step → List Visit
  | .importing i => [.importing s i]
  | .stop x => [.stop s x]
  | .body h inner =>
    .head s h (F.bodyOf? s h) ::
      match F.bodyOf? s h with
      | none => []
      | some t => visitsAll F t inner

/-- The visits of a walk that follows a script, as the tables have them. -/
def visitsAll (F : ScopeForest) (s : ScopeId) : List Step → List Visit
  | [] => []
  | y :: ys => visits F s y ++ visitsAll F s ys

end

theorem visitsAll_eq_flatMap (F : ScopeForest) (s : ScopeId) (ys : List Step) :
    F.visitsAll s ys = ys.flatMap (F.visits s) := by
  induction ys with
  | nil => rfl
  | cons y ys ih => rw [visitsAll, ih, List.flatMap_cons]

@[simp] theorem visitsAll_append (F : ScopeForest) (s : ScopeId) (ys zs : List Step) :
    F.visitsAll s (ys ++ zs) = F.visitsAll s ys ++ F.visitsAll s zs := by
  simp only [visitsAll_eq_flatMap, List.flatMap_append]

/-- Who comes to the end of a declaration of variables has come to its front. -/
theorem exists_declaring {F : ScopeForest} {s t : ScopeId} {ys : List Step} (h : Step.Paired ys)
    {targets : List VarBinder} {values : List Expr}
    (hmem : .stop t (.declared targets values) ∈ F.visitsAll s ys) :
    ∃ isConst span, .stop t (.declaring isConst targets values span) ∈ F.visitsAll s ys := by
  induction h generalizing s with
  | nil => cases hmem
  | append _ _ ihy ihz =>
    rw [visitsAll_append] at hmem ⊢
    rcases List.mem_append.mp hmem with hmem | hmem
    · obtain ⟨isConst, span, hfront⟩ := ihy hmem
      exact ⟨isConst, span, List.mem_append_left _ hfront⟩
    · obtain ⟨isConst, span, hfront⟩ := ihz hmem
      exact ⟨isConst, span, List.mem_append_right _ hfront⟩
  | importing i =>
    cases List.mem_singleton.mp hmem
  | stop hx =>
    obtain ⟨-, rfl⟩ := Visit.stop.inj (List.mem_singleton.mp hmem)
    exact absurd rfl (hx targets values)
  | @body ys hd _ ih =>
    simp only [visitsAll, visits, List.append_nil] at hmem ⊢
    have hmem := (List.mem_cons.mp hmem).resolve_left nofun
    split at hmem
    · cases hmem
    · next inner hinner =>
      obtain ⟨isConst, span, hfront⟩ := ih hmem
      exact ⟨isConst, span, List.mem_cons_of_mem _ hfront⟩
  | @declares ys isConst targets' values' span _ ih =>
    rw [visitsAll, visits, visitsAll_append] at hmem ⊢
    rcases List.mem_append.mp hmem with hmem | hmem
    · cases List.mem_singleton.mp hmem
    · rcases List.mem_append.mp hmem with hmem | hmem
      · obtain ⟨isConst', span', hfront⟩ := ih hmem
        exact ⟨isConst', span', List.mem_append_right _ (List.mem_append_left _ hfront)⟩
      · obtain ⟨rfl, hx⟩ := Visit.stop.inj (List.mem_singleton.mp hmem)
        obtain ⟨rfl, rfl⟩ := Stop.declared.inj hx
        exact ⟨isConst, span, List.mem_append_left _ (List.mem_singleton_self _)⟩

/-- The itinerary of a module. -/
def itinerary (F : ScopeForest) (m : Module) : List Visit := F.visitsAll m.root m.program.steps

mutual

private theorem spells_visits (F : ScopeForest) {ys : List Step} {L : List Visit} :
    ∀ (s : ScopeId) (y : Step), Spells s ys L → Spells s (y :: ys) (F.visits s y ++ L)
  | _, .importing _, h => h.importing
  | _, .stop _, h => h.stop
  | s, .body hd inner, h => by
    rw [visits]
    cases F.bodyOf? s hd with
    | none => exact h.skip
    | some t => exact (spells_visitsAll F t inner).body h

private theorem spells_visitsAll (F : ScopeForest) :
    ∀ (s : ScopeId) (ys : List Step), Spells s ys (F.visitsAll s ys)
  | _, [] => .nil
  | s, y :: ys => spells_visits F s y (spells_visitsAll F s ys)

end

section

variable {F G : ScopeForest} {P : ScopeId → Prop} {Q : Param → Prop}

mutual

private theorem visits_within (hbody : ∀ {s hd}, P s → (∀ p ∈ hd.receiver?, Q p) →
    G.bodyOf? s hd = F.bodyOf? s hd ∧ ∀ t ∈ F.bodyOf? s hd, P t) {s : ScopeId} :
    ∀ y : Step, (∀ p, .receiver p ∈ y.places → Q p) → P s →
      G.visits s y = F.visits s y ∧ ∀ v ∈ F.visits s y, P v.scope
  | .importing i, _, hs => ⟨rfl, List.forall_mem_singleton.mpr hs⟩
  | .stop x, _, hs => ⟨rfl, List.forall_mem_singleton.mpr hs⟩
  | .body hd ys, hp, hs => by
    obtain ⟨hsame, ht⟩ := @hbody s hd hs fun p hp' =>
      hp p (List.mem_append_left _ (by simpa using hp'))
    rw [visits, visits, hsame]
    cases hinner : F.bodyOf? s hd with
    | none => exact ⟨rfl, List.forall_mem_singleton.mpr hs⟩
    | some t =>
      have hys := visitsAll_within hbody ys (fun p hp' => hp p (List.mem_append_right _ hp'))
        (ht t hinner)
      exact ⟨congrArg _ hys.1, List.forall_mem_cons.mpr ⟨hs, hys.2⟩⟩

/--
Tables that lead to the same bodies from some scopes, and into these again, have the same visits
there.
-/
private theorem visitsAll_within (hbody : ∀ {s hd}, P s → (∀ p ∈ hd.receiver?, Q p) →
    G.bodyOf? s hd = F.bodyOf? s hd ∧ ∀ t ∈ F.bodyOf? s hd, P t) {s : ScopeId} :
    ∀ ys : List Step, (∀ p, .receiver p ∈ Step.placesAll ys → Q p) → P s →
      G.visitsAll s ys = F.visitsAll s ys ∧ ∀ v ∈ F.visitsAll s ys, P v.scope
  | [], _, _ => ⟨rfl, nofun⟩
  | y :: ys, hp, hs => by
    have hy := visits_within hbody y (fun p hp' => hp p (List.mem_append_left _ hp')) hs
    have hys := visitsAll_within hbody ys (fun p hp' => hp p (List.mem_append_right _ hp')) hs
    rw [visitsAll, visitsAll, hy.1, hys.1]
    exact ⟨rfl, List.forall_mem_append.mpr ⟨hy.2, hys.2⟩⟩

end

end

/-- Giving types to names changes no itinerary. -/
theorem itinerary_congr {F G : ScopeForest} (h : G.untyped = F.untyped) (m : Module) :
    G.itinerary m = F.itinerary m :=
  (visitsAll_within (P := fun _ => True) (Q := fun _ => True)
    (fun _ _ => ⟨bodyOf?_congr h _ _, fun _ _ => trivial⟩) m.program.steps (fun _ _ => trivial)
    trivial).1

section

variable {F G : ScopeForest} (hF : F.Sound) {m : Module} (hroot : F.parent? m.root = some 0)
  (hplaces : ∀ p ∈ m.program.places, p.Parsed)

/-- The body behind a head in a tree lies in the tree. -/
theorem bodyOf?_mem {F : ScopeForest} (hF : F.Sound) {r s t : ScopeId}
    (hr : F.parent? r = some 0) (hs : r ∈ F.chain s) {hd : Head}
    (hreceiver : ∀ p ∈ hd.receiver?, p.ty.NamesNoBuiltin) (ht : F.bodyOf? s hd = some t) :
    r ∈ F.chain t := by
  obtain ⟨_ | receiver, name, params, ret⟩ := hd
  · exact declaredMembers?_mem hF hs ht
  · exact methodBody?_mem hF hr hs (hreceiver receiver rfl) ht

include hF hroot hplaces

/-- The itinerary of a module stays in the tree of the module. -/
theorem mem_chain_of_itinerary {v : Visit} (hv : v ∈ F.itinerary m) : m.root ∈ F.chain v.scope := by
  have hreceivers : ∀ p, .receiver p ∈ Step.placesAll m.program.steps → p.ty.NamesNoBuiltin :=
    fun p hp => hplaces (.receiver p) (m.program.placesAll_steps ▸ hp)
  refine (visitsAll_within (F := F) (G := F) (P := fun s => m.root ∈ F.chain s)
    (fun hs hr => ⟨rfl, fun t ht => bodyOf?_mem hF hroot hs hr ht⟩) _ hreceivers ?_).2 v hv
  exact mem_chain_self (lt_size_of_parent? hroot)

/-- The itinerary of a module stays what it is as long as nothing is declared in its tree. -/
theorem itinerary_eq_of_precedes (hG : G.Sound) (h : F.Precedes G)
    (hzero : G.declarations 0 = F.declarations 0)
    (hsame : ∀ s, m.root ∈ F.chain s → G.declarations s = F.declarations s) :
    G.itinerary m = F.itinerary m := by
  have hreceivers : ∀ p, .receiver p ∈ Step.placesAll m.program.steps → p.ty.NamesNoBuiltin :=
    fun p hp => hplaces (.receiver p) (m.program.placesAll_steps ▸ hp)
  refine (visitsAll_within (P := fun s => m.root ∈ F.chain s) (fun {s hd} hs hr => ⟨?_, fun t ht =>
    bodyOf?_mem hF hroot hs hr ht⟩) _ hreceivers (mem_chain_self (lt_size_of_parent? hroot))).1
  obtain ⟨_ | receiver, name, params, ret⟩ := hd
  · exact declaredMembers?_congr (hsame s hs) name
  · have hchain := chain_eq_of_parent hF hG h.size_le h.parent (lt_size_of_mem_chain hs)
    have hall : ∀ t ∈ F.chain s, G.declarations t = F.declarations t := by
      intro t ht
      rcases mem_chain_or_eq_zero hF hroot hs ht with ht | rfl
      · exact hsame t ht
      · exact hzero
    refine methodBody?_congr hchain hall (fun t ht => ?_) name
    exact hsame t (methodScope_mem hF hroot hs (hr receiver rfl) ht)

end

end ScopeForest

/-- Visits that find the bodies where the tables have them are those that the tables give. -/
theorem Spells.eq_visitsAll {F : ScopeForest} {s : ScopeId} {ys : List Step} {L : List Visit}
    (h : Spells s ys L) (hbody : ∀ t hd inner?, .head t hd inner? ∈ L → inner? = F.bodyOf? t hd) :
    L = F.visitsAll s ys := by
  induction h with
  | nil => rfl
  | @importing s i ys L _ ih =>
    exact congrArg _ (ih fun t hd inner? hmem => hbody t hd inner? (List.mem_cons_of_mem _ hmem))
  | @stop s x ys L _ ih =>
    exact congrArg _ (ih fun t hd inner? hmem => hbody t hd inner? (List.mem_cons_of_mem _ hmem))
  | @skip s hd zs ys L _ ih =>
    have hnone := hbody s hd none (List.mem_cons_self ..)
    rw [ScopeForest.visitsAll, ScopeForest.visits, ← hnone]
    exact congrArg _ (ih fun t hd inner? hmem => hbody t hd inner? (List.mem_cons_of_mem _ hmem))
  | @body s t hd zs ys K L _ _ ihK ihL =>
    have hsome := hbody s hd (some t) (List.mem_cons_self ..)
    rw [ScopeForest.visitsAll, ScopeForest.visits, ← hsome]
    have hK := ihK fun t hd inner? hmem =>
      hbody t hd inner? (List.mem_cons_of_mem _ (List.mem_append_left _ hmem))
    have hL := ihL fun t hd inner? hmem =>
      hbody t hd inner? (List.mem_cons_of_mem _ (List.mem_append_right _ hmem))
    dsimp only
    rw [← hK, ← hL, List.cons_append]

end Sable
