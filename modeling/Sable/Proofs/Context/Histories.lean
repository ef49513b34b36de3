import Sable.Proofs.Context.Passing
import Sable.Proofs.Module.Itinerary

/-!
# Histories of passes

A pass behind the first one visits each module that it leads on along the itinerary that the
tables have for it, whatever types it gives to names meanwhile. So the log of such a pass is the
itineraries of the modules that it has led on, woven into each other.
-/

namespace Sable.Context

variable {target p : Phase} {pass : Pass} {activity : String} {c₀ ctx c : Context} {m : Module}
  {W : List Entry}

/-- A place that stays in its scope only gives types to names. -/
theorem Filling.stop {v : Visitor Context} (h : Filling v) (s : ScopeId) (x : Stop)
    (c : Context) : c.Types (v.stop s x c) := by
  cases x with
  | typeDecl d => exact h.typeDecl s d c
  | declaring isConst targets values span => exact h.declaring s isConst targets values span c
  | declared targets values => exact h.declared s targets values c
  | assigning targets values span => exact h.assigning targets values span c
  | name name => exact h.name s name c
  | qualified module name => exact h.qualified s module name c

/-- A head only gives types to names, and its body is walked where the tables have it. -/
theorem Filling.head {v : Visitor Context} (h : Filling v) (s : ScopeId) (hd : Head)
    (c : Context) : (v.head s hd c).1 = c.scopes.bodyOf? s hd ∧ c.Types (v.head s hd c).2 := by
  obtain ⟨_ | receiver, name, params, ret⟩ := hd
  · exact h.function s name params ret c
  · exact h.method s receiver name params ret c

/-- What the log of a pass says about the states before and after it. -/
structure Recounts (target : Phase) (c₀ : Context) (W : List Entry) (c : Context) : Prop where
  /-- The pass has done nothing but what it may do. -/
  leads : c₀.Leads target c
  /-- Bodies have been found where the tables have them. -/
  heads : ∀ {m s hd inner?}, .visited m (.head s hd inner?) ∈ W →
    inner? = c₀.scopes.bodyOf? s hd
  /-- A module whose walk is closed is known. -/
  knows : ∀ {m}, .closed m ∈ W → c.Knows m
  /-- A module that has been led on has been walked. -/
  closed : ∀ k, c.phase k = c₀.phase k ∨ ∃ m, .closed m ∈ W ∧ m.key = k

namespace Recounts

/-- A visit that only gives types to names is noted. -/
theorem types {d : Context} {v : Visit} (h : Recounts target c₀ W c) (hd : c.Types d)
    (hv : ∀ s hd inner?, v = .head s hd inner? → inner? = c.scopes.bodyOf? s hd) :
    Recounts target c₀ (W ++ [.visited m v]) d where
  leads := h.leads.trans hd.leads
  heads {m' s hd inner?} hmem := by
    rcases List.mem_append.mp hmem with hmem | hmem
    · exact h.heads hmem
    · obtain ⟨-, rfl⟩ := Entry.visited.inj (List.mem_singleton.mp hmem)
      exact (hv s hd inner? rfl).trans (ScopeForest.bodyOf?_congr h.leads.untyped s hd)
  knows {m'} hmem := by
    rcases List.mem_append.mp hmem with hmem | hmem
    · exact (knows_congr hd.modules).mpr (h.knows hmem)
    · cases List.mem_singleton.mp hmem
  closed k := by
    rw [phase_congr hd.modules]
    exact (h.closed k).imp_right fun ⟨m', hm', hk⟩ => ⟨m', List.mem_append_left _ hm', hk⟩

/-- A closed walk is noted. -/
theorem close {q : Phase} (h : Recounts target c₀ W c)
    (hm : c.module? m.key = some { m with phase := q }) (ht : target.previous? = some q) (hle : m.phase ≤ q) :
    Recounts target c₀ (W ++ [.closed m]) (c.setPhase m.key target) where
  leads := h.leads.trans (leads_setPhase hm ht)
  heads {m' s hd inner?} hmem := by
    rcases List.mem_append.mp hmem with hmem | hmem
    · exact h.heads hmem
    · cases List.mem_singleton.mp hmem
  knows {m'} hmem := by
    have hknows : c.Knows m' := by
      rcases List.mem_append.mp hmem with hmem | hmem
      · exact h.knows hmem
      · obtain rfl := Entry.closed.inj (List.mem_singleton.mp hmem)
        exact ⟨q, hle, hm⟩
    exact (leads_setPhase hm ht).modules hknows
  closed k := by
    rw [phase_setPhase hm (Phase.previous_lt ht)]
    split
    · next hk => exact Or.inr ⟨m, List.mem_append_right _ (List.mem_singleton_self _), hk.symm⟩
    · exact (h.closed k).imp_right fun ⟨m', hm', hk⟩ => ⟨m', List.mem_append_left _ hm', hk⟩

end Recounts

section

variable {v : Module → Visitor Context} (hv : ∀ m, Filling (v m))
  (hi : ∀ m, (v m).importing = nextModule target) (ht : target.previous? = some p)
  (hp : Phase.parsed ≤ p)

include ht hp in
/-- A pass walks no module twice. -/
theorem once_passing (c₀ : Context) :
    (traversal target pass activity v).Once (passing target p c₀) where
  finished_later hd h := h.trans (hd.phase_le _)
  fresh h he := by
    obtain ⟨rfl, hm, hphase⟩ := h.1.enter_cases ht hp he
    refine ⟨fun hfin => ?_, (List.nodup_cons.mp h.1.nodup).1⟩
    have hle : target ≤ p := hphase ▸ phase_of_module? hm ▸ hfin
    exact absurd (Phase.previous_lt ht) hle.not_gt

include hv hi ht hp

/-- The log of a pass is true. -/
theorem recounts_of_history
    (h : (traversal target pass activity v).History (passing target p c₀) c₀ W c) :
    Recounts target c₀ W c := by
  induction h with
  | start => exact ⟨Leads.refl _ _, nofun, nofun, fun _ => Or.inl rfl⟩
  | @enter W c stack key _ hready ih =>
    obtain ⟨hsame, -⟩ := hready.1.enter_cases ht hp
      (show c.enter key target pass activity = (_, (c.enter key target pass activity).2) from rfl)
    exact hsame.symm ▸ ih
  | @importing W c _ m s i _ hs _ _ ih =>
    have hsame : ((v m).importing s i c).2 = c := by rw [hi]; rfl
    exact hsame.symm ▸ ih.types (Types.refl c) nofun
  | @stop W c _ m s x _ hs _ ih => exact ih.types ((hv m).stop s x c) nofun
  | @head W c _ m s hd _ _ hs _ ih =>
    refine ih.types ((hv m).head s hd c).2 fun _ _ _ he => ?_
    obtain ⟨rfl, rfl, rfl⟩ := Visit.head.inj he
    exact ((hv m).head s hd c).1
  | @close W c _ m _ hs ih =>
    obtain ⟨q, hle, hm⟩ := hs.2.2.1
    have hq : q = p := by
      rw [← hs.1.walking.phases m.key (List.mem_cons_self ..), phase_of_module? hm]
    exact ih.close hm (hq ▸ ht) hle

/--
A pass has a history, in which it closes each walk that it opens, and visits each module whose walk
it closes along its itinerary.
-/
theorem exists_closes (hl : ctx.Linked) {key : String} (hle : p ≤ ctx.phase key) :
    ∃ W, (traversal target pass activity v).History (passing target p ctx) ctx W
        (traverse (traversal target pass activity v) key ctx) ∧
      (passing target p ctx).Closes [] ctx W
        (traverse (traversal target pass activity v) key ctx) ∧
      (∀ m, .closed m ∈ W → Entry.visitsOf m.key W = ctx.scopes.itinerary m) ∧
      ∀ m x, .visited m x ∈ W → .closed m ∈ W := by
  have hlimit : (passing target p ctx).limit ≤
      ctx.modules.length + 1 + ([] : List String).length := by
    simp [passing]
  obtain ⟨W, hW, hcloses, hvisited⟩ := (obeys_passing hv hi ht hp ctx).history
    (once_passing ht hp ctx) _ (ready_passing hl hle) hlimit [] .start
  rw [List.nil_append] at hW
  have hrecounts := recounts_of_history hv hi ht hp hW
  refine ⟨W, hW, hcloses, fun m hm => ?_, hvisited⟩
  refine (hcloses.spells hm).eq_visitsAll fun t hd inner? hmem => ?_
  obtain ⟨m', -, hmem⟩ := Entry.mem_visitsOf.mp hmem
  exact hrecounts.heads hmem

/--
A pass has a history, in which it visits the modules that it leads on, and only these, each of
them along its itinerary.
-/
theorem exists_history (hl : ctx.Linked) {key : String} (hle : p ≤ ctx.phase key) :
    ∃ W, (traversal target pass activity v).History (passing target p ctx) ctx W
        (traverse (traversal target pass activity v) key ctx) ∧
      Recounts target ctx W (traverse (traversal target pass activity v) key ctx) ∧
      (∀ m, .closed m ∈ W → Entry.visitsOf m.key W = ctx.scopes.itinerary m ∧
        target ≤ (traverse (traversal target pass activity v) key ctx).phase m.key) ∧
      ∀ m x, .visited m x ∈ W → .closed m ∈ W := by
  obtain ⟨W, hW, hcloses, hitinerary, hvisited⟩ := exists_closes hv hi ht hp hl hle
  have hrecounts := recounts_of_history hv hi ht hp hW
  exact ⟨W, hW, hrecounts, fun m hm => ⟨hitinerary m hm, hcloses.finished hm⟩, hvisited⟩

end

/-! ### The modules that a pass leads on -/

variable {d : Context} {key : String} {S : String → Prop}

/-- A context that a pass can turn another one into without leaving a set of modules. -/
structure Confined (target p : Phase) (S : String → Prop) (c₀ c : Context) : Prop where
  /-- Nothing but types changes. -/
  untyped : c.scopes.untyped = c₀.scopes.untyped
  /-- Modules stay what they are, but for how far they have come. -/
  modules : c.modules.map Module.blank = c₀.modules.map Module.blank
  /-- A module that moves is in the set, and is led from the one phase to the other. -/
  phases : ∀ k, c.phase k = c₀.phase k ∨ c₀.phase k = p ∧ S k ∧ c.phase k = target

namespace Confined

theorem refl (target p : Phase) (S : String → Prop) (c : Context) : Confined target p S c c :=
  ⟨rfl, rfl, fun _ => Or.inl rfl⟩

theorem types (h : Confined target p S c₀ c) (hd : c.Types d) : Confined target p S c₀ d where
  untyped := hd.untyped.trans h.untyped
  modules := by rw [hd.modules, h.modules]
  phases k := by
    rw [phase_congr hd.modules]
    exact h.phases k

theorem report (h : Confined target p S c₀ c) (x : Diagnostic) :
    Confined target p S c₀ (c.report x) :=
  ⟨h.untyped, h.modules, h.phases⟩

/-- A module that stands in front of the phase has not moved. -/
theorem phase_eq (h : Confined target p S c₀ c) (ht : target.previous? = some p) {k : String}
    (hk : c.phase k = p) : c₀.phase k = p := by
  rcases h.phases k with hsame | ⟨-, -, hled⟩
  · exact hsame ▸ hk
  · exact absurd (hled.symm.trans hk) (Phase.previous_lt ht).ne'

/-- A module of the set is led on. -/
theorem setPhase (h : Confined target p S c₀ c) (hp : c₀.phase key = p) (hkey : S key) :
    Confined target p S c₀ (c.setPhase key target) where
  untyped := by rw [scopes_setPhase, h.untyped]
  modules := by rw [blank_setPhase, h.modules]
  phases k := by
    by_cases hadvance : c.canAdvance key target = true
    · obtain ⟨m, hm, hlt⟩ : ∃ m, c.module? key = some m ∧ m.phase < target := by
        rw [canAdvance] at hadvance
        split at hadvance
        · next m hm => exact ⟨m, hm, of_decide_eq_true hadvance⟩
        · cases hadvance
      rw [phase_setPhase hm hlt]
      split
      · next hk => exact Or.inr ⟨hk ▸ hp, hk ▸ hkey, rfl⟩
      · exact h.phases k
    · rw [Context.setPhase, if_neg hadvance]
      exact h.phases k

end Confined

section

variable {v : Module → Visitor Context} (hv : ∀ m, Filling (v m))
  (hi : ∀ m, (v m).importing = nextModule target) (ht : target.previous? = some p)

include hv hi

include ht

end

end Sable.Context
