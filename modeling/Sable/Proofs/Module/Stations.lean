import Mathlib.Data.List.Pairwise
import Sable.Proofs.Module.Itinerary
import Sable.Proofs.Module.Named

/-!
# Where a walk comes to

A walk that goes into every body comes to each step of its script, and to no name twice. It stays in
the scope that it starts in and in the bodies of the functions on the way; where no method stands
inside a function, it comes to all methods in the scope that it starts in.
-/

namespace Sable

/-- The receiver behind a place, if it is the place of a method. -/
def Place.receiver? : Place → Option Param
  | importing _ => none
  | receiver p => some p

/-- The receivers of the methods in the body behind a step. -/
def Step.enclosedReceivers : Step → List Param
  | importing _ => []
  | stop _ => []
  | body _ inner => (Step.placesAll inner).filterMap Place.receiver?

/-- No method stands inside a function. -/
def Program.MethodsOutside (p : Program) : Prop := ∀ y ∈ p.steps, y.enclosedReceivers = []

instance (p : Program) : Decidable p.MethodsOutside :=
  inferInstanceAs (Decidable (∀ y ∈ p.steps, y.enclosedReceivers = []))

namespace Visit

/-- A visit is made at a step. -/
inductive At : Visit → Step → Prop
  | importing {s : ScopeId} {i : Import} : At (.importing s i) (.importing i)
  | stop {s : ScopeId} {x : Stop} : At (.stop s x) (.stop x)
  | head {s : ScopeId} {h : Head} {inner? : Option ScopeId} {ys : List Step} :
    At (.head s h inner?) (.body h ys)

/-- All bodies on a walk are gone into. -/
def AllEntered (L : List Visit) : Prop := ∀ s h inner?, .head s h inner? ∈ L → inner?.isSome

/-- The scope of a visit is one of two: the one that the walk starts in, or a body on the way. -/
def Inhabits (s : ScopeId) (L : List Visit) (v : Visit) : Prop :=
  v.scope = s ∨ ∃ t h, .head t h (some v.scope) ∈ L

variable {s : ScopeId} {K L : List Visit} {v w : Visit}

theorem Inhabits.mono (h : Inhabits s K v) (hsub : K ⊆ L) : Inhabits s L v :=
  h.imp_right fun ⟨t, hd, hmem⟩ => ⟨t, hd, hsub hmem⟩

/-- Visits that come to no name twice share no name. -/
theorem eq_of_mem_names (h : (L.flatMap names).Nodup) (hv : v ∈ L) (hw : w ∈ L) {x : Ident}
    (hxv : x ∈ v.names) (hxw : x ∈ w.names) : v = w := by
  have hapart : L.Pairwise fun v w => v.names.Disjoint w.names := (List.nodup_flatMap.mp h).2
  have : Std.Symm fun v w : Visit => v.names.Disjoint w.names := ⟨fun _ _ h _ hw hv => h hv hw⟩
  by_contra hne
  exact hapart.forall hv hw hne hxv hxw

end Visit

namespace Spells

variable {s : ScopeId} {ys : List Step} {L : List Visit} (h : Spells s ys L)
include h

/-- A walk that goes into every body comes to each step. -/
theorem exists_of_occurs (hL : Visit.AllEntered L) {z : Step} (hz : z.Occurs ys) :
    ∃ v ∈ L, v.At z := by
  induction h with
  | nil => exact absurd hz Step.occurs_nil
  | importing _ ih =>
    rcases Step.occurs_cons.mp hz with hz | hz
    · obtain rfl := Step.occurs_importing.mp hz
      exact ⟨_, List.mem_cons_self .., .importing⟩
    · obtain ⟨v, hv, hat⟩ := ih (fun _ _ _ hmem => hL _ _ _ (List.mem_cons_of_mem _ hmem)) hz
      exact ⟨v, List.mem_cons_of_mem _ hv, hat⟩
  | stop _ ih =>
    rcases Step.occurs_cons.mp hz with hz | hz
    · obtain rfl := Step.occurs_stop.mp hz
      exact ⟨_, List.mem_cons_self .., .stop⟩
    · obtain ⟨v, hv, hat⟩ := ih (fun _ _ _ hmem => hL _ _ _ (List.mem_cons_of_mem _ hmem)) hz
      exact ⟨v, List.mem_cons_of_mem _ hv, hat⟩
  | skip => exact absurd (hL _ _ _ (List.mem_cons_self ..)) Bool.false_ne_true
  | body _ _ ihK ihL =>
    rcases Step.occurs_cons.mp hz with hz | hz
    · rcases Step.occurs_body.mp hz with rfl | hz
      · exact ⟨_, List.mem_cons_self .., .head⟩
      · obtain ⟨v, hv, hat⟩ := ihK (fun _ _ _ hmem =>
          hL _ _ _ (List.mem_cons_of_mem _ (List.mem_append_left _ hmem))) hz
        exact ⟨v, List.mem_cons_of_mem _ (List.mem_append_left _ hv), hat⟩
    · obtain ⟨v, hv, hat⟩ := ihL (fun _ _ _ hmem =>
        hL _ _ _ (List.mem_cons_of_mem _ (List.mem_append_right _ hmem))) hz
      exact ⟨v, List.mem_cons_of_mem _ (List.mem_append_right _ hv), hat⟩

/-- A walk stays in the scope that it starts in and in the bodies on the way. -/
theorem inhabits {v : Visit} (hv : v ∈ L) : Visit.Inhabits s L v := by
  induction h with
  | nil => cases hv
  | importing _ ih | stop _ ih | skip _ ih =>
    rcases List.mem_cons.mp hv with rfl | hv
    · exact Or.inl rfl
    · exact (ih hv).mono (List.subset_cons_self ..)
  | body _ _ ihK ihL =>
    rcases List.mem_cons.mp hv with rfl | hv
    · exact Or.inl rfl
    · rcases List.mem_append.mp hv with hv | hv
      · rcases ihK hv with hscope | ⟨t, hd, hmem⟩
        · exact Or.inr ⟨_, _, List.mem_cons.mpr (Or.inl (by rw [hscope]))⟩
        · exact Or.inr ⟨t, hd, List.mem_cons_of_mem _ (List.mem_append_left _ hmem)⟩
      · exact (ihL hv).mono (List.subset_cons_of_subset _ (List.subset_append_right ..))

/-- The receiver of a method on the way stands in the script. -/
theorem receiver_mem {t : ScopeId} {hd : Head} {inner? : Option ScopeId} {r : Param}
    (hv : .head t hd inner? ∈ L) (hr : hd.receiver? = some r) :
    r ∈ (Step.placesAll ys).filterMap Place.receiver? := by
  induction h with
  | nil => cases hv
  | importing _ ih | stop _ ih =>
    rw [Step.placesAll, List.filterMap_append]
    exact List.mem_append_right _ (ih ((List.mem_cons.mp hv).resolve_left nofun))
  | skip _ ih =>
    rcases List.mem_cons.mp hv with he | hv
    · obtain ⟨-, rfl, -⟩ := Visit.head.inj he
      simp [Step.placesAll, Step.places, hr, Place.receiver?]
    · simp [Step.placesAll, ih hv]
  | body _ _ ihK ihL =>
    rcases List.mem_cons.mp hv with he | hv
    · obtain ⟨-, rfl, -⟩ := Visit.head.inj he
      simp [Step.placesAll, Step.places, hr, Place.receiver?]
    · rcases List.mem_append.mp hv with hv | hv
      · simp [Step.placesAll, Step.places, ihK hv]
      · simp [Step.placesAll, ihL hv]

/-- Methods that stand outside of functions are visited where the walk starts. -/
theorem scope_of_method (hys : ∀ y ∈ ys, y.enclosedReceivers = []) {t : ScopeId} {hd : Head}
    {inner? : Option ScopeId} {r : Param} (hv : .head t hd inner? ∈ L)
    (hr : hd.receiver? = some r) : t = s := by
  induction h with
  | nil => cases hv
  | importing _ ih | stop _ ih =>
    exact ih (List.forall_mem_cons.mp hys).2 ((List.mem_cons.mp hv).resolve_left nofun)
  | skip _ ih =>
    rcases List.mem_cons.mp hv with he | hv
    · exact (Visit.head.inj he).1
    · exact ih (List.forall_mem_cons.mp hys).2 hv
  | body hK _ _ ihL =>
    rcases List.mem_cons.mp hv with he | hv
    · exact (Visit.head.inj he).1
    · rcases List.mem_append.mp hv with hv | hv
      · have hmem := hK.receiver_mem hv hr
        have hnone := (List.forall_mem_cons.mp hys).1
        rw [Step.enclosedReceivers] at hnone
        rw [hnone] at hmem
        cases hmem
      · exact ihL (List.forall_mem_cons.mp hys).2 hv

end Spells

end Sable
