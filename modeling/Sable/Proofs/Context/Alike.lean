import Sable.Context.Resolution
import Sable.Context.Typing
import Sable.Proofs.Module.Lockstep
import Sable.Proofs.Scope.Alike

/-!
# Contexts that differ in spans only

Two contexts are alike if they agree in everything but the places of declarations and reports,
and if the places of declarations are related one to one. The later passes keep contexts alike:
they look at places only to compare those of declarations, and all other places end up in
reports.
-/

namespace Sable

/-- A report without its place. -/
def Diagnostic.unplaced (d : Diagnostic) : Diagnostic := { d with span := Span.nowhere }

/-- The same context twice, with declarations in related places. -/
structure Context.Alike (R : Span → Span → Prop) (c d : Context) : Prop where
  /-- Places are related one to one. -/
  places : Relator.BiUnique R
  /-- The scopes are the same. -/
  scopes : c.scopes.Alike R d.scopes
  /-- The imports are equal. -/
  graph : c.graph = d.graph
  /-- The reports are equal but for their places. -/
  diagnostics : c.diagnostics.items.map Diagnostic.unplaced =
    d.diagnostics.items.map Diagnostic.unplaced
  /-- The same module was asked for last. -/
  entry? : c.entry? = d.entry?
  /-- The modules are the same. -/
  modules : List.Forall₂ (Module.Alike R) c.modules d.modules

variable {R T : Span → Span → Prop}

namespace Context.Alike

variable {c d : Context}

/-- More places may be related, as long as they are related one to one. -/
theorem mono {S : Span → Span → Prop} (h : c.Alike R d) (hRS : R ≤ S)
    (hS : Relator.BiUnique S) : c.Alike S d :=
  ⟨hS, h.scopes.mono hRS, h.graph, h.diagnostics, h.entry?, h.modules.imp fun _ _ hm => hm.mono hRS⟩

/-! ### Modules and phases -/

theorem module? (h : c.Alike R d) (key : String) :
    Option.Rel (Module.Alike R) (c.module? key) (d.module? key) :=
  rel_find? h.modules fun hm => by rw [hm.key]

theorem hasModule (h : c.Alike R d) (key : String) : c.hasModule key = d.hasModule key :=
  isSome_eq_of_rel (h.module? key)

theorem phase (h : c.Alike R d) (key : String) : c.phase key = d.phase key := by
  rw [Context.phase, Context.phase, map_eq_of_rel (h.module? key) fun hm => hm.phase]

theorem canProcess (h : c.Alike R d) (key : String) (target : Phase) :
    c.canProcess key target = d.canProcess key target := by
  rw [Context.canProcess, Context.canProcess, h.phase]

theorem canAdvance (h : c.Alike R d) (key : String) (target : Phase) :
    c.canAdvance key target = d.canAdvance key target := by
  have hm := h.module? key
  rw [Context.canAdvance, Context.canAdvance]
  generalize c.module? key = m?, d.module? key = n? at hm
  cases hm with
  | none => rfl
  | some hm => simp only [hm.phase]

theorem setPhase (h : c.Alike R d) (key : String) (target : Phase) :
    (c.setPhase key target).Alike R (d.setPhase key target) := by
  rw [Context.setPhase, Context.setPhase, h.canAdvance]
  split
  · refine ⟨h.places, h.scopes, h.graph, h.diagnostics, h.entry?, ?_⟩
    refine List.forall₂_map_left_iff.mpr (List.forall₂_map_right_iff.mpr
      (h.modules.imp fun m n hm => ?_))
    by_cases hkey : m.key = key
    · rw [if_pos hkey, if_pos (hm.key ▸ hkey)]
      exact ⟨hm.key, hm.file, hm.root, rfl, hm.program⟩
    · rw [if_neg hkey, if_neg (hm.key ▸ hkey)]
      exact hm
  · exact h

/-- The same file is registered twice, with related places in both programs. -/
theorem addModule (h : c.Alike R d) (key : String) (file : Path) {p q : Program}
    (hprogram : ∃ T ≤ R, p.Paired Span.Free T q) :
    (c.addModule key file p).2.Alike R (d.addModule key file q).2 := by
  rw [Context.addModule, Context.addModule, h.hasModule]
  split
  · exact h
  · exact ⟨h.places, h.scopes.openScope (some builtins) .global, h.graph, h.diagnostics, h.entry?,
      List.rel_append h.modules (.cons ⟨rfl, rfl, h.scopes.size_eq, rfl, hprogram⟩ .nil)⟩

/-! ### Reports -/

theorem report (h : c.Alike R d) {x y : Diagnostic} (hxy : x.unplaced = y.unplaced) :
    (c.report x).Alike R (d.report y) := by
  refine ⟨h.places, h.scopes, h.graph, ?_, h.entry?, h.modules⟩
  simp only [Context.report, Diagnostics.items_add, List.map_append, h.diagnostics,
    List.map_cons, List.map_nil, hxy]

theorem reportIn (h : c.Alike R d) {m n : Module} (hm : m.Alike R n) (pass : Pass)
    {x y : Span} {message message' : String} (hmessage : message = message') :
    (c.reportIn m pass x message).Alike R (d.reportIn n pass y message') :=
  h.report (by simp only [Diagnostic.unplaced, hm.file, hmessage])

/-- The same passes are kept from being started. -/
theorem hasFatal (h : c.Alike R d) : c.diagnostics.hasFatal = d.diagnostics.hasFatal := by
  have hany := congrArg (List.any · fun x => x.severity.isFatal) h.diagnostics
  rw [List.any_map, List.any_map] at hany
  rw [Diagnostics.hasFatal_eq, Diagnostics.hasFatal_eq]
  exact hany

/-- The same module is entered, or the same is reported of it. -/
theorem enter (h : c.Alike R d) (key : String) (target : Phase) (pass : Pass)
    (activity : String) :
    Option.Rel (Module.Alike R) (c.enter key target pass activity).1
        (d.enter key target pass activity).1 ∧
      (c.enter key target pass activity).2.Alike R (d.enter key target pass activity).2 := by
  rw [Context.enter, Context.enter, h.canProcess, h.phase]
  split
  · exact ⟨h.module? key, h⟩
  · split
    · exact ⟨.none, h⟩
    · have hfile : ((c.module? key).map fun m => m.file.text) =
          (d.module? key).map fun m => m.file.text :=
        map_eq_of_rel (h.module? key) fun hm => by rw [hm.file]
      refine ⟨.none, h.report ?_⟩
      simp only [Diagnostic.unplaced, Context.notReady, hfile, h.phase]

/-! ### Scopes -/

theorem withScopes (h : c.Alike R d) {F G : ScopeForest} (hFG : F.Alike R G) :
    ({ c with scopes := F } : Context).Alike R { d with scopes := G } :=
  ⟨h.places, hFG, h.graph, h.diagnostics, h.entry?, h.modules⟩

theorem setType (h : c.Alike R d) {s t : ScopeId} (hst : s = t) (name : String) (ty : Ty) :
    (c.setType s name ty).Alike R (d.setType t name ty) :=
  h.withScopes (h.scopes.setType hst name ty)

end Context.Alike

/-- At the start only the builtin types are declared, which stand in no source text. -/
theorem Context.alike_initial : Context.initial.scopes.Alike
    (fun x y => x = Span.nowhere ∧ y = Span.nowhere) Context.initial.scopes := by
  have hempty : ScopeForest.Alike (fun x y => x = Span.nowhere ∧ y = Span.nowhere)
      ScopeForest.empty ScopeForest.empty := ⟨biUnique_eq, fun _ => .none⟩
  exact (hempty.openScope none .global).declarePrimitives ⟨rfl, rfl⟩ _ _

end Sable
