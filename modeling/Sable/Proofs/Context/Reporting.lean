import Sable.Proofs.Context.Histories
import Sable.Proofs.Ty.Sense

/-!
# What resolution reports

All that resolution reports is that a name or a written type stands for nothing, or that the sides
of an assignment differ in length. The types that it gives on the way do not matter for this:
whether a name is declared, whether it names a type, and which module an alias stands for is the
same in tables that differ in types only. So at each place of a program resolution reports the
same, whenever it comes there.
-/

namespace Sable.Context

/-- Two steps, from contexts that differ in types only to such contexts, that report the same. -/
structure Echoes (c c' d d' : Context) : Prop where
  /-- Behind the steps, the contexts differ in types only. -/
  untyped : d'.scopes.untyped = d.scopes.untyped
  /-- Both steps report the same. -/
  reports : ∃ es, d.diagnostics.items = c.diagnostics.items ++ es ∧
    d'.diagnostics.items = c'.diagnostics.items ++ es

/-- A step that gives types and reports nothing. -/
structure Silent (c d : Context) : Prop where
  /-- Nothing but types changes. -/
  untyped : d.scopes.untyped = c.scopes.untyped
  /-- Nothing is reported. -/
  diagnostics : d.diagnostics = c.diagnostics

namespace Silent

variable {c d e : Context}

theorem refl (c : Context) : c.Silent c := ⟨rfl, rfl⟩

theorem trans (h : c.Silent d) (h' : d.Silent e) : c.Silent e :=
  ⟨h'.untyped.trans h.untyped, h'.diagnostics.trans h.diagnostics⟩

theorem foldl {α : Type} {f : Context → α → Context} (h : ∀ c x, Silent c (f c x)) (xs : List α)
    (c : Context) : c.Silent (xs.foldl f c) := by
  induction xs generalizing c with
  | nil => exact refl c
  | cons x xs ih => exact (h c x).trans (ih (f c x))

end Silent

variable {c c' d d' e e' : Context} {m n : Module} {s : ScopeId}

namespace Echoes

theorem trans (h : Echoes c c' d d') (h' : Echoes d d' e e') : Echoes c c' e e' := by
  obtain ⟨es, hes, hes'⟩ := h.reports
  obtain ⟨fs, hfs, hfs'⟩ := h'.reports
  refine ⟨h'.untyped, es ++ fs, ?_, ?_⟩
  · rw [hfs, hes, List.append_assoc]
  · rw [hfs', hes', List.append_assoc]

theorem of_silent (h : c'.scopes.untyped = c.scopes.untyped) (hd : c.Silent d)
    (hd' : c'.Silent d') : Echoes c c' d d' := by
  refine ⟨?_, [], ?_, ?_⟩
  · rw [hd'.untyped, h, hd.untyped]
  · rw [hd.diagnostics, List.append_nil]
  · rw [hd'.diagnostics, List.append_nil]

theorem refl (h : c'.scopes.untyped = c.scopes.untyped) : Echoes c c' c c' :=
  of_silent h (.refl c) (.refl c')

/-- The same is reported in two modules that come from one file. -/
theorem reportIn (h : c'.scopes.untyped = c.scopes.untyped) (hfile : n.file = m.file) (pass : Pass)
    (span : Span) (message : String) :
    Echoes c c' (c.reportIn m pass span message) (c'.reportIn n pass span message) := by
  refine ⟨h, [⟨m.file.text, span, message, .semanticError, pass, none⟩], rfl, ?_⟩
  rw [← hfile]
  rfl

end Echoes

section

variable (hfile : n.file = m.file) (h : c'.scopes.untyped = c.scopes.untyped)

include hfile h

/-! ### Written types -/

end

/-! ### Reports of a module -/

variable {c₀ ctx : Context} {W : List Entry} {key : String}

/-- A context of which nothing but the tables is known. -/
def ofScopes (F : ScopeForest) : Context := ⟨F, .empty, .empty, none, []⟩

section

variable {F : ScopeForest} (hfile : n.file = m.file) (h : F.untyped = c.scopes.untyped)

include hfile h

end

end Sable.Context
