import Sable.Module.Traversal
import Sable.Proofs.Module.Walk

/-!
# Disciplines

What a traversal does to a module depends on the modules on the way to it, whose walks have
begun and not ended. A discipline states what holds while such a stack of walks is open and
what must hold when a walk turns to one more module. It also bounds the stack; so a traversal
that is given this depth never has to stop short.
-/

namespace Sable

/-- What is to hold along a traversal, for each stack of open walks, the last one first. -/
structure Discipline (σ : Type) where
  /-- What bounds the number of open walks. -/
  limit : Nat
  /-- The places that a walk over a module may meet. -/
  Admits : Module → Place → Prop
  /-- The imports that may stand in a scope of a module. -/
  Stands : Module → ScopeId → Import → Prop
  /-- What holds between any two visits. -/
  Inv : List String → σ → Prop
  /-- When a walk may turn to the module under a key. -/
  Ready : List String → String → σ → Prop
  /-- The scopes that belong to a module. -/
  Within : Module → ScopeId → σ → Prop
  /-- What never gets lost. -/
  Ext : σ → σ → Prop
  /-- What is achieved for an import of a module in a scope. -/
  Done : Module → ScopeId → Import → σ → Prop
  /-- What is achieved for a module. -/
  Finished : String → σ → Prop

namespace Discipline

variable {σ : Type} (D : Discipline σ) (stack : List String) (m : Module)

/-- A scope of the module whose walk was opened last. -/
def At (s : ScopeId) (c : σ) : Prop := D.Inv (m.key :: stack) c ∧ D.Within m s c

/-- What a visit must respect in the walk that was opened last. -/
def Kept (c d : σ) : Prop := D.Ext c d ∧ (D.Inv (m.key :: stack) c → D.Inv (m.key :: stack) d)

end Discipline

/-- A traversal keeps to a discipline, step by step. -/
structure Traversal.Obeys {σ : Type} (t : Traversal σ) (D : Discipline σ) : Prop where
  /-- Nothing may happen. -/
  refl : ∀ c, D.Ext c c
  /-- One thing may happen after the other. -/
  trans : ∀ {c d e}, D.Ext c d → D.Ext d e → D.Ext c e
  /-- A scope goes on to belong to a module. -/
  within_later : ∀ {m s c d}, D.Ext c d → D.Within m s c → D.Within m s d
  /-- What is achieved for an import stays achieved. -/
  done_later : ∀ {m s i c d}, D.Within m s c → D.Ext c d → D.Done m s i c → D.Done m s i d
  /-- One more walk can be opened. -/
  room : ∀ {stack key c}, D.Ready stack key c → stack.length < D.limit
  /-- A module that is not processed now needs no processing. -/
  passes : ∀ {stack key c d}, D.Ready stack key c → t.enter key c = (none, d) →
    D.Inv stack d ∧ D.Ext c d ∧ D.Finished key d
  /-- A walk is opened. -/
  enters : ∀ {stack key c m d}, D.Ready stack key c → t.enter key c = (some m, d) →
    m.key = key ∧ D.Inv (key :: stack) d ∧ D.Ext c d ∧ D.Within m m.root d ∧
      (∀ p ∈ m.program.places, D.Admits m p) ∧
        ∀ i ∈ m.program.outerImports, D.Stands m m.root i
  /-- The visits that turn to no module. -/
  visits : ∀ stack m, (t.visitor m).Visits (D.Admits m) (D.Stands m) (D.At stack m)
    (D.Kept stack m)
  /-- An import turns to no module. -/
  stays : ∀ {stack m s i c d}, D.Stands m s i → D.At stack m s c →
    (t.visitor m).importing s i c = (none, d) →
      D.Inv (m.key :: stack) d ∧ D.Ext c d ∧ D.Done m s i d
  /-- An import turns to a module. -/
  turns : ∀ {stack m s i c key d}, D.Stands m s i → D.At stack m s c →
    (t.visitor m).importing s i c = (some key, d) →
      D.Ready (m.key :: stack) key d ∧ D.Ext c d ∧
        ∀ e, D.Ext d e → D.Inv (m.key :: stack) e → D.Finished key e → D.Done m s i e
  /-- A walk is closed. -/
  leaves : ∀ {stack m c}, D.Inv (m.key :: stack) c → D.Within m m.root c →
    (∀ i ∈ m.program.outerImports, D.Done m m.root i c) →
      D.Inv stack (t.leave m.key c) ∧ D.Ext c (t.leave m.key c) ∧
        D.Finished m.key (t.leave m.key c)

namespace Traversal

variable {σ : Type} {t : Traversal σ} {D : Discipline σ}

/-- Processing a module as far as `n` more walks allow keeps to the discipline. -/
private def RunsWell (t : Traversal σ) (D : Discipline σ) (n : Nat) : Prop :=
  ∀ {stack key c}, D.Ready stack key c → D.limit ≤ n + stack.length →
    D.Inv stack (t.runWithin n key c) ∧ D.Ext c (t.runWithin n key c) ∧
      D.Finished key (t.runWithin n key c)

section Step

variable (h : t.Obeys D) {n : Nat} (ih : t.RunsWell D n) {stack : List String} {m : Module}
  (hn : D.limit ≤ n + (m.key :: stack).length)

include h ih hn

/-- An import on an open walk keeps to the discipline with all that it turns to. -/
private theorem walkImport_obeys {s : ScopeId} {i : Import} {c : σ}
    (hi : D.Stands m s i) (hs : D.At stack m s c) :
    D.Kept stack m c ((t.visitor m).walkImport (t.runWithin n) s i c) ∧
      D.Done m s i ((t.visitor m).walkImport (t.runWithin n) s i c) := by
  simp only [Visitor.walkImport]
  rcases hv : (t.visitor m).importing s i c with ⟨_ | key, d⟩
  · obtain ⟨hinv, hext, hdone⟩ := h.stays hi hs hv
    exact ⟨⟨hext, fun _ => hinv⟩, hdone⟩
  · obtain ⟨hready, hext, hdone⟩ := h.turns hi hs hv
    obtain ⟨hinv, hext', hfin⟩ := ih hready hn
    exact ⟨⟨h.trans hext hext', fun _ => hinv⟩, hdone _ hext' hinv hfin⟩

private theorem keeps_of_obeys :
    (t.visitor m).Keeps (t.runWithin n) (D.Admits m) (D.Stands m) (D.At stack m)
      (D.Kept stack m) where
  toVisits := h.visits stack m
  refl c := ⟨h.refl c, id⟩
  trans hcd hde := ⟨h.trans hcd.1 hde.1, fun hc => hde.2 (hcd.2 hc)⟩
  later hcd hs := ⟨hcd.2 hs.1, h.within_later hcd.1 hs.2⟩
  importing _ hi hs := (walkImport_obeys h ih hn hi hs).1

/-- A walk over a module that is entered keeps to the discipline up to the end of the module. -/
private theorem walk_obeys {c d : σ} {key : String} (hready : D.Ready stack key c)
    (henter : t.enter key c = (some m, d)) {e : σ}
    (he : (t.visitor m).walkStmts (t.runWithin n) m.root m.program.stmts d = e) :
    D.Ext d e ∧ D.At stack m m.root e ∧ D.Inv stack (t.leave m.key e) ∧
      D.Ext e (t.leave m.key e) ∧ D.Finished m.key (t.leave m.key e) := by
  obtain ⟨rfl, hinv, hext, hroot, hplaces, hstands⟩ := h.enters hready henter
  have hkeeps := keeps_of_obeys h ih hn
  have hachieves : (t.visitor m).Achieves (t.runWithin n) (D.Stands m) (D.At stack m)
      (D.Kept stack m) m.root (D.Done m m.root) :=
    ⟨fun hs hcd => h.done_later hs.2 hcd.1, fun hi hs => (walkImport_obeys h ih hn hi hs).2⟩
  have hwalk := Visitor.walkStmts_keeps hkeeps m.program.stmts hplaces hstands ⟨hinv, hroot⟩
  have hdone := Visitor.walkStmts_done hkeeps hachieves m.program.stmts hplaces hstands
    ⟨hinv, hroot⟩
  rw [he] at hwalk hdone
  have hroot' := h.within_later hwalk.1 hroot
  exact ⟨hwalk.1, ⟨hwalk.2 hinv, hroot'⟩, h.leaves (hwalk.2 hinv) hroot' hdone⟩

end Step

/--
A traversal that keeps to a discipline step by step does so from the start of each module to
its end, and gets there.
-/
theorem Obeys.runWithin (h : t.Obeys D) (n : Nat) {stack : List String} {key : String} {c : σ}
    (hready : D.Ready stack key c) (hn : D.limit ≤ n + stack.length) :
    D.Inv stack (t.runWithin n key c) ∧ D.Ext c (t.runWithin n key c) ∧
      D.Finished key (t.runWithin n key c) := by
  induction n generalizing stack key c with
  | zero =>
    have := h.room hready
    omega
  | succ n ih =>
    simp only [Traversal.runWithin]
    rcases henter : t.enter key c with ⟨_ | m, d⟩
    · exact h.passes hready henter
    · obtain ⟨rfl, -, hext, -⟩ := h.enters hready henter
      have hn' : D.limit ≤ n + (m.key :: stack).length := by
        rw [List.length_cons]
        omega
      obtain ⟨hwalk, -, hinv, hleave, hfin⟩ := walk_obeys h ih hn' hready henter rfl
      exact ⟨hinv, h.trans hext (h.trans hwalk hleave), hfin⟩

section Walk

variable (h : t.Obeys D) {n : Nat} {stack : List String} {m : Module}
  (hn : D.limit ≤ n + (m.key :: stack).length)

include h hn

/-- Every step of a walk keeps to the discipline. -/
theorem Obeys.keeps : (t.visitor m).Keeps (t.runWithin n) (D.Admits m) (D.Stands m)
    (D.At stack m) (D.Kept stack m) :=
  keeps_of_obeys h (fun hready => h.runWithin n hready) hn

@[inherit_doc walk_obeys]
theorem Obeys.walk {c d : σ} {key : String} (hready : D.Ready stack key c)
    (henter : t.enter key c = (some m, d)) {e : σ}
    (he : (t.visitor m).walkStmts (t.runWithin n) m.root m.program.stmts d = e) :
    D.Ext d e ∧ D.At stack m m.root e ∧ D.Inv stack (t.leave m.key e) ∧
      D.Ext e (t.leave m.key e) ∧ D.Finished m.key (t.leave m.key e) :=
  walk_obeys h (fun hready => h.runWithin n hready) hn hready henter he

end Walk

end Traversal

end Sable
