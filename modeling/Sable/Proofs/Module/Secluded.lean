import Sable.Module
import Sable.Proofs.Module.Script
import Sable.Proofs.Module.Walk
import Sable.Proofs.Syntax.Preface
import Sable.Proofs.Module.History

/-!
# Walks that turn to no module

Over statements without imports a walk turns to no module, so it is the walk of a visitor that
passes over imports. Walking a module that imports first is following the imports of its preface
one after the other, and then walking its body in such seclusion.
-/

namespace Sable.Visitor

variable {σ : Type} {v : Visitor σ} {turnTo : String → σ → σ}

/-- The same visitor, which passes over imports. -/
def secluded (v : Visitor σ) : Visitor σ := { v with importing := fun _ _ c => (none, c) }

/-- Walks the body of a module without turning to any other one. -/
def walkBody (v : Visitor σ) (m : Module) (c : σ) : σ :=
  v.secluded.walkStmts (fun _ c => c) m.root m.program.body c

/-- Follows the imports of a preface, one after the other. -/
def walkPreface (v : Visitor σ) (turnTo : String → σ → σ) (s : ScopeId) (is : List Import)
    (c : σ) : σ := is.foldl (fun c i => v.walkImport turnTo s i c) c

/-! ### Statements without imports -/

theorem secluded_stop (v : Visitor σ) (s : ScopeId) (x : Stop) (c : σ) :
    v.secluded.stop s x c = v.stop s x c := by
  cases x <;> rfl

mutual

private theorem walkStep_secluded (v : Visitor σ) (turnTo turnTo' : String → σ → σ) (s : ScopeId) :
    ∀ (y : Step) (c : σ), (∀ i, .importing i ∉ y.places) →
      v.walkStep turnTo s y c = v.secluded.walkStep turnTo' s y c
  | .importing i, _, h => absurd (List.mem_singleton_self _) (h i)
  | .stop x, c, _ => (secluded_stop v s x c).symm
  | .body hd inner, c, h => by
    have hinner : ∀ i, .importing i ∉ Step.placesAll inner :=
      fun i hi => h i (List.mem_append_right _ hi)
    have hhead : v.secluded.head s hd c = v.head s hd c := rfl
    rw [walkStep, walkStep, hhead]
    rcases v.head s hd c with ⟨_ | t, d⟩
    · rfl
    · exact walkSteps_secluded v turnTo turnTo' t inner d hinner

private theorem walkSteps_secluded (v : Visitor σ) (turnTo turnTo' : String → σ → σ)
    (s : ScopeId) :
    ∀ (ys : List Step) (c : σ), (∀ i, .importing i ∉ Step.placesAll ys) →
      v.walkSteps turnTo s ys c = v.secluded.walkSteps turnTo' s ys c
  | [], _, _ => rfl
  | y :: ys, c, h => by
    have hfirst := walkStep_secluded v turnTo turnTo' s y c
      fun i hi => h i (List.mem_append_left _ hi)
    rw [walkSteps, walkSteps, hfirst]
    exact walkSteps_secluded v turnTo turnTo' s ys _ fun i hi => h i (List.mem_append_right _ hi)

end

/-- Over statements without imports a walk turns to no module. -/
theorem walkStmts_secluded (s : ScopeId) {stmts : List Stmt}
    (h : ∀ i, .importing i ∉ Stmt.placesAll stmts) (c : σ) :
    v.walkStmts turnTo s stmts c = v.secluded.walkStmts (fun _ c => c) s stmts c := by
  rw [walkStmts_eq, walkStmts_eq]
  refine walkSteps_secluded v turnTo _ s _ c fun i => ?_
  rw [Stmt.placesAll_stepsAll]
  exact h i

/-! ### Modules that import first -/

private theorem walkStmts_preface (s : ScopeId) (is : List Import) (stmts : List Stmt) (c : σ) :
    v.walkStmts turnTo s (is.map .importing ++ stmts) c =
      v.walkStmts turnTo s stmts (v.walkPreface turnTo s is c) := by
  induction is generalizing c with
  | nil => rfl
  | cons i is ih =>
    rw [List.map_cons, List.cons_append, walkStmts, walkStmt, ih]
    rfl

/-- A module that imports first is walked import by import, and then in seclusion. -/
theorem walkStmts_eq_walkBody {m : Module} (h : m.program.ImportsFirst) (c : σ) :
    v.walkStmts turnTo m.root m.program.stmts c =
      v.walkBody m (v.walkPreface turnTo m.root m.program.preface c) := by
  rw [← m.program.preface_append_body, walkStmts_preface, walkStmts_secluded m.root h]
  rfl

/-- What every visit respects is respected by the walk over a body. -/
theorem walkBody_keeps {P : Place → Prop} {Q : ScopeId → Import → Prop} {At : ScopeId → σ → Prop}
    {R : σ → σ → Prop} (hv : v.Visits P Q At R) (refl : ∀ c, R c c)
    (trans : ∀ {c d e}, R c d → R d e → R c e)
    (later : ∀ {s c d}, R c d → At s c → At s d) {m : Module} (hm : m.program.ImportsFirst)
    (hplaces : ∀ p ∈ m.program.places, P p) {c : σ} (hc : At m.root c) :
    R c (v.walkBody m c) := by
  have hkeeps : v.secluded.Keeps (fun _ c => c) P Q At R :=
    { hv with refl := refl, trans := trans, later := later, importing := fun _ _ _ => refl _ }
  refine walkStmts_keeps hkeeps m.program.body (fun p hp => ?_) (fun i hi => ?_) hc
  · exact hplaces p (m.program.placesAll_body_subset hp)
  · exact absurd (Stmt.mem_placesAll_of_mem_outerImportsAll _ hi) (hm i)

/-! ### What every step of a body respects -/

section Respects

variable {R : σ → σ → Prop} (refl : ∀ c, R c c) (trans : ∀ {c d e}, R c d → R d e → R c e)
  {P : Step → Prop} (hstop : ∀ {x}, P (.stop x) → ∀ s c, R c (v.stop s x c))
  (hhead : ∀ {h inner}, P (.body h inner) → ∀ s c, R c (v.head s h c).2)
include refl trans hstop hhead

-- The assumptions are used somewhere in the recursion, though not in every theorem of it.
set_option linter.unusedSectionVars false

mutual

private theorem walkStep_secluded_respects (s : ScopeId) :
    ∀ (y : Step) (c : σ), (∀ z : Step, z.Occurs [y] → P z) →
      R c (v.secluded.walkStep (fun _ c => c) s y c)
  | .importing _, c, _ => refl c
  | .stop x, c, h => by
    rw [walkStep, secluded_stop]
    exact hstop (h _ (.here (List.mem_singleton_self _))) s c
  | .body hd inner, c, h => by
    have hfirst := hhead (h _ (.here (List.mem_singleton_self _))) s c
    have hinner : ∀ z : Step, z.Occurs inner → P z :=
      fun z hz => h z (.inside (List.mem_singleton_self _) hz)
    have hsame : v.secluded.head s hd c = v.head s hd c := rfl
    rw [walkStep, hsame]
    generalize v.head s hd c = r at hfirst
    obtain ⟨_ | t, d⟩ := r
    · exact hfirst
    · exact trans hfirst (walkSteps_secluded_respects t inner d hinner)

private theorem walkSteps_secluded_respects (s : ScopeId) :
    ∀ (ys : List Step) (c : σ), (∀ z : Step, z.Occurs ys → P z) →
      R c (v.secluded.walkSteps (fun _ c => c) s ys c)
  | [], c, _ => refl c
  | y :: ys, c, h => by
    rw [walkSteps]
    refine trans (walkStep_secluded_respects s y c fun z hz => h z ?_)
      (walkSteps_secluded_respects s ys _ fun z hz => h z ?_)
    · exact hz.mono (List.cons_subset_cons _ (List.nil_subset _))
    · exact hz.mono (List.subset_cons_self ..)

end

end Respects

/-- A relation that every step of a body respects is respected by the walk over the body. -/
theorem walkBody_respects {R : σ → σ → Prop} (refl : ∀ c, R c c)
    (trans : ∀ {c d e}, R c d → R d e → R c e) {m : Module}
    (hstop : ∀ {x}, (Step.stop x).Occurs m.program.steps → ∀ s c, R c (v.stop s x c))
    (hhead : ∀ {h inner}, (Step.body h inner).Occurs m.program.steps →
      ∀ s c, R c (v.head s h c).2) (c : σ) : R c (v.walkBody m c) := by
  rw [walkBody, walkStmts_eq]
  refine walkSteps_secluded_respects (P := (·.Occurs m.program.steps)) refl trans hstop hhead m.root
    _ c fun z hz => hz.mono fun y hy => ?_
  rw [Program.steps, ← m.program.preface_append_body, Stmt.stepsAll_eq_flatMap,
    List.flatMap_append, ← Stmt.stepsAll_eq_flatMap m.program.body]
  exact List.mem_append_right _ hy

end Sable.Visitor

/-!
## Narrations

A traversal of modules that import first takes steps of two kinds: it visits an import of a preface,
or it walks a body in seclusion and leaves the module behind. So what is told of each module can be
kept up to date step by step: of a module whose walk is open, how far its preface has been followed,
and of every other module, what its walks have come to so far. A step over one module must leave
alone what is told of all others.
-/

namespace Sable

variable {σ : Type}

section

variable (Told : String → σ → Prop) (Begun : List Import → Module → σ → Prop)

/-- What is told of all modules but the one under a key stays true. -/
structure SparesTold (key : String) (c d : σ) : Prop where
  /-- This holds of modules without an open walk. -/
  told : ∀ k ≠ key, Told k c → Told k d
  /-- It holds of modules whose prefaces are being followed. -/
  begun : ∀ is m, m.key ≠ key → Begun is m c → Begun is m d

variable (Asked : String → σ → Prop)

/-- What is told of the modules can be kept up to date along a traversal. -/
structure Discipline.Narrates (D : Discipline σ) (t : Traversal σ) : Prop where
  /-- Nothing is done when a module is entered. -/
  enter : ∀ {stack key c}, D.Ready stack key c → (t.enter key c).2 = c
  /-- A module that is entered imports first, and its preface lies ahead. -/
  begins : ∀ {stack m c}, D.Ready stack m.key c → t.enter m.key c = (some m, c) →
    m.program.ImportsFirst ∧ (Asked m.key c → Told m.key c → Begun [] m c)
  /-- An import is visited, and a module that it turns to is asked for. -/
  imports : ∀ {stack m is i c key? d}, D.Stands m m.root i → D.At stack m m.root c →
    i ∈ m.program.preface → (t.visitor m).importing m.root i c = (key?, d) → Begun is m c →
      Begun (is ++ [i]) m d ∧ SparesTold Told Begun m.key c d ∧ ∀ key ∈ key?, Asked key d
  /-- A body is walked, and its module is left. -/
  leaves : ∀ {stack m c}, m.program.ImportsFirst → (∀ p ∈ m.program.places, D.Admits m p) →
    D.At stack m m.root c → Begun m.program.preface m c →
    D.At stack m m.root ((t.visitor m).walkBody m c) →
    D.Inv stack (t.leave m.key ((t.visitor m).walkBody m c)) →
      Told m.key (t.leave m.key ((t.visitor m).walkBody m c)) ∧
        SparesTold Told Begun m.key c (t.leave m.key ((t.visitor m).walkBody m c))

end

variable {t : Traversal σ} {D : Discipline σ} {Told : String → σ → Prop}
  {Begun : List Import → Module → σ → Prop} {Asked : String → σ → Prop}

/-- Processing a module as far as `n` more walks allow keeps what is told up to date. -/
private def Discipline.TellsOn (D : Discipline σ) (t : Traversal σ) (Told : String → σ → Prop)
    (Begun : List Import → Module → σ → Prop) (Asked : String → σ → Prop) (n : Nat) : Prop :=
  ∀ {stack key c}, D.Ready stack key c → D.limit ≤ n + stack.length → Asked key c →
    (∀ k ∉ stack, Told k c) → (∀ k ∉ stack, Told k (t.runWithin n key c)) ∧
      ∀ is m, m.key ∈ stack → Begun is m c → Begun is m (t.runWithin n key c)

section Step

variable (h : t.Obeys D) (hn : D.Narrates Told Begun Asked t) {n : Nat}
  (ih : D.TellsOn t Told Begun Asked n) {stack : List String} {m : Module}
  (hlimit : D.limit ≤ n + (m.key :: stack).length) (hfresh : m.key ∉ stack)

include h hn ih hlimit hfresh

/-- An import is visited, with all that it turns to. -/
private theorem walkImport_tells {is : List Import} {i : Import} {c : σ} (hi : D.Stands m m.root i)
    (hmem : i ∈ m.program.preface) (hs : D.At stack m m.root c) (hbegun : Begun is m c)
    (htold : ∀ k ∉ m.key :: stack, Told k c) {d : σ}
    (hd : (t.visitor m).walkImport (t.runWithin n) m.root i c = d) :
    D.At stack m m.root d ∧ Begun (is ++ [i]) m d ∧ (∀ k ∉ m.key :: stack, Told k d) ∧
      ∀ js m', m'.key ∈ stack → Begun js m' c → Begun js m' d := by
  have hkeeps := h.keeps (m := m) hlimit
  have hat := hkeeps.later (hkeeps.importing i hi hs) hs
  have hne : ∀ {k}, k ∈ stack → k ≠ m.key := fun hk he => hfresh (he ▸ hk)
  rw [hd] at hat
  rw [Visitor.walkImport] at hd
  rcases himport : (t.visitor m).importing m.root i c with ⟨_ | key, e⟩
  · obtain ⟨hnext, hspares, -⟩ := hn.imports hi hs hmem himport hbegun
    simp only [himport] at hd
    subst hd
    exact ⟨hat, hnext, fun k hk => hspares.told k (List.ne_of_not_mem_cons hk) (htold k hk),
      fun js m' hm' hjs => hspares.begun js m' (hne hm') hjs⟩
  · obtain ⟨hready, -⟩ := h.turns hi hs himport
    obtain ⟨hnext, hspares, hasked⟩ := hn.imports hi hs hmem himport hbegun
    have htold' : ∀ k ∉ m.key :: stack, Told k e := fun k hk =>
      hspares.told k (List.ne_of_not_mem_cons hk) (htold k hk)
    obtain ⟨hrun, hopen⟩ := ih hready hlimit (hasked key rfl) htold'
    simp only [himport] at hd
    subst hd
    exact ⟨hat, hopen _ m (List.mem_cons_self ..) hnext, hrun, fun js m' hm' hjs =>
      hopen js m' (List.mem_cons_of_mem _ hm') (hspares.begun js m' (hne hm') hjs)⟩

/-- A preface is followed to its end. -/
private theorem walkPreface_tells (hstands : ∀ i ∈ m.program.outerImports, D.Stands m m.root i) :
    ∀ (js is : List Import) {c : σ}, is ++ js = m.program.preface → D.At stack m m.root c →
      Begun is m c → (∀ k ∉ m.key :: stack, Told k c) → ∀ {d : σ},
      (t.visitor m).walkPreface (t.runWithin n) m.root js c = d →
        D.At stack m m.root d ∧ Begun m.program.preface m d ∧ (∀ k ∉ m.key :: stack, Told k d) ∧
          ∀ ks m', m'.key ∈ stack → Begun ks m' c → Begun ks m' d
  | [], is, c, hjs, hs, hbegun, htold, d, hd => by
    rw [List.append_nil] at hjs
    subst hjs hd
    exact ⟨hs, hbegun, htold, fun _ _ _ => id⟩
  | i :: js, is, c, hjs, hs, hbegun, htold, d, hd => by
    have hmem : i ∈ m.program.preface := by simp [← hjs]
    have hi := hstands i (Program.mem_outerImports_of_mem_preface hmem)
    obtain ⟨hs', hbegun', htold', hopen⟩ :=
      walkImport_tells h hn ih hlimit hfresh hi hmem hs hbegun htold rfl
    obtain ⟨hs'', hbegun'', htold'', hopen'⟩ :=
      walkPreface_tells hstands js (is ++ [i]) (by simpa using hjs) hs' hbegun' htold' hd
    exact ⟨hs'', hbegun'', htold'', fun ks m' hm' hks => hopen' ks m' hm' (hopen ks m' hm' hks)⟩

end Step

/--
What is told of the modules is true at the end of a traversal if it was true at its start, and so is
what was told of the modules whose walks were open.
-/
theorem Discipline.Narrates.runWithin (hn : D.Narrates Told Begun Asked t) (h : t.Obeys D)
    (ho : t.Once D) (n : Nat) {stack : List String} {key : String} {c : σ}
    (hready : D.Ready stack key c) (hlimit : D.limit ≤ n + stack.length) (hasked : Asked key c)
    (htold : ∀ k ∉ stack, Told k c) :
    (∀ k ∉ stack, Told k (t.runWithin n key c)) ∧
      ∀ is m, m.key ∈ stack → Begun is m c → Begun is m (t.runWithin n key c) := by
  induction n generalizing stack key c with
  | zero =>
    have := h.room hready
    omega
  | succ n ih =>
    have hsame := hn.enter hready
    rw [Traversal.runWithin]
    rcases henter : t.enter key c with ⟨_ | m, d⟩
    · rw [henter] at hsame
      subst hsame
      exact ⟨htold, fun _ _ _ => id⟩
    · rw [henter] at hsame
      subst hsame
      obtain ⟨rfl, hinv, -, hroot, hplaces, hstands⟩ := h.enters hready henter
      obtain ⟨-, hfresh⟩ := ho.fresh hready henter
      obtain ⟨hfirst, hbegins⟩ := hn.begins hready henter
      have hlimit' : D.limit ≤ n + (m.key :: stack).length := by
        rw [List.length_cons]
        omega
      have htells : D.TellsOn t Told Begun Asked n := fun hready hlimit hasked htold =>
        ih hready hlimit hasked htold
      have hne : ∀ {k}, k ∈ stack → k ≠ m.key := fun hk he => hfresh (he ▸ hk)
      have hbody : (t.visitor m).walkStmts (t.runWithin n) m.root m.program.stmts d =
          (t.visitor m).walkBody m
            ((t.visitor m).walkPreface (t.runWithin n) m.root m.program.preface d) :=
        Visitor.walkStmts_eq_walkBody hfirst d
      obtain ⟨hs, hbegun, htold', hopen⟩ := walkPreface_tells h hn htells hlimit' hfresh hstands
        m.program.preface [] rfl ⟨hinv, hroot⟩ (hbegins hasked (htold _ hfresh))
        (fun k hk => htold k fun hmem => hk (List.mem_cons_of_mem _ hmem)) rfl
      obtain ⟨-, hend, hleave, -, -⟩ := h.walk hlimit' hready henter hbody
      obtain ⟨hown, hspares⟩ := hn.leaves hfirst hplaces hs hbegun hend hleave
      dsimp only
      rw [hbody]
      refine ⟨fun k hk => ?_, fun is m' hm' his =>
        hspares.begun is m' (hne hm') (hopen is m' hm' his)⟩
      by_cases hkey : k = m.key
      · exact hkey ▸ hown
      · exact hspares.told k hkey (htold' k (by simp [hkey, hk]))

end Sable
