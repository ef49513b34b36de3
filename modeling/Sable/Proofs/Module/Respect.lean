import Sable.Proofs.Module.Projection
import Sable.Proofs.Module.Script
import Sable.Proofs.Module.Named

/-!
# What a traversal respects

A relation between states that every single step of a traversal respects holds between the two ends
of every run, however deep the run is and whatever it turns to. Nothing is asked of the state that a
step starts from, so this is the rule for facts that need no discipline.
-/

namespace Sable

variable {σ τ : Type}

/-- Every step of a traversal respects a relation that may be followed from step to step. -/
structure Traversal.Respects (t : Traversal σ) (R : σ → σ → Prop) : Prop where
  /-- Nothing may happen. -/
  refl : ∀ c, R c c
  /-- One thing may happen after the other. -/
  trans : ∀ {c d e}, R c d → R d e → R c e
  /-- Entering a module keeps the relation. -/
  enter : ∀ key c, R c (t.enter key c).2
  /-- An import keeps the relation. -/
  importing : ∀ m s i c, R c ((t.visitor m).importing s i c).2
  /-- A place that stays in its scope keeps the relation. -/
  stop : ∀ m s x c, R c ((t.visitor m).stop s x c)
  /-- The head of a function or a method keeps the relation. -/
  head : ∀ m s h c, R c ((t.visitor m).head s h c).2
  /-- Leaving a module keeps the relation. -/
  leave : ∀ key c, R c (t.leave key c)
  /-- Giving a module up keeps the relation. -/
  giveUp : ∀ key c, R c (t.giveUp key c)

namespace Visitor.Projects

variable {v : Visitor τ} {π : τ → σ} {w : Visitor σ} (h : v.Projects π w) (s : ScopeId)
include h

/-- A place that stays in its scope acts on the part. -/
theorem stop (x : Stop) (c : τ) : w.stop s x (π c) = π (v.stop s x c) := by
  cases x with
  | typeDecl d => exact h.typeDecl s d c
  | declaring isConst targets values span => exact h.declaring s isConst targets values span c
  | declared targets values => exact h.declared s targets values c
  | assigning targets values span => exact h.assigning targets values span c
  | name name => exact h.name s name c
  | qualified module name => exact h.qualified s module name c

/-- The head of a function or a method acts on the part, and its body has the same scope. -/
theorem head (hd : Head) (c : τ) : w.head s hd (π c) = Prod.map id π (v.head s hd c) := by
  obtain ⟨_ | receiver, name, params, ret⟩ := hd
  · exact h.function s name params ret c
  · exact h.method s receiver name params ret c

end Visitor.Projects

namespace Traversal.Respects

variable {t : Traversal σ} {R : σ → σ → Prop} {turnTo : String → σ → σ}

section

variable (h : t.Respects R) (hturn : ∀ key c, R c (turnTo key c)) (m : Module)
include h hturn

-- The assumption on what is turned to is used somewhere in the recursion only.
set_option linter.unusedSectionVars false

mutual

private theorem walkStep (s : ScopeId) :
    ∀ (y : Step) (c : σ), R c ((t.visitor m).walkStep turnTo s y c)
  | .importing i, c => by
    have himport := h.importing m s i c
    rw [Visitor.walkStep, Visitor.walkImport]
    generalize (t.visitor m).importing s i c = r at himport
    obtain ⟨_ | key, d⟩ := r
    · exact himport
    · exact h.trans himport (hturn key d)
  | .stop x, c => h.stop m s x c
  | .body hd inner, c => by
    have hhead := h.head m s hd c
    rw [Visitor.walkStep]
    generalize (t.visitor m).head s hd c = r at hhead
    obtain ⟨_ | u, d⟩ := r
    · exact hhead
    · exact h.trans hhead (walkSteps u inner d)

/-- A walk keeps what every step of it keeps. -/
theorem walkSteps (s : ScopeId) :
    ∀ (ys : List Step) (c : σ), R c ((t.visitor m).walkSteps turnTo s ys c)
  | [], c => h.refl c
  | y :: ys, c => h.trans (walkStep s y c) (walkSteps s ys _)

end

end

/-- A run keeps what every step of it keeps. -/
theorem runWithin (h : t.Respects R) (n : Nat) (key : String) (c : σ) :
    R c (t.runWithin n key c) := by
  induction n generalizing key c with
  | zero => exact h.giveUp key c
  | succ n ih =>
    have henter := h.enter key c
    rw [Traversal.runWithin]
    generalize t.enter key c = r at henter
    obtain ⟨_ | m, d⟩ := r
    · exact henter
    · dsimp only
      rw [Visitor.walkStmts_eq]
      exact h.trans (h.trans henter (h.walkSteps ih m _ _ _)) (h.leave key _)

/-- So does a relation that follows from it, if that may be followed from step to step, too. -/
theorem mono {S : σ → σ → Prop} (h : t.Respects R) (refl : ∀ c, S c c)
    (trans : ∀ {c d e}, S c d → S d e → S c e) (hS : ∀ {c d}, R c d → S c d) : t.Respects S where
  refl := refl
  trans := trans
  enter key c := hS (h.enter key c)
  importing m s i c := hS (h.importing m s i c)
  stop m s x c := hS (h.stop m s x c)
  head m s hd c := hS (h.head m s hd c)
  leave key c := hS (h.leave key c)
  giveUp key c := hS (h.giveUp key c)

/-- What is not lost along the relation is not lost along a run. -/
theorem preserves {P : σ → Prop} (h : t.Respects R) (hP : ∀ {c d}, R c d → P c → P d) :
    t.Respects fun c d => P c → P d :=
  h.mono (fun _ => id) (fun hd he => he ∘ hd) hP

/-- Two relations may be respected at once. -/
theorem and {R' : σ → σ → Prop} (h : t.Respects R) (h' : t.Respects R') :
    t.Respects fun c d => R c d ∧ R' c d where
  refl c := ⟨h.refl c, h'.refl c⟩
  trans hd he := ⟨h.trans hd.1 he.1, h'.trans hd.2 he.2⟩
  enter key c := ⟨h.enter key c, h'.enter key c⟩
  importing m s i c := ⟨h.importing m s i c, h'.importing m s i c⟩
  stop m s x c := ⟨h.stop m s x c, h'.stop m s x c⟩
  head m s hd c := ⟨h.head m s hd c, h'.head m s hd c⟩
  leave key c := ⟨h.leave key c, h'.leave key c⟩
  giveUp key c := ⟨h.giveUp key c, h'.giveUp key c⟩

/-- What a traversal of a part of the state respects is respected by one that acts on the part so. -/
theorem comap {u : Traversal τ} {π : τ → σ} (h : t.Respects R) (hu : u.Projects π t) :
    u.Respects fun c d => R (π c) (π d) where
  refl c := h.refl (π c)
  trans := h.trans
  enter key c := by
    have henter := h.enter key (π c)
    rwa [hu.enter] at henter
  importing m s i c := by
    have himport := h.importing m s i (π c)
    rwa [(hu.visitor m).importing] at himport
  stop m s x c := by
    have hstop := h.stop m s x (π c)
    rwa [(hu.visitor m).stop] at hstop
  head m s hd c := by
    have hhead := h.head m s hd (π c)
    rwa [(hu.visitor m).head] at hhead
  leave key c := by
    have hleave := h.leave key (π c)
    rwa [hu.leave] at hleave
  giveUp key c := by
    have hgiven := h.giveUp key (π c)
    rwa [hu.giveUp] at hgiven

end Traversal.Respects

end Sable

/-!
## Counted visits

A counted traversal does what the traversal does and counts how often its visits come to a place that
declares a given name. A walk over a module comes to each name no more often than the program declares
it; so the number of walks pays for the number of visits, whatever the walks turn to.
-/

namespace Sable

/-- A state with the number of visits that have come to a declared name on the way to it. -/
structure Counted (σ : Type) where
  /-- The state. -/
  state : σ
  /-- The number of visits. -/
  visits : Nat

variable {σ : Type}

/-- The same visits, of which those that come to the name are counted. -/
def Visitor.counted (x : Ident) (v : Visitor σ) : Visitor (Counted σ) where
  importing s i c := (v.importing s i c.state).map id (⟨·, c.visits⟩)
  function s name params ret c := (v.function s name params ret c.state).map id
    (⟨·, c.visits + (Head.mk none name params ret).names.count x⟩)
  method s receiver name params ret c := (v.method s receiver name params ret c.state).map id
    (⟨·, c.visits + (Head.mk (some receiver) name params ret).names.count x⟩)
  typeDecl s d c := ⟨v.typeDecl s d c.state, c.visits + (Stop.typeDecl d).names.count x⟩
  declaring s isConst targets values span c := ⟨v.declaring s isConst targets values span c.state,
    c.visits + (Stop.declaring isConst targets values span).names.count x⟩
  declared s targets values c := ⟨v.declared s targets values c.state, c.visits⟩
  assigning targets values span c := ⟨v.assigning targets values span c.state, c.visits⟩
  name s name c := ⟨v.name s name c.state, c.visits⟩
  qualified s module name c := ⟨v.qualified s module name c.state, c.visits⟩

/-- The same traversal, with its visits of the name counted. -/
def Traversal.counted (x : Ident) (t : Traversal σ) : Traversal (Counted σ) where
  enter key c := (t.enter key c.state).map id (⟨·, c.visits⟩)
  visitor m := (t.visitor m).counted x
  leave key c := ⟨t.leave key c.state, c.visits⟩
  giveUp key c := ⟨t.giveUp key c.state, c.visits⟩

variable {x : Ident} {v : Visitor σ} {t : Traversal σ}

/-- Counting visits changes nothing. -/
theorem Traversal.counted_projects (x : Ident) (t : Traversal σ) :
    (t.counted x).Projects Counted.state t where
  enter _ _ := rfl
  visitor _ := by constructor <;> intros <;> rfl
  leave _ _ := rfl
  giveUp _ _ := rfl

/-- Visits may be counted on a part of the state alone. -/
theorem Traversal.Projects.counted {τ : Type} {u : Traversal τ} {π : τ → σ} (h : u.Projects π t)
    (x : Ident) : (u.counted x).Projects (fun c => ⟨π c.state, c.visits⟩) (t.counted x) where
  enter key c := by simp only [Traversal.counted, h.enter, Prod.map, id]
  visitor m := by
    constructor <;> intros <;> simp only [Traversal.counted, Visitor.counted,
      (h.visitor m).importing, (h.visitor m).function, (h.visitor m).method,
      (h.visitor m).typeDecl, (h.visitor m).declaring, (h.visitor m).declared,
      (h.visitor m).assigning, (h.visitor m).name, (h.visitor m).qualified, Prod.map, id]
  leave key c := by simp only [Traversal.counted, h.leave]
  giveUp key c := by simp only [Traversal.counted, h.giveUp]

theorem Visitor.counted_stop (s : ScopeId) (y : Stop) (c : Counted σ) :
    (v.counted x).stop s y c = ⟨v.stop s y c.state, c.visits + y.names.count x⟩ := by
  cases y <;> rfl

theorem Visitor.counted_head (s : ScopeId) (h : Head) (c : Counted σ) :
    (v.counted x).head s h c =
      (v.head s h c.state).map id (⟨·, c.visits + h.names.count x⟩) := by
  obtain ⟨_ | receiver, name, params, ret⟩ := h <;> rfl

/-! ### Walks pay for visits -/

namespace Traversal

/--
A credit that never falls rises with every module that is entered, by the number of times that its
program declares the name; otherwise the run is off.
-/
structure Pays (x : Ident) (credit : σ → Nat) (Off : σ → Prop) (t : Traversal σ) : Prop where
  /-- The credit never falls, and a run that is off stays off. -/
  stays : t.Respects fun c d => credit c ≤ credit d ∧ (Off c → Off d)
  /-- It rises when a module is entered. -/
  enter : ∀ key c, ∀ m ∈ (t.enter key c).1,
    credit c + m.program.names.count x ≤ credit (t.enter key c).2 ∨ Off (t.enter key c).2

/-- Some visits are paid for besides a given number of them, or the run is off. -/
private def Covers (credit : σ → Nat) (Off : σ → Prop) (k : Nat) (c d : Counted σ) : Prop :=
  d.visits + credit c.state ≤ c.visits + k + credit d.state ∨ Off d.state

variable {credit : σ → Nat} {Off : σ → Prop} {k l : Nat} {c d e : Counted σ}

private theorem Covers.mono (h : Covers credit Off k c d) (hkl : k ≤ l) :
    Covers credit Off l c d := h.imp_left fun h => by omega

private theorem Covers.trans (h : Covers credit Off k c d) (h' : Covers credit Off l d e)
    (hoff : Off d.state → Off e.state) : Covers credit Off (k + l) c e := by
  rcases h with h | h
  · refine h'.imp_left fun h' => ?_
    omega
  · exact Or.inr (hoff h)

section

variable (h : t.Pays x credit Off) {turnTo : String → Counted σ → Counted σ}
  (hstays : ∀ key c, credit c.state ≤ credit (turnTo key c).state ∧
    (Off c.state → Off (turnTo key c).state))
  (hturn : ∀ key c, Covers credit Off 0 c (turnTo key c)) (m : Module)
include h hstays hturn

-- The assumptions are used somewhere in the recursion, though not in every theorem of it.
set_option linter.unusedSectionVars false

mutual

private theorem walkStep_covers (s : ScopeId) : ∀ (y : Step) (c : Counted σ),
    Covers credit Off (y.names.count x) c (((t.visitor m).counted x).walkStep turnTo s y c)
  | .importing i, c => by
    have himport := (h.stays.comap (t.counted_projects x)).importing m s i c
    rw [Visitor.walkStep, Visitor.walkImport, Step.names, List.count_nil]
    change credit c.state ≤ credit (((t.visitor m).counted x).importing s i c).2.state ∧ _ at himport
    have hvisits : (((t.visitor m).counted x).importing s i c).2.visits = c.visits := rfl
    generalize ((t.visitor m).counted x).importing s i c = r at himport hvisits
    obtain ⟨_ | key, d⟩ := r
    · exact Or.inl (by dsimp only at *; omega)
    · have hfirst : Covers credit Off 0 c d := Or.inl (by dsimp only at *; omega)
      exact hfirst.trans (hturn key d) (hstays key d).2
  | .stop y, c => by
    have hstop := h.stays.stop m s y c.state
    rw [Visitor.walkStep, Visitor.counted_stop]
    exact Or.inl (by dsimp only [Step.names]; omega)
  | .body hd inner, c => by
    have hhead := h.stays.head m s hd c.state
    rw [Visitor.walkStep, Visitor.counted_head, Step.names, List.count_append]
    generalize (t.visitor m).head s hd c.state = r at hhead
    obtain ⟨u?, d⟩ := r
    have hfirst : Covers credit Off (hd.names.count x) c ⟨d, c.visits + hd.names.count x⟩ :=
      Or.inl (by dsimp only at *; omega)
    cases u? with
    | none => exact hfirst.mono (Nat.le_add_right ..)
    | some u =>
      exact hfirst.trans (walkSteps_covers u inner _)
        ((h.stays.comap (t.counted_projects x)).walkSteps hstays m u inner _).2

private theorem walkSteps_covers (s : ScopeId) : ∀ (ys : List Step) (c : Counted σ),
    Covers credit Off ((Step.namesAll ys).count x) c
      (((t.visitor m).counted x).walkSteps turnTo s ys c)
  | [], c => Or.inl (Nat.le_refl _)
  | y :: ys, c => by
    rw [Step.namesAll, List.count_append]
    exact (walkStep_covers s y c).trans (walkSteps_covers s ys _)
      ((h.stays.comap (t.counted_projects x)).walkSteps hstays m s ys _).2

end

end

/-- A run makes no more visits than the walks pay for, or it is off. -/
theorem Pays.runWithin (h : t.Pays x credit Off) (n : Nat) (key : String) (c : Counted σ) :
    ((t.counted x).runWithin n key c).visits + credit c.state ≤
        c.visits + credit ((t.counted x).runWithin n key c).state ∨
      Off ((t.counted x).runWithin n key c).state := by
  change Covers credit Off 0 c ((t.counted x).runWithin n key c)
  have hstays := h.stays.comap (t.counted_projects x)
  induction n generalizing key c with
  | zero =>
    have hgiven := h.stays.giveUp key c.state
    exact Or.inl (by dsimp only [Traversal.runWithin, counted]; omega)
  | succ n ih =>
    have hgrows := h.stays.enter key c.state
    have henter := h.enter key c.state
    have hcounted : (t.counted x).enter key c = (t.enter key c.state).map id (⟨·, c.visits⟩) := rfl
    rw [Traversal.runWithin, hcounted]
    generalize t.enter key c.state = r at hgrows henter
    obtain ⟨m?, d⟩ := r
    have hfirst : Covers credit Off 0 c ⟨d, c.visits⟩ := Or.inl (by dsimp only at *; omega)
    cases m? with
    | none => exact hfirst
    | some m =>
      have hwalk := walkSteps_covers h (hstays.runWithin n) ih m m.root
        (Stmt.stepsAll m.program.stmts) ⟨d, c.visits⟩
      have hoff := hstays.walkSteps (hstays.runWithin n) m m.root (Stmt.stepsAll m.program.stmts)
        ⟨d, c.visits⟩
      have hnames : Step.namesAll (Stmt.stepsAll m.program.stmts) = m.program.names :=
        m.program.namesAll_steps
      dsimp only [Prod.map, id]
      rw [Visitor.walkStmts_eq]
      rw [hnames] at hwalk
      change Covers credit Off _ ⟨d, c.visits⟩ (((t.counted x).visitor m).walkSteps
        ((t.counted x).runWithin n) m.root (Stmt.stepsAll m.program.stmts) ⟨d, c.visits⟩) at hwalk
      generalize ((t.counted x).visitor m).walkSteps ((t.counted x).runWithin n) m.root
        (Stmt.stepsAll m.program.stmts) ⟨d, c.visits⟩ = e at hwalk hoff
      have hleave := h.stays.leave key e.state
      rcases henter m rfl with hpaid | hd
      · refine Or.imp (fun hcovers => ?_) hleave.2 hwalk
        dsimp only [counted] at *
        omega
      · exact Or.inr (hleave.2 (hoff.2 hd))

end Traversal

end Sable
