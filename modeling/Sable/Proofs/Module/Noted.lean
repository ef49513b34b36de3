import Sable.Proofs.Module.Discipline
import Sable.Proofs.Module.Projection
import Sable.Scope

/-!
# Noted visits

A noted traversal does what the traversal does and writes each visit down: the module whose
statements are walked, and the scopes in front of the visit and behind it. When a walk turns to an
imported module, the visits there are written down under that module. What a discipline tells about
the visits of a traversal, and about the little that happens between them, holds of all that has
been written down.
-/

namespace Sable

/-- What a visit on the walk over a module has done to the scopes. -/
structure Deed where
  /-- The key of the module whose statements are walked. -/
  key : String
  /-- The scopes in front of the visit. -/
  before : ScopeForest
  /-- The scopes behind the visit. -/
  after : ScopeForest

/-- A state with what has been done on the way to it. -/
structure Noted (σ : Type) where
  /-- The state. -/
  state : σ
  /-- What has been done, in order. -/
  deeds : List Deed

namespace Noted

variable {σ τ : Type}

/-- A state with nothing written down. -/
def start (c : σ) : Noted σ := ⟨c, []⟩

/-- Another state with the same things written down. -/
def put (c : Noted σ) (d : τ) : Noted τ := ⟨d, c.deeds⟩

/-- Another state, to which a visit on the walk over a module has led. -/
def visit (view : σ → ScopeForest) (key : String) (c : Noted σ) (d : σ) : Noted σ :=
  ⟨d, c.deeds ++ [⟨key, view c.state, view d⟩]⟩

end Noted

variable {σ : Type} (view : σ → ScopeForest)

/-- The same visits on the walk over a module, written down by what they do to the scopes. -/
def Visitor.noted (key : String) (v : Visitor σ) : Visitor (Noted σ) where
  importing s i c := (v.importing s i c.state).map id (c.visit view key)
  function s name params ret c :=
    (v.function s name params ret c.state).map id (c.visit view key)
  method s receiver name params ret c :=
    (v.method s receiver name params ret c.state).map id (c.visit view key)
  typeDecl s d c := c.visit view key (v.typeDecl s d c.state)
  declaring s isConst targets values span c :=
    c.visit view key (v.declaring s isConst targets values span c.state)
  declared s targets values c := c.visit view key (v.declared s targets values c.state)
  assigning targets values span c := c.visit view key (v.assigning targets values span c.state)
  name s name c := c.visit view key (v.name s name c.state)
  qualified s module name c := c.visit view key (v.qualified s module name c.state)

/-- The same traversal, with its visits written down. -/
def Traversal.noted (t : Traversal σ) : Traversal (Noted σ) where
  enter key c := (t.enter key c.state).map id c.put
  visitor m := (t.visitor m).noted view m.key
  leave key c := c.put (t.leave key c.state)
  giveUp key c := c.put (t.giveUp key c.state)

private theorem Visitor.noted_projects (key : String) (v : Visitor σ) :
    (v.noted view key).Projects Noted.state v := by
  constructor <;> intros <;> rfl

/-- Writing visits down changes nothing. -/
theorem Traversal.noted_projects (t : Traversal σ) : (t.noted view).Projects Noted.state t where
  enter _ _ := rfl
  visitor m := (t.visitor m).noted_projects view m.key
  leave _ _ := rfl
  giveUp _ _ := rfl

/-! ### What holds of noted visits -/

section

variable (P : List Deed → σ → Prop)

/-- A discipline tells enough about a traversal to keep what holds of its noted visits. -/
structure Discipline.Notes (D : Discipline σ) (t : Traversal σ) : Prop where
  /-- Nothing is done when a module is entered. -/
  enter : ∀ {stack key c}, D.Ready stack key c → ∀ W, P W c → P W (t.enter key c).2
  /-- What a visit does may be written down. -/
  visits : ∀ stack m, (t.visitor m).Visits (D.Admits m) (D.Stands m) (D.At stack m)
    fun c d => ∀ W, P W c → P (W ++ [⟨m.key, view c, view d⟩]) d
  /-- What the visit of an import does may be written down. -/
  importing : ∀ {stack m s i c}, D.Stands m s i → D.At stack m s c → ∀ W, P W c →
    P (W ++ [⟨m.key, view c, view ((t.visitor m).importing s i c).2⟩])
      ((t.visitor m).importing s i c).2
  /-- Nothing is done when a module is left. -/
  leave : ∀ {stack m c}, D.At stack m m.root c → ∀ W, P W c → P W (t.leave m.key c)

/-- The same discipline on states with what has been done. -/
def Discipline.noted (D : Discipline σ) : Discipline (Noted σ) where
  limit := D.limit
  Admits := D.Admits
  Stands := D.Stands
  Inv stack c := D.Inv stack c.state ∧ P c.deeds c.state
  Ready stack key c := D.Ready stack key c.state ∧ P c.deeds c.state
  Within m s c := D.Within m s c.state
  Ext c d := D.Ext c.state d.state
  Done m s i c := D.Done m s i c.state
  Finished key c := D.Finished key c.state

end

variable {view} {P : List Deed → σ → Prop} {D : Discipline σ} {t : Traversal σ} {v : Visitor σ}
  {m : Module} {stack : List String}

private theorem Visitor.Visits.noted
    (hv : v.Visits (D.Admits m) (D.Stands m) (D.At stack m) (D.Kept stack m))
    (hP : v.Visits (D.Admits m) (D.Stands m) (D.At stack m)
      fun c d => ∀ W, P W c → P (W ++ [⟨m.key, view c, view d⟩]) d) :
    (v.noted view m.key).Visits ((D.noted P).Admits m) ((D.noted P).Stands m)
      ((D.noted P).At stack m) ((D.noted P).Kept stack m) := by
  have h := hv.and hP
  have kept : ∀ {c : Noted σ} {d : σ},
      D.Kept stack m c.state d ∧ (∀ W, P W c.state → P (W ++ [⟨m.key, view c.state, view d⟩]) d) →
      (D.noted P).Kept stack m c (c.visit view m.key d) :=
    fun hd => ⟨hd.1.1, fun hc => ⟨hd.1.2 hc.1, hd.2 _ hc.2⟩⟩
  have opens : ∀ {s : ScopeId} {c : Noted σ} {r : Option ScopeId × σ},
      (D.noted P).At stack m s c →
      (D.Kept stack m c.state r.2 ∧
          ∀ W, P W c.state → P (W ++ [⟨m.key, view c.state, view r.2⟩]) r.2) ∧
        (∀ inner ∈ r.1, Opens (D.Admits m) (D.Stands m) (D.At stack m) inner r.2) →
      (D.noted P).Kept stack m c (c.visit view m.key r.2) ∧
        ∀ inner ∈ r.1, Opens (D.Admits m) (D.Stands m) ((D.noted P).At stack m) inner
          (c.visit view m.key r.2) :=
    fun hs hr => ⟨kept hr.1, fun inner hin =>
      ⟨⟨⟨(hr.2 inner hin).1.1, hr.1.2 _ hs.1.2⟩, (hr.2 inner hin).1.2⟩, (hr.2 inner hin).2⟩⟩
  constructor
  · exact fun name params ret hs => opens hs (h.function name params ret ⟨hs.1.1, hs.2⟩)
  · exact fun receiver name params ret hr hs =>
      opens hs (h.method receiver name params ret hr ⟨hs.1.1, hs.2⟩)
  · exact fun d hs => kept (h.typeDecl d ⟨hs.1.1, hs.2⟩)
  · exact fun isConst targets values span hs =>
      kept (h.declaring isConst targets values span ⟨hs.1.1, hs.2⟩)
  · exact fun targets values hs => kept (h.declared targets values ⟨hs.1.1, hs.2⟩)
  · exact fun targets values span hs => kept (h.assigning targets values span ⟨hs.1.1, hs.2⟩)
  · exact fun name hs => kept (h.name name ⟨hs.1.1, hs.2⟩)
  · exact fun module name hs => kept (h.qualified module name ⟨hs.1.1, hs.2⟩)

/-- A traversal that keeps to a discipline does so when its visits are written down. -/
theorem Traversal.Obeys.noted (h : t.Obeys D) (hP : D.Notes view P t) :
    (t.noted view).Obeys (D.noted P) where
  refl c := h.refl c.state
  trans := h.trans
  within_later := h.within_later
  done_later := h.done_later
  room hready := h.room hready.1
  passes {stack key c d} hready he := by
    have hkept := hP.enter hready.1 _ hready.2
    rcases henter : t.enter key c.state with ⟨m?, e⟩
    rw [henter] at hkept
    obtain ⟨rfl, rfl⟩ : m? = none ∧ c.put e = d := by
      simpa [Traversal.noted, henter] using he
    obtain ⟨hinv, hext, hfin⟩ := h.passes hready.1 henter
    exact ⟨⟨hinv, hkept⟩, hext, hfin⟩
  enters {stack key c m d} hready he := by
    have hkept := hP.enter hready.1 _ hready.2
    rcases henter : t.enter key c.state with ⟨m?, e⟩
    rw [henter] at hkept
    obtain ⟨rfl, rfl⟩ : m? = some m ∧ c.put e = d := by
      simpa [Traversal.noted, henter] using he
    obtain ⟨hkey, hinv, hext, hrest⟩ := h.enters hready.1 henter
    exact ⟨hkey, ⟨hinv, hkept⟩, hext, hrest⟩
  visits stack m := (h.visits stack m).noted (hP.visits stack m)
  stays {stack m s i c d} hi hs he := by
    have hkept := hP.importing hi ⟨hs.1.1, hs.2⟩ _ hs.1.2
    rcases himport : (t.visitor m).importing s i c.state with ⟨key?, e⟩
    rw [himport] at hkept
    obtain ⟨rfl, rfl⟩ : key? = none ∧ c.visit view m.key e = d := by
      simpa [Traversal.noted, Visitor.noted, himport] using he
    obtain ⟨hinv, hext, hdone⟩ := h.stays hi ⟨hs.1.1, hs.2⟩ himport
    exact ⟨⟨hinv, hkept⟩, hext, hdone⟩
  turns {stack m s i c key d} hi hs he := by
    have hkept := hP.importing hi ⟨hs.1.1, hs.2⟩ _ hs.1.2
    rcases himport : (t.visitor m).importing s i c.state with ⟨key?, e⟩
    rw [himport] at hkept
    obtain ⟨rfl, rfl⟩ : key? = some key ∧ c.visit view m.key e = d := by
      simpa [Traversal.noted, Visitor.noted, himport] using he
    obtain ⟨hready, hext, hdone⟩ := h.turns hi ⟨hs.1.1, hs.2⟩ himport
    exact ⟨⟨hready, hkept⟩, hext, fun b hb hinv hfin => hdone b.state hb hinv.1 hfin⟩
  leaves {stack m c} hinv hs hdone := by
    obtain ⟨hinv', hext, hfin⟩ := h.leaves hinv.1 hs hdone
    exact ⟨⟨hinv', hP.leave ⟨hinv.1, hs⟩ _ hinv.2⟩, hext, hfin⟩

end Sable
