import Sable.Diagnostic
import Sable.Proofs.Module.Discipline
import Sable.Proofs.Module.Projection
import Mathlib.Data.List.Count

/-!
# Traces

A traced traversal does what the traversal does and writes down what happens: which modules it
is called on, while which others are still being walked, whose statements it walks, and where it
stops short. A discipline that keeps the open walks apart is enough to tell what a trace looks
like, however often traversals of several passes follow each other.
-/

namespace Sable

/-- What is written down about a traversal. -/
inductive Event
  /-- A pass is called on the module under a key while the walks of others are open. -/
  | called (pass : Pass) (stack : List String) (key : String)
  /-- A pass walks the statements of the module under a key. -/
  | walked (pass : Pass) (key : String)
  /-- A pass stops short of the module under a key. -/
  | cut (pass : Pass) (key : String)
  deriving DecidableEq, Repr

/-- A state with what has been written down on the way to it. -/
structure Traced (σ : Type) where
  /-- The state. -/
  state : σ
  /-- The modules whose walks are open, the last one first. -/
  stack : List String
  /-- What has happened, in order. -/
  events : List Event

namespace Traced

variable {σ τ : Type}

/-- A state with nothing written down. -/
def start (c : σ) : Traced σ := ⟨c, [], []⟩

/-- Another state with the same things written down. -/
def put (c : Traced σ) (d : τ) : Traced τ := ⟨d, c.stack, c.events⟩

/-- Writes one more thing down. -/
def note (c : Traced σ) (e : Event) : Traced σ := { c with events := c.events ++ [e] }

end Traced

variable {σ : Type}

/-- The same visits on states with a trace; visits are not written down. -/
def Visitor.traced (v : Visitor σ) : Visitor (Traced σ) where
  importing s i c := (v.importing s i c.state).map id c.put
  function s name params ret c := (v.function s name params ret c.state).map id c.put
  method s receiver name params ret c :=
    (v.method s receiver name params ret c.state).map id c.put
  typeDecl s d c := c.put (v.typeDecl s d c.state)
  declaring s isConst targets values span c :=
    c.put (v.declaring s isConst targets values span c.state)
  declared s targets values c := c.put (v.declared s targets values c.state)
  assigning targets values span c := c.put (v.assigning targets values span c.state)
  name s name c := c.put (v.name s name c.state)
  qualified s module name c := c.put (v.qualified s module name c.state)

/-- The same traversal on states with a trace, written down as a pass. -/
def Traversal.traced (pass : Pass) (t : Traversal σ) : Traversal (Traced σ) where
  enter key c :=
    let called := c.note (.called pass c.stack key)
    match t.enter key c.state with
    | (none, d) => (none, called.put d)
    | (some m, d) =>
      (some m, { (called.note (.walked pass key)).put d with stack := key :: c.stack })
  visitor m := (t.visitor m).traced
  leave key c := { c.put (t.leave key c.state) with stack := c.stack.tail }
  giveUp key c := (c.note (.cut pass key)).put (t.giveUp key c.state)

/-! ### The state of a traced traversal -/

private theorem Visitor.traced_projects (v : Visitor σ) : v.traced.Projects Traced.state v := by
  constructor <;> intros <;> rfl

/-- Writing things down changes nothing. -/
theorem Traversal.traced_projects (pass : Pass) (t : Traversal σ) :
    (t.traced pass).Projects Traced.state t where
  enter key c := by
    simp only [traced]
    rcases t.enter key c.state with ⟨_ | m, d⟩ <;> rfl
  visitor m := (t.visitor m).traced_projects
  leave _ _ := rfl
  giveUp _ _ := rfl

/-! ### Traces in order -/

section

variable (Walked : Pass → String → σ → Prop) (Known : String → σ → Prop)

/-- What has been written down is in order, as seen from the open walks of a pass. -/
structure Traced.Orderly (pass : Pass) (stack : List String) (c : Traced σ) : Prop where
  /-- The open walks are those that are written down. -/
  stack_eq : c.stack = stack
  /-- No pass has stopped short. -/
  uncut : ∀ p k, .cut p k ∉ c.events
  /-- No pass is called on a module on an open walk. -/
  called : ∀ p st k, .called p st k ∈ c.events → (k :: st).Nodup ∧ ∀ k' ∈ k :: st, Known k' c.state
  /-- No pass has walked a module twice. -/
  once : ∀ p k, c.events.count (.walked p k) ≤ 1
  /-- A module that has been walked shows it, or its walk is open. -/
  walked : ∀ p k, .walked p k ∈ c.events → Walked p k c.state ∨ (p = pass ∧ k ∈ stack)

/-- A discipline tells enough about a traversal to keep its trace in order. -/
structure Discipline.Tells (D : Discipline σ) (t : Traversal σ) (pass : Pass) : Prop where
  /-- A module that is finished shows that it has been walked. -/
  finished : ∀ {key c}, D.Finished key c → Walked pass key c
  /-- A module goes on to show that it has been walked. -/
  walked_later : ∀ {p k c d}, D.Ext c d → Walked p k c → Walked p k d
  /-- A module goes on to be known. -/
  known_later : ∀ {k c d}, D.Ext c d → Known k c → Known k d
  /-- A module that may be turned to is on no open walk. -/
  opens : ∀ {stack key c}, D.Ready stack key c →
    (key :: stack).Nodup ∧ ∀ k ∈ key :: stack, Known k c
  /-- A module that is entered does not show that it has been walked. -/
  first : ∀ {stack key c m d}, D.Ready stack key c → t.enter key c = (some m, d) →
    ¬ Walked pass key c

/-- The same discipline on states with a trace in order. -/
def Discipline.traced (D : Discipline σ) (pass : Pass) : Discipline (Traced σ) where
  limit := D.limit
  Admits := D.Admits
  Stands := D.Stands
  Inv stack c := D.Inv stack c.state ∧ c.Orderly Walked Known pass stack
  Ready stack key c := D.Ready stack key c.state ∧ c.Orderly Walked Known pass stack
  Within m s c := D.Within m s c.state
  Ext c d := D.Ext c.state d.state
  Done m s i c := D.Done m s i c.state
  Finished key c := D.Finished key c.state

end

variable {Walked : Pass → String → σ → Prop} {Known : String → σ → Prop} {D : Discipline σ}
  {t : Traversal σ} {pass : Pass} {stack : List String} {key : String} {c : Traced σ} {d : σ}

namespace Traced.Orderly

/-- The state may change, and may even become one of another kind. -/
theorem put {τ : Type} {Walked' : Pass → String → τ → Prop} {Known' : String → τ → Prop} {d : τ}
    (h : c.Orderly Walked Known pass stack) (hw : ∀ p k, Walked p k c.state → Walked' p k d)
    (hk : ∀ k, Known k c.state → Known' k d) : (c.put d).Orderly Walked' Known' pass stack where
  stack_eq := h.stack_eq
  uncut := h.uncut
  called p st k hmem := by
    obtain ⟨hnodup, hknown⟩ := h.called p st k hmem
    exact ⟨hnodup, fun k' hk' => hk k' (hknown k' hk')⟩
  once := h.once
  walked p k hmem := (h.walked p k hmem).imp_left (hw p k)

/-- The state may change as the discipline allows. -/
theorem later (h : c.Orderly Walked Known pass stack) (hn : D.Tells Walked Known t pass)
    (hd : D.Ext c.state d) : (c.put d).Orderly Walked Known pass stack :=
  h.put (fun _ _ => hn.walked_later hd) fun _ => hn.known_later hd

/-- Without open walks, it does not matter which pass comes next. -/
theorem of_nil (h : c.Orderly Walked Known pass []) (pass' : Pass) :
    c.Orderly Walked Known pass' [] :=
  ⟨h.stack_eq, h.uncut, h.called, h.once, fun p k hk => (h.walked p k hk).imp_right (by simp)⟩

/-- A call on a module that may be turned to may be written down. -/
theorem note_called (h : c.Orderly Walked Known pass stack) (hn : D.Tells Walked Known t pass)
    (hready : D.Ready stack key c.state) :
    (c.note (.called pass c.stack key)).Orderly Walked Known pass stack where
  stack_eq := h.stack_eq
  uncut p k := by simp [note, h.uncut p k]
  called p st k hk := by
    rcases List.mem_append.mp hk with hk | hk
    · exact h.called p st k hk
    · obtain ⟨rfl, rfl, rfl⟩ := Event.called.inj (List.mem_singleton.mp hk)
      exact h.stack_eq ▸ hn.opens hready
  once p k := by
    rw [note, List.count_append, List.count_singleton]
    simpa using h.once p k
  walked p k hk := h.walked p k (by simpa [note] using hk)

/-- The walk of a module that may be turned to may be opened, if it was not walked before. -/
theorem open_walk (h : c.Orderly Walked Known pass stack) (hn : D.Tells Walked Known t pass)
    (hready : D.Ready stack key c.state) (hfirst : ¬ Walked pass key c.state) :
    Orderly Walked Known pass (key :: stack)
      { c.note (.walked pass key) with stack := key :: c.stack } where
  stack_eq := by simp [h.stack_eq]
  uncut p k := by simp [note, h.uncut p k]
  called p st k hk := h.called p st k (by simpa [note] using hk)
  once p k := by
    simp only [note, List.count_append, List.count_singleton]
    split
    · next heq =>
      -- The module has been walked by no earlier event, since it neither shows it nor is open.
      obtain ⟨rfl, rfl⟩ := Event.walked.inj (beq_iff_eq.mp heq)
      have hnone : .walked pass key ∉ c.events := by
        intro hmem
        rcases h.walked pass key hmem with hwalked | ⟨-, hopen⟩
        · exact hfirst hwalked
        · exact (List.nodup_cons.mp (hn.opens hready).1).1 hopen
      have hcount := List.count_eq_zero.mpr hnone
      omega
    · exact h.once p k
  walked p k hk := by
    rcases List.mem_append.mp hk with hk | hk
    · exact (h.walked p k hk).imp_right fun ⟨hp, hopen⟩ => ⟨hp, List.mem_cons_of_mem _ hopen⟩
    · obtain ⟨rfl, rfl⟩ := Event.walked.inj (List.mem_singleton.mp hk)
      exact Or.inr ⟨rfl, List.mem_cons_self ..⟩

/-- The walk that was opened last may be closed, if its module shows that it has been walked. -/
theorem close_walk (h : c.Orderly Walked Known pass (key :: stack))
    (hwalked : Walked pass key c.state) :
    Orderly Walked Known pass stack { c with stack := c.stack.tail } where
  stack_eq := by simp [h.stack_eq]
  uncut := h.uncut
  called := h.called
  once := h.once
  walked p k hk := by
    rcases h.walked p k hk with hk | ⟨rfl, hopen⟩
    · exact Or.inl hk
    · rcases List.mem_cons.mp hopen with rfl | hopen
      · exact Or.inl hwalked
      · exact Or.inr ⟨rfl, hopen⟩

end Traced.Orderly

/-! ### The discipline of a traced traversal -/

private theorem Visitor.Visits.traced {v : Visitor σ} {m : Module}
    (hv : v.Visits (D.Admits m) (D.Stands m) (D.At stack m) (D.Kept stack m))
    (hn : D.Tells Walked Known t pass) :
    v.traced.Visits ((D.traced Walked Known pass).Admits m)
      ((D.traced Walked Known pass).Stands m) ((D.traced Walked Known pass).At stack m)
      ((D.traced Walked Known pass).Kept stack m) := by
  have kept : ∀ {c : Traced σ} {d : σ}, D.Kept stack m c.state d →
      (D.traced Walked Known pass).Kept stack m c (c.put d) :=
    fun hd => ⟨hd.1, fun h => ⟨hd.2 h.1, h.2.later hn hd.1⟩⟩
  have opens : ∀ {s : ScopeId} {c : Traced σ} {r : Option ScopeId × σ},
      (D.traced Walked Known pass).At stack m s c →
      (D.Kept stack m c.state r.2 ∧
        ∀ inner ∈ r.1, Opens (D.Admits m) (D.Stands m) (D.At stack m) inner r.2) →
      (D.traced Walked Known pass).Kept stack m c (c.put r.2) ∧
        ∀ inner ∈ r.1, Opens (D.Admits m) (D.Stands m) ((D.traced Walked Known pass).At stack m)
          inner (c.put r.2) :=
    fun hs hr => ⟨kept hr.1, fun inner hin =>
      ⟨⟨⟨(hr.2 inner hin).1.1, hs.1.2.later hn hr.1.1⟩, (hr.2 inner hin).1.2⟩,
        (hr.2 inner hin).2⟩⟩
  constructor
  · exact fun name params ret hs => opens hs (hv.function name params ret ⟨hs.1.1, hs.2⟩)
  · exact fun receiver name params ret hr hs =>
      opens hs (hv.method receiver name params ret hr ⟨hs.1.1, hs.2⟩)
  · exact fun d hs => kept (hv.typeDecl d ⟨hs.1.1, hs.2⟩)
  · exact fun isConst targets values span hs =>
      kept (hv.declaring isConst targets values span ⟨hs.1.1, hs.2⟩)
  · exact fun targets values hs => kept (hv.declared targets values ⟨hs.1.1, hs.2⟩)
  · exact fun targets values span hs => kept (hv.assigning targets values span ⟨hs.1.1, hs.2⟩)
  · exact fun name hs => kept (hv.name name ⟨hs.1.1, hs.2⟩)
  · exact fun module name hs => kept (hv.qualified module name ⟨hs.1.1, hs.2⟩)

/-- A traversal that keeps to a discipline does so when it is traced, with a trace in order. -/
theorem Traversal.Obeys.traced (h : t.Obeys D) (hn : D.Tells Walked Known t pass) :
    (t.traced pass).Obeys (D.traced Walked Known pass) where
  refl c := h.refl c.state
  trans := h.trans
  within_later := h.within_later
  done_later := h.done_later
  room hready := h.room hready.1
  passes {stack key c d} hready he := by
    simp only [Traversal.traced] at he
    rcases henter : t.enter key c.state with ⟨_ | m, e⟩
    · simp only [henter, Prod.mk.injEq, true_and] at he
      obtain ⟨hinv, hext, hfin⟩ := h.passes hready.1 henter
      subst he
      exact ⟨⟨hinv, (hready.2.note_called hn hready.1).later hn hext⟩, hext, hfin⟩
    · simp [henter] at he
  enters {stack key c m d} hready he := by
    simp only [Traversal.traced] at he
    rcases henter : t.enter key c.state with ⟨_ | m', e⟩
    · simp [henter] at he
    · simp only [henter, Prod.mk.injEq, Option.some.injEq] at he
      obtain ⟨rfl, rfl⟩ := he
      obtain ⟨hkey, hinv, hext, hwithin⟩ := h.enters hready.1 henter
      have hcalled := hready.2.note_called hn hready.1
      have hopen := hcalled.open_walk hn hready.1 (hn.first hready.1 henter)
      exact ⟨hkey, ⟨hinv, hopen.later hn hext⟩, hext, hwithin⟩
  visits stack m := (h.visits stack m).traced hn
  stays {stack m s i c d} hi hs he := by
    rcases himport : (t.visitor m).importing s i c.state with ⟨_ | key, e⟩
    · obtain ⟨-, rfl⟩ : (none : Option String) = none ∧ c.put e = d := by
        simpa [Traversal.traced, Visitor.traced, himport] using he
      obtain ⟨hinv, hext, hdone⟩ := h.stays hi ⟨hs.1.1, hs.2⟩ himport
      exact ⟨⟨hinv, hs.1.2.later hn hext⟩, hext, hdone⟩
    · simp [Traversal.traced, Visitor.traced, himport] at he
  turns {stack m s i c key d} hi hs he := by
    rcases himport : (t.visitor m).importing s i c.state with ⟨_ | key', e⟩
    · simp [Traversal.traced, Visitor.traced, himport] at he
    · obtain ⟨rfl, rfl⟩ : key' = key ∧ c.put e = d := by
        simpa [Traversal.traced, Visitor.traced, himport] using he
      obtain ⟨hready, hext, hdone⟩ := h.turns hi ⟨hs.1.1, hs.2⟩ himport
      exact ⟨⟨hready, hs.1.2.later hn hext⟩, hext,
        fun b hb hinv hfin => hdone b.state hb hinv.1 hfin⟩
  leaves {stack m c} hinv hs hdone := by
    obtain ⟨hinv', hext, hfin⟩ := h.leaves hinv.1 hs hdone
    exact ⟨⟨hinv', (hinv.2.later hn hext).close_walk (hn.finished hfin)⟩, hext, hfin⟩

end Sable
