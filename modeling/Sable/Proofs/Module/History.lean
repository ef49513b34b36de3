import Mathlib.Data.List.Nodup
import Mathlib.Data.List.Perm.Basic
import Sable.Proofs.Module.Discipline
import Sable.Proofs.Module.Script

/-!
# Histories

A traversal turns from one module to another in the middle of a walk, and back. Its history
unrolls this: one visit after the other, each in a scope of the module that it belongs to, and
the walks that were closed in between. The visits that belong to a closed walk spell the script
of its module. So what a traversal keeps can be proved by induction on the history, without any
regard to the order in which modules are turned to.
-/

namespace Sable

/-- One visit on a walk over a module, with the scope it is made in. -/
inductive Visit
  /-- A visit of an import. -/
  | importing (s : ScopeId) (i : Import)
  /-- A visit of a place that stays in its scope. -/
  | stop (s : ScopeId) (x : Stop)
  /-- A visit of the head of a function, with the scope that is found for its body, if any. -/
  | head (s : ScopeId) (h : Head) (inner? : Option ScopeId)

/-- The visits of a walk that follows a script from a scope. -/
inductive Spells : ScopeId → List Step → List Visit → Prop
  | nil {s : ScopeId} : Spells s [] []
  | importing {s : ScopeId} {i : Import} {ys : List Step} {L : List Visit} : Spells s ys L →
    Spells s (.importing i :: ys) (.importing s i :: L)
  | stop {s : ScopeId} {x : Stop} {ys : List Step} {L : List Visit} : Spells s ys L →
    Spells s (.stop x :: ys) (.stop s x :: L)
  | skip {s : ScopeId} {h : Head} {zs ys : List Step} {L : List Visit} : Spells s ys L →
    Spells s (.body h zs :: ys) (.head s h none :: L)
  | body {s t : ScopeId} {h : Head} {zs ys : List Step} {K L : List Visit} : Spells t zs K →
    Spells s ys L → Spells s (.body h zs :: ys) (.head s h (some t) :: (K ++ L))

namespace Visitor

variable {σ : Type}

/--
A relation between states that the visits between them are known to leave behind. In which state
a step may be made in a scope is said by `At`, and which steps may be made there by `Ok`.
-/
structure Tracks (v : Visitor σ) (turnTo : String → σ → σ) (Ok : ScopeId → Step → Prop)
    (At : ScopeId → σ → Prop) (R : List Visit → σ → σ → Prop) : Prop where
  /-- Nothing may happen. -/
  refl : ∀ c, R [] c c
  /-- One thing may happen after the other. -/
  trans : ∀ {L K c d e}, R L c d → R K d e → R (L ++ K) c e
  /-- A scope that may be visited may be visited later as well. -/
  later : ∀ {s L c d}, R L c d → At s c → At s d
  /-- An import leaves its visit behind, with all that it turns to. -/
  importing : ∀ {s i c}, Ok s (.importing i) → At s c →
    R [.importing s i] c (v.walkImport turnTo s i c)
  /-- So does a place that stays in its scope. -/
  stop : ∀ {s x c}, Ok s (.stop x) → At s c → R [.stop s x] c (v.stop s x c)
  /-- So does the head of a function, and its body may be visited. -/
  body : ∀ {s h ys c}, Ok s (.body h ys) → At s c →
    R [.head s h (v.head s h c).1] c (v.head s h c).2 ∧
      ∀ t ∈ (v.head s h c).1, At t (v.head s h c).2 ∧ ∀ y ∈ ys, Ok t y

variable {v : Visitor σ} {turnTo : String → σ → σ} {Ok : ScopeId → Step → Prop}
  {At : ScopeId → σ → Prop} {R : List Visit → σ → σ → Prop}

mutual

private theorem walkStep_tracks (hv : v.Tracks turnTo Ok At R) {s : ScopeId} :
    ∀ (y : Step) {c : σ}, Ok s y → At s c →
      ∃ L, (∀ ys K, Spells s ys K → Spells s (y :: ys) (L ++ K)) ∧ R L c (v.walkStep turnTo s y c)
  | .importing i, _, hy, hs => ⟨_, fun _ _ h => .importing h, hv.importing hy hs⟩
  | .stop x, _, hy, hs => ⟨_, fun _ _ h => .stop h, hv.stop hy hs⟩
  | .body h zs, c, hy, hs => by
    obtain ⟨hhead, hbody⟩ := hv.body hy hs
    rw [walkStep]
    generalize v.head s h c = r at hhead hbody
    obtain ⟨_ | t, d⟩ := r
    · exact ⟨_, fun _ _ h => .skip h, hhead⟩
    · obtain ⟨ht, hzs⟩ := hbody t rfl
      obtain ⟨K, hspells, hwalk⟩ := walkSteps_tracks hv zs hzs ht
      refine ⟨_, fun ys L hL => ?_, hv.trans hhead hwalk⟩
      exact .body hspells hL

/-- Following a script leaves the visits behind that spell it. -/
theorem walkSteps_tracks (hv : v.Tracks turnTo Ok At R) {s : ScopeId} :
    ∀ (ys : List Step) {c : σ}, (∀ y ∈ ys, Ok s y) → At s c →
      ∃ L, Spells s ys L ∧ R L c (v.walkSteps turnTo s ys c)
  | [], c, _, _ => ⟨[], .nil, hv.refl c⟩
  | y :: ys, c, hys, hs => by
    rw [List.forall_mem_cons] at hys
    obtain ⟨L, hy, hstep⟩ := walkStep_tracks hv y hys.1 hs
    obtain ⟨K, hspells, hrest⟩ := walkSteps_tracks hv ys hys.2 (hv.later hstep hs)
    exact ⟨L ++ K, hy ys K hspells, hv.trans hstep hrest⟩

end

end Visitor

/-! ### Logs -/

/-- What is noted about a traversal. -/
inductive Entry
  /-- A visit on a walk over a module. -/
  | visited (m : Module) (v : Visit)
  /-- A walk over a module is closed. -/
  | closed (m : Module)

namespace Entry

/-- The visits that are noted of the module under a key. -/
def visitsOf (key : String) (W : List Entry) : List Visit :=
  W.filterMap fun
    | visited m v => if m.key = key then some v else none
    | closed _ => none

/-- The modules whose walks are noted to be closed, in order. -/
def closedIn (W : List Entry) : List Module :=
  W.filterMap fun
    | visited _ _ => none
    | closed m => some m

variable {W K : List Entry} {m : Module} {key : String} {v : Visit}

@[simp] theorem visitsOf_append (key : String) (W K : List Entry) :
    visitsOf key (W ++ K) = visitsOf key W ++ visitsOf key K := List.filterMap_append

@[simp] theorem closedIn_append (W K : List Entry) :
    closedIn (W ++ K) = closedIn W ++ closedIn K := List.filterMap_append

@[simp] theorem visitsOf_visited (m : Module) (v : Visit) : visitsOf m.key [visited m v] = [v] := by
  simp [visitsOf]

@[simp] theorem closedIn_visited (m : Module) (v : Visit) : closedIn [visited m v] = [] := rfl

@[simp] theorem visitsOf_closed (key : String) (m : Module) : visitsOf key [closed m] = [] := rfl

@[simp] theorem closedIn_closed (m : Module) : closedIn [closed m] = [m] := rfl

@[simp] theorem mem_closedIn : m ∈ closedIn W ↔ closed m ∈ W := by
  simp only [closedIn, List.mem_filterMap]
  constructor
  · rintro ⟨_ | m', hmem, he⟩
    · cases he
    · cases he
      exact hmem
  · exact fun h => ⟨closed m, h, rfl⟩

theorem mem_visitsOf : v ∈ visitsOf key W ↔ ∃ m, m.key = key ∧ visited m v ∈ W := by
  simp only [visitsOf, List.mem_filterMap]
  constructor
  · rintro ⟨⟨m, v'⟩ | m, hmem, he⟩
    · obtain ⟨hkey, hv⟩ := Option.ite_none_right_eq_some.mp he
      cases hv
      exact ⟨m, hkey, hmem⟩
    · cases he
  · rintro ⟨m, hkey, hmem⟩
    exact ⟨visited m v, hmem, if_pos hkey⟩

section

variable {α : Type} (f : Module → Visit → List α) {ms : List Module}

end

end Entry

/-! ### Histories of traversals -/

section

variable {σ : Type} (t : Traversal σ) (D : Discipline σ)

/-- A state that a traversal comes to from another one, under a discipline, with the log of it. -/
inductive Traversal.History (c₀ : σ) : List Entry → σ → Prop
  /-- Nothing has happened. -/
  | start : Traversal.History c₀ [] c₀
  /-- A module is asked for. -/
  | enter {W : List Entry} {c : σ} {stack : List String} {key : String} :
    Traversal.History c₀ W c → D.Ready stack key c → Traversal.History c₀ W (t.enter key c).2
  /-- An import is visited. -/
  | importing {W : List Entry} {c : σ} {stack : List String} {m : Module} {s : ScopeId}
      {i : Import} :
    Traversal.History c₀ W c → D.At stack m s c → D.Stands m s i →
    (Step.importing i).Occurs m.program.steps →
    Traversal.History c₀ (W ++ [.visited m (.importing s i)]) ((t.visitor m).importing s i c).2
  /-- A place that stays in its scope is visited. -/
  | stop {W : List Entry} {c : σ} {stack : List String} {m : Module} {s : ScopeId} {x : Stop} :
    Traversal.History c₀ W c → D.At stack m s c → (Step.stop x).Occurs m.program.steps →
    Traversal.History c₀ (W ++ [.visited m (.stop s x)]) ((t.visitor m).stop s x c)
  /-- The head of a function is visited. -/
  | head {W : List Entry} {c : σ} {stack : List String} {m : Module} {s : ScopeId} {h : Head}
      {ys : List Step} :
    Traversal.History c₀ W c → D.At stack m s c → (Step.body h ys).Occurs m.program.steps →
    Traversal.History c₀ (W ++ [.visited m (.head s h ((t.visitor m).head s h c).1)])
      ((t.visitor m).head s h c).2
  /-- A walk is closed. -/
  | close {W : List Entry} {c : σ} {stack : List String} {m : Module} :
    Traversal.History c₀ W c → D.At stack m m.root c →
    Traversal.History c₀ (W ++ [.closed m]) (t.leave m.key c)

/-- A traversal never walks a module twice. -/
structure Traversal.Once : Prop where
  /-- What is achieved for a module stays achieved. -/
  finished_later : ∀ {key c d}, D.Ext c d → D.Finished key c → D.Finished key d
  /-- A module that is entered has not been finished, and no walk over it is open. -/
  fresh : ∀ {stack key c m d}, D.Ready stack key c → t.enter key c = (some m, d) →
    ¬ D.Finished key c ∧ key ∉ stack

/-- The walks that are closed in a log were all opened and closed between two states. -/
structure Discipline.Closes (stack : List String) (c : σ) (W : List Entry) (d : σ) : Prop where
  /-- No walk over the module was open, and the module was not finished before. -/
  fresh : ∀ {m}, .closed m ∈ W → m.key ∉ stack ∧ ¬ D.Finished m.key c
  /-- The module is finished. -/
  finished : ∀ {m}, .closed m ∈ W → D.Finished m.key d
  /-- The visits that are noted of the module spell its script. -/
  spells : ∀ {m}, .closed m ∈ W → Spells m.root m.program.steps (Entry.visitsOf m.key W)
  /-- No module has been walked twice. -/
  nodup : ((Entry.closedIn W).map Module.key).Nodup
  /-- What is to be achieved for the imports that are noted has been achieved. -/
  followed : ∀ {m s i}, .visited m (.importing s i) ∈ W → D.Within m s d ∧ D.Done m s i d

end

variable {σ : Type} {t : Traversal σ} {D : Discipline σ}

/-- A log that notes no closed walk between two states. -/
private theorem closes_of_none {stack : List String} {c d : σ} {W : List Entry}
    (h : Entry.closedIn W = [])
    (hfollowed : ∀ {m s i}, .visited m (.importing s i) ∈ W → D.Within m s d ∧ D.Done m s i d) :
    D.Closes stack c W d := by
  have hnone : ∀ {m}, .closed m ∉ W := by
    intro m hm
    rw [← Entry.mem_closedIn, h] at hm
    cases hm
  exact ⟨fun hm => absurd hm hnone, fun hm => absurd hm hnone, fun hm => absurd hm hnone,
    by simp [h], hfollowed⟩

/-- A module that is finished in the middle is not visited in the second half of a log. -/
private theorem visitsOf_eq_nil {W : List Entry} {m : Module} {key : String}
    (hvisited : ∀ m' v, .visited m' v ∈ W → m' = m ∨ .closed m' ∈ W) (hkey : key ≠ m.key)
    (hclosed : ∀ m', .closed m' ∈ W → m'.key ≠ key) : Entry.visitsOf key W = [] := by
  refine List.eq_nil_iff_forall_not_mem.mpr fun v hv => ?_
  obtain ⟨m', rfl, hmem⟩ := Entry.mem_visitsOf.mp hv
  rcases hvisited m' v hmem with rfl | hm'
  · exact hkey rfl
  · exact hclosed m' hm' rfl

/-- A walk over a module that is open has left its visits in the log. -/
private structure Traversal.Leaves (t : Traversal σ) (D : Discipline σ) (c₀ : σ)
    (stack : List String) (m : Module) (L : List Visit) (c d : σ) : Prop where
  /-- The discipline is kept. -/
  kept : D.Kept stack m c d
  /-- Every history goes on. -/
  onward : ∀ W, t.History D c₀ W c → ∃ K, t.History D c₀ (W ++ K) d ∧
    D.Closes (m.key :: stack) c K d ∧ Entry.visitsOf m.key K = L ∧
      ∀ m' v, .visited m' v ∈ K → m' = m ∨ .closed m' ∈ K

section Walk

variable (ho : t.Once D) {stack : List String} {m : Module} {c d e : σ}

/-- What is achieved for an import that is noted stays achieved. -/
private theorem followed_later (h : t.Obeys D) (hde : D.Ext d e) {s : ScopeId} {i : Import}
    (hdone : D.Within m s d ∧ D.Done m s i d) : D.Within m s e ∧ D.Done m s i e :=
  ⟨h.within_later hde hdone.1, h.done_later hdone.1 hde hdone.2⟩

include ho in
/-- Logs of walks that follow each other are put together. -/
private theorem closes_append (h : t.Obeys D) (hcd : D.Ext c d) (hde : D.Ext d e)
    {K₁ K₂ : List Entry}
    (h₁ : D.Closes (m.key :: stack) c K₁ d) (h₂ : D.Closes (m.key :: stack) d K₂ e)
    (hv₁ : ∀ m' v, .visited m' v ∈ K₁ → m' = m ∨ .closed m' ∈ K₁)
    (hv₂ : ∀ m' v, .visited m' v ∈ K₂ → m' = m ∨ .closed m' ∈ K₂) :
    D.Closes (m.key :: stack) c (K₁ ++ K₂) e where
  fresh {m₁} hm₁ := by
    rcases List.mem_append.mp hm₁ with hm₁ | hm₁
    · exact h₁.fresh hm₁
    · exact (h₂.fresh hm₁).imp_right fun hnot hfin => hnot (ho.finished_later hcd hfin)
  finished {m₁} hm₁ := by
    rcases List.mem_append.mp hm₁ with hm₁ | hm₁
    · exact ho.finished_later hde (h₁.finished hm₁)
    · exact h₂.finished hm₁
  spells {m₁} hm₁ := by
    rw [Entry.visitsOf_append]
    rcases List.mem_append.mp hm₁ with hm₁ | hm₁
    · have hne := (List.ne_and_not_mem_of_not_mem_cons (h₁.fresh hm₁).1).1
      rw [visitsOf_eq_nil hv₂ hne fun m' hm' he =>
        (h₂.fresh hm').2 (he ▸ h₁.finished hm₁), List.append_nil]
      exact h₁.spells hm₁
    · have hne := (List.ne_and_not_mem_of_not_mem_cons (h₂.fresh hm₁).1).1
      rw [visitsOf_eq_nil hv₁ hne fun m' hm' he =>
        (h₂.fresh hm₁).2 (he ▸ h₁.finished hm'), List.nil_append]
      exact h₂.spells hm₁
  nodup := by
    rw [Entry.closedIn_append, List.map_append]
    refine List.nodup_append.mpr ⟨h₁.nodup, h₂.nodup, fun x hx y hy hxy => ?_⟩
    obtain ⟨m₁, hm₁, rfl⟩ := List.mem_map.mp hx
    obtain ⟨m₂, hm₂, rfl⟩ := List.mem_map.mp hy
    exact (h₂.fresh (Entry.mem_closedIn.mp hm₂)).2
      (hxy ▸ h₁.finished (Entry.mem_closedIn.mp hm₁))
  followed hmem := by
    rcases List.mem_append.mp hmem with hmem | hmem
    · exact followed_later h hde (h₁.followed hmem)
    · exact h₂.followed hmem

include ho in
private theorem leaves_trans (h : t.Obeys D) {c₀ : σ} {L K : List Visit}
    (hc : t.Leaves D c₀ stack m L c d) (hd : t.Leaves D c₀ stack m K d e) :
    t.Leaves D c₀ stack m (L ++ K) c e where
  kept := ⟨h.trans hc.kept.1 hd.kept.1, fun hinv => hd.kept.2 (hc.kept.2 hinv)⟩
  onward W hW := by
    obtain ⟨K₁, hK₁, hcloses₁, hown₁, hvisited₁⟩ := hc.onward W hW
    obtain ⟨K₂, hK₂, hcloses₂, hown₂, hvisited₂⟩ := hd.onward (W ++ K₁) hK₁
    refine ⟨K₁ ++ K₂, List.append_assoc .. ▸ hK₂,
      closes_append ho h hc.kept.1 hd.kept.1 hcloses₁ hcloses₂ hvisited₁ hvisited₂, ?_, ?_⟩
    · rw [Entry.visitsOf_append, hown₁, hown₂]
    · intro m' v hv
      rcases List.mem_append.mp hv with hv | hv
      · exact (hvisited₁ m' v hv).imp_right (List.mem_append_left _)
      · exact (hvisited₂ m' v hv).imp_right (List.mem_append_right _)

/-- One visit leaves itself in the log. -/
private theorem leaves_visit {c₀ : σ} {v : Visit} (hkept : D.Kept stack m c d)
    (hdone : ∀ {s i}, v = .importing s i → D.Within m s d ∧ D.Done m s i d)
    (hnext : ∀ W, t.History D c₀ W c → t.History D c₀ (W ++ [.visited m v]) d) :
    t.Leaves D c₀ stack m [v] c d where
  kept := hkept
  onward W hW := by
    refine ⟨[.visited m v], hnext W hW, closes_of_none rfl fun hmem => ?_, by simp,
      fun m' v' hv => ?_⟩
    · obtain ⟨rfl, hv⟩ := Entry.visited.inj (List.mem_singleton.mp hmem)
      exact hdone hv.symm
    · obtain ⟨rfl, -⟩ := Entry.visited.inj (List.mem_singleton.mp hv)
      exact Or.inl rfl

/-- A step of the script of a module may be made in a scope. -/
private def Discipline.Allows (D : Discipline σ) (m : Module) (s : ScopeId) (y : Step) : Prop :=
  y.Occurs m.program.steps ∧ ∀ i, y = .importing i → D.Stands m s i

/-- Processing a module as far as `n` more walks allow goes on with every history. -/
private def Traversal.GoesOn (t : Traversal σ) (D : Discipline σ) (c₀ : σ) (n : Nat) : Prop :=
  ∀ {stack key c}, D.Ready stack key c → D.limit ≤ n + stack.length →
    ∀ W, t.History D c₀ W c → ∃ K, t.History D c₀ (W ++ K) (t.runWithin n key c) ∧
      D.Closes stack c K (t.runWithin n key c) ∧ ∀ m v, .visited m v ∈ K → .closed m ∈ K

variable {c₀ : σ} {n : Nat} (h : t.Obeys D) (ih : t.GoesOn D c₀ n)
  (hn : D.limit ≤ n + (m.key :: stack).length)

include h ho ih hn

/-- An import goes on with the log, with all that it turns to. -/
private theorem leaves_walkImport {s : ScopeId} {i : Import} (hs : D.At stack m s c)
    (hi : D.Stands m s i) (hocc : (Step.importing i).Occurs m.program.steps) :
    t.Leaves D c₀ stack m [.importing s i] c
      ((t.visitor m).walkImport (t.runWithin n) s i c) := by
  have hkept := (h.keeps hn).importing i hi hs
  have hnext : ∀ W, t.History D c₀ W c →
      t.History D c₀ (W ++ [.visited m (.importing s i)]) ((t.visitor m).importing s i c).2 :=
    fun W hW => .importing hW hs hi hocc
  simp only [Visitor.walkImport] at hkept ⊢
  rcases himport : (t.visitor m).importing s i c with ⟨_ | key, d⟩
  · simp only [himport] at hkept hnext
    refine leaves_visit hkept (fun he => ?_) hnext
    obtain ⟨rfl, rfl⟩ := Visit.importing.inj he
    exact ⟨h.within_later hkept.1 hs.2, (h.stays hi hs himport).2.2⟩
  · simp only [himport] at hkept hnext
    obtain ⟨hready, hext, hturned⟩ := h.turns hi hs himport
    obtain ⟨hinv, hext', hfin⟩ := h.runWithin n hready hn
    refine ⟨hkept, fun W hW => ?_⟩
    obtain ⟨K, hK, hcloses, hvisited⟩ := ih hready hn _ (hnext W hW)
    have hopen : ∀ m', .closed m' ∈ K → m'.key ≠ m.key := fun m' hm' he =>
      (hcloses.fresh hm').1 (he ▸ List.mem_cons_self ..)
    have hothers : Entry.visitsOf m.key K = [] := by
      refine List.eq_nil_iff_forall_not_mem.mpr fun v hv => ?_
      obtain ⟨m', hkey, hmem⟩ := Entry.mem_visitsOf.mp hv
      exact hopen m' (hvisited m' v hmem) hkey
    refine ⟨.visited m (.importing s i) :: K, by simpa using hK, ?_, ?_, ?_⟩
    · have hmem : ∀ {m'}, .closed m' ∈ Entry.visited m (.importing s i) :: K → .closed m' ∈ K :=
        fun hm' => (List.mem_cons.mp hm').resolve_left (by simp)
      constructor
      · intro m' hm'
        exact (hcloses.fresh (hmem hm')).imp_right fun hnot hfin =>
          hnot (ho.finished_later hext hfin)
      · exact fun hm' => hcloses.finished (hmem hm')
      · intro m' hm'
        rw [← List.singleton_append, Entry.visitsOf_append]
        have hne := hopen m' (hmem hm')
        have hnil : Entry.visitsOf m'.key [.visited m (.importing s i)] = [] := by
          simp [Entry.visitsOf, hne.symm]
        rw [hnil, List.nil_append]
        exact hcloses.spells (hmem hm')
      · exact hcloses.nodup
      · intro m' s' i' hmem'
        rcases List.mem_cons.mp hmem' with he | hmem'
        · obtain ⟨rfl, hv⟩ := Entry.visited.inj he
          obtain ⟨rfl, rfl⟩ := Visit.importing.inj hv
          exact ⟨h.within_later hkept.1 hs.2, hturned _ hext' hinv hfin⟩
        · exact hcloses.followed hmem'
    · rw [← List.singleton_append, Entry.visitsOf_append, hothers, Entry.visitsOf_visited,
        List.append_nil]
    · intro m' v hv
      rcases List.mem_cons.mp hv with he | hv
      · exact Or.inl (Entry.visited.inj he).1
      · exact Or.inr (List.mem_cons_of_mem _ (hvisited m' v hv))

/-- A walk over a module leaves the visits in the log that spell its script. -/
private theorem tracks_leaves (hplaces : ∀ p ∈ m.program.places, D.Admits m p) :
    (t.visitor m).Tracks (t.runWithin n) (D.Allows m) (D.At stack m)
      (t.Leaves D c₀ stack m) := by
  have hkeeps := h.keeps (m := m) hn
  have hadmits : ∀ {y : Step}, y.Occurs m.program.steps → ∀ p ∈ y.places, D.Admits m p := by
    intro y hy p hp
    exact hplaces p (m.program.placesAll_steps ▸ hy.places_subset hp)
  constructor
  · intro c
    exact ⟨hkeeps.refl c, fun W hW =>
      ⟨[], (List.append_nil W).symm ▸ hW, closes_of_none rfl (by simp), rfl, by simp⟩⟩
  · exact fun hc hd => leaves_trans ho h hc hd
  · exact fun hcd hs => hkeeps.later hcd.kept hs
  · exact fun hy hs => leaves_walkImport ho h ih hn hs (hy.2 _ rfl) hy.1
  · intro s x c hy hs
    refine leaves_visit ?_ (by simp) fun W hW => .stop hW hs hy.1
    cases x with
    | typeDecl d => exact hkeeps.typeDecl d hs
    | declaring isConst targets values span => exact hkeeps.declaring isConst targets values span hs
    | declared targets values => exact hkeeps.declared targets values hs
    | assigning targets values span => exact hkeeps.assigning targets values span hs
    | name name => exact hkeeps.name name hs
    | qualified module name => exact hkeeps.qualified module name hs
  · intro s hd ys c hy hs
    have hhead : D.Kept stack m c ((t.visitor m).head s hd c).2 ∧
        ∀ inner ∈ ((t.visitor m).head s hd c).1, Visitor.Opens (D.Admits m) (D.Stands m)
          (D.At stack m) inner ((t.visitor m).head s hd c).2 := by
      obtain ⟨_ | receiver, name, params, ret⟩ := hd
      · exact hkeeps.function name params ret hs
      · refine hkeeps.method receiver name params ret (hadmits hy.1 _ ?_) hs
        simp [Step.places]
    refine ⟨leaves_visit hhead.1 (by simp) fun W hW => .head hW hs hy.1, fun inner hinner => ?_⟩
    obtain ⟨hat, hstands⟩ := hhead.2 inner hinner
    refine ⟨hat, fun y hmem => ?_⟩
    have hocc : y.Occurs m.program.steps := hy.1.trans (.here hmem)
    refine ⟨hocc, fun i hi => hstands i (hadmits hocc _ ?_)⟩
    rw [hi]
    exact List.mem_singleton_self _

end Walk

/-- Processing a module goes on with every history, and closes each walk that it opens. -/
theorem Traversal.Obeys.history (h : t.Obeys D) (ho : t.Once D) {c₀ : σ} (n : Nat)
    {stack : List String} {key : String} {c : σ} (hready : D.Ready stack key c)
    (hn : D.limit ≤ n + stack.length) (W : List Entry) (hW : t.History D c₀ W c) :
    ∃ K, t.History D c₀ (W ++ K) (t.runWithin n key c) ∧
      D.Closes stack c K (t.runWithin n key c) ∧ ∀ m v, .visited m v ∈ K → .closed m ∈ K := by
  induction n generalizing stack key c W with
  | zero =>
    have := h.room hready
    omega
  | succ n ih =>
    have henter := Traversal.History.enter hW hready
    rw [Traversal.runWithin]
    rcases he : t.enter key c with ⟨_ | m, d⟩
    · rw [he] at henter
      exact ⟨[], (List.append_nil W).symm ▸ henter, closes_of_none rfl (by simp), by simp⟩
    · rw [he] at henter
      obtain ⟨hnot, hstack⟩ := ho.fresh hready he
      obtain ⟨rfl, hinv, hext, hroot, hplaces, hstands⟩ := h.enters hready he
      have hn' : D.limit ≤ n + (m.key :: stack).length := by
        rw [List.length_cons]
        omega
      have hgoes : t.GoesOn D c₀ n := fun hready hn W hW => ih hready hn W hW
      have hok : ∀ y ∈ m.program.steps, D.Allows m m.root y := by
        refine fun y hy => ⟨.here hy, ?_⟩
        rintro i rfl
        exact hstands i ((m.program.importing_mem_steps i).mp hy)
      obtain ⟨L, hspells, hleaves⟩ := Visitor.walkSteps_tracks
        (tracks_leaves ho h hgoes hn' hplaces) m.program.steps hok ⟨hinv, hroot⟩
      dsimp only
      rw [Visitor.walkStmts_eq]
      change t.Leaves D c₀ stack m L d
        ((t.visitor m).walkSteps (t.runWithin n) m.root (Stmt.stepsAll m.program.stmts) d) at hleaves
      obtain ⟨-, hat, -, hleave, hfin⟩ :=
        h.walk hn' hready he (Visitor.walkStmts_eq _ _ m.root m.program.stmts d)
      generalize (t.visitor m).walkSteps (t.runWithin n) m.root (Stmt.stepsAll m.program.stmts) d = e
        at hleaves hat hleave hfin
      obtain ⟨K, hK, hcloses, hown, hvisited⟩ := hleaves.onward W henter
      refine ⟨K ++ [.closed m], ?_, ?_, ?_⟩
      · rw [← List.append_assoc]
        exact .close hK hat
      · constructor
        · intro m' hm'
          rcases List.mem_append.mp hm' with hm' | hm'
          · obtain ⟨hopen, hnot'⟩ := hcloses.fresh hm'
            exact ⟨fun hmem => hopen (List.mem_cons_of_mem _ hmem),
              fun hfin' => hnot' (ho.finished_later hext hfin')⟩
          · cases List.mem_singleton.mp hm'
            exact ⟨hstack, hnot⟩
        · intro m' hm'
          rcases List.mem_append.mp hm' with hm' | hm'
          · exact ho.finished_later hleave (hcloses.finished hm')
          · cases List.mem_singleton.mp hm'
            exact hfin
        · intro m' hm'
          rw [Entry.visitsOf_append, Entry.visitsOf_closed, List.append_nil]
          rcases List.mem_append.mp hm' with hm' | hm'
          · exact hcloses.spells hm'
          · cases List.mem_singleton.mp hm'
            exact hown ▸ hspells
        · rw [Entry.closedIn_append, Entry.closedIn_closed, List.map_append]
          refine List.nodup_append.mpr ⟨hcloses.nodup, by simp, fun x hx y hy hxy => ?_⟩
          obtain ⟨m₁, hm₁, rfl⟩ := List.mem_map.mp hx
          obtain rfl := List.mem_singleton.mp hy
          exact (hcloses.fresh (Entry.mem_closedIn.mp hm₁)).1 (hxy ▸ List.mem_cons_self ..)
        · intro m' s' i' hmem'
          rcases List.mem_append.mp hmem' with hmem' | hmem'
          · exact followed_later h hleave (hcloses.followed hmem')
          · cases List.mem_singleton.mp hmem'
      · intro m' v hv
        rcases List.mem_append.mp hv with hv | hv
        · rcases hvisited m' v hv with rfl | hm'
          · exact List.mem_append_right _ (List.mem_singleton_self _)
          · exact List.mem_append_left _ hm'
        · simp at hv

end Sable

/-!
## What a traversal tends to

An invariant of the states of a traversal need not say how deep the traversal may go, nor which
walks are open. It is enough that each step of a walk keeps it in the scopes that belong to the
module of the walk, and that these scopes go on to belong to the module. So a run from any state in
which the invariant holds ends in another one, and what holds between the ends of every step holds
between the ends of the run.
-/

namespace Sable

variable {σ : Type}

/-- Every step of a traversal keeps an invariant and respects a relation. -/
structure Traversal.Tends (t : Traversal σ) (Inv : σ → Prop) (Within : Module → ScopeId → σ → Prop)
    (R : σ → σ → Prop) : Prop where
  /-- Nothing may happen. -/
  refl : ∀ c, R c c
  /-- One thing may happen after the other. -/
  trans : ∀ {c d e}, R c d → R d e → R c e
  /-- A scope goes on to belong to a module. -/
  later : ∀ {m s c d}, R c d → Within m s c → Within m s d
  /-- A module is entered, and its outermost scope belongs to it. -/
  enter : ∀ key {c}, Inv c → Inv (t.enter key c).2 ∧ R c (t.enter key c).2 ∧
    ∀ m ∈ (t.enter key c).1, Within m m.root (t.enter key c).2
  /-- An import is visited. -/
  importing : ∀ {m s c} i, Inv c → Within m s c →
    Inv ((t.visitor m).importing s i c).2 ∧ R c ((t.visitor m).importing s i c).2
  /-- A place of the module that stays in its scope is visited. -/
  stop : ∀ {m s c x}, Inv c → Within m s c → (Step.stop x).Occurs m.program.steps →
    Inv ((t.visitor m).stop s x c) ∧ R c ((t.visitor m).stop s x c)
  /-- The head of a function of the module is visited, and the scope of its body belongs to it. -/
  head : ∀ {m s c h ys}, Inv c → Within m s c → (Step.body h ys).Occurs m.program.steps →
    Inv ((t.visitor m).head s h c).2 ∧ R c ((t.visitor m).head s h c).2 ∧
      ∀ u ∈ ((t.visitor m).head s h c).1, Within m u ((t.visitor m).head s h c).2
  /-- A module is left. -/
  leave : ∀ key {c}, Inv c → Inv (t.leave key c) ∧ R c (t.leave key c)
  /-- A module is given up. -/
  giveUp : ∀ key {c}, Inv c → Inv (t.giveUp key c) ∧ R c (t.giveUp key c)

namespace Traversal.Tends

variable {t : Traversal σ} {Inv : σ → Prop} {Within : Module → ScopeId → σ → Prop}
  {R : σ → σ → Prop}

/-- The visits of a walk keep the invariant, and respect the relation. -/
private theorem tracks (h : t.Tends Inv Within R) {turnTo : String → σ → σ}
    (hturn : ∀ key {c}, Inv c → Inv (turnTo key c) ∧ R c (turnTo key c)) (m : Module) :
    (t.visitor m).Tracks turnTo (fun _ y => y.Occurs m.program.steps)
      (fun s c => Inv c ∧ Within m s c) fun _ c d => Inv c → Inv d ∧ R c d where
  refl c hc := ⟨hc, h.refl c⟩
  trans hcd hde hc := ⟨(hde (hcd hc).1).1, h.trans (hcd hc).2 (hde (hcd hc).1).2⟩
  later hcd hs := ⟨(hcd hs.1).1, h.later (hcd hs.1).2 hs.2⟩
  importing {s i c} _ hs _ := by
    obtain ⟨hinv, hR⟩ := h.importing i hs.1 hs.2
    rw [Visitor.walkImport]
    generalize (t.visitor m).importing s i c = r at hinv hR
    obtain ⟨_ | key, d⟩ := r
    · exact ⟨hinv, hR⟩
    · exact ⟨(hturn key hinv).1, h.trans hR (hturn key hinv).2⟩
  stop hocc hs _ := h.stop hs.1 hs.2 hocc
  body hocc hs := by
    obtain ⟨hinv, hR, hinner⟩ := h.head hs.1 hs.2 hocc
    refine ⟨fun _ => ⟨hinv, hR⟩, fun u hu => ⟨⟨hinv, hinner u hu⟩, fun y hy => ?_⟩⟩
    exact hocc.trans (.here hy)

/-- A run keeps the invariant, and respects the relation. -/
theorem runWithin (h : t.Tends Inv Within R) (n : Nat) (key : String) {c : σ} (hc : Inv c) :
    Inv (t.runWithin n key c) ∧ R c (t.runWithin n key c) := by
  induction n generalizing key c with
  | zero => exact h.giveUp key hc
  | succ n ih =>
    obtain ⟨hinv, hR, hroot⟩ := h.enter key hc
    rw [Traversal.runWithin]
    generalize t.enter key c = r at hinv hR hroot
    obtain ⟨_ | m, d⟩ := r
    · exact ⟨hinv, hR⟩
    · dsimp only
      rw [Visitor.walkStmts_eq]
      obtain ⟨-, -, hwalk⟩ := Visitor.walkSteps_tracks (h.tracks ih m) m.program.steps
        (fun _ hy => .here hy) ⟨hinv, hroot m rfl⟩
      obtain ⟨hwalked, hwalkR⟩ := hwalk hinv
      obtain ⟨hleft, hleaveR⟩ := h.leave key hwalked
      exact ⟨hleft, h.trans (h.trans hR hwalkR) hleaveR⟩

end Traversal.Tends

end Sable
