import Sable.Proofs.Module.Chart
import Sable.Proofs.Module.Discipline

/-!
# Surveys

A discipline surveys a charted traversal if it is enough to tell what the finished walks have come
past. Walks of other modules, before and in between, are kept apart by the discipline; so every
pass has finished one walk over each module that shows it, and what was told of a finished walk
stays true.
-/

namespace Sable

variable {σ : Type}

section

variable (Walked : Pass → String → σ → Prop) (Told : Tour → σ → Prop)

/-- The finished walks are in order, as seen from the state that they have led to. -/
structure Charted.InOrder (c : Charted σ) : Prop where
  /-- No pass has walked a module twice. -/
  nodup : (c.tours.map fun x => (x.pass, x.key)).Nodup
  /-- The modules that have been walked show it. -/
  walked : ∀ p k, Walked p k c.state ↔ (p, k) ∈ c.tours.map fun x => (x.pass, x.key)
  /-- What is told of each walk is true. -/
  told : ∀ x ∈ c.tours, Told x c.state

/-- The route of a walk over a module is the one that any table says it is, if the table is fine. -/
def Discipline.ReadsOff (D : Discipline σ) (t : Traversal σ) (stack : List String) (m : Module)
    (r : List Landmark) (c : σ) : Prop :=
  ∀ (w : Visitor Unit) (Fine : σ → Prop) (Ok : Landmark → Prop),
    (t.visitor m).Reads w (D.Admits m) (D.At stack m) Fine Ok →
    (∀ {c d}, D.Ext c d → Fine d → Fine c) → Fine c → (∀ x ∈ r, Ok x) →
    r = (w.charted.walkStmts Visitor.stay m.root m.program.stmts (.start ())).route

/-- A discipline tells what the walks of a traversal have come past. -/
structure Discipline.Surveys (D : Discipline σ) (t : Traversal σ) (pass : Pass)
    (Says : Module → Landmark → σ → Prop) : Prop where
  /-- What is told of a walk stays true. -/
  told_later : ∀ {x c d}, D.Ext c d → Told x c → Told x d
  /-- What is said of a landmark stays true. -/
  says_later : ∀ {m x c d}, D.Ext c d → Says m x c → Says m x d
  /-- Of bodies nothing is said. -/
  body : ∀ m s receiver? name inner c, Says m (.body s receiver? name inner) c
  /-- A visit of a name does what is said of it. -/
  name : ∀ {stack m s c} name, D.At stack m s c →
    Says m (.name s name) ((t.visitor m).name s name c)
  /-- No visit finishes a walk. -/
  visits : ∀ stack m, (t.visitor m).Visits (D.Admits m) (D.Stands m) (D.At stack m)
    fun c d => ∀ p k, Walked p k d ↔ Walked p k c
  /-- An import finishes no walk by itself. -/
  importing : ∀ {stack m s i c}, D.Stands m s i → D.At stack m s c →
    ∀ p k, Walked p k ((t.visitor m).importing s i c).2 ↔ Walked p k c
  /-- Entering a module finishes no walk. -/
  enter : ∀ {stack key c}, D.Ready stack key c →
    ∀ p k, Walked p k (t.enter key c).2 ↔ Walked p k c
  /-- A module that is left has not been walked before. -/
  first : ∀ {stack m c}, D.At stack m m.root c → ¬ Walked pass m.key c
  /-- Leaving a module finishes its walk. -/
  leave : ∀ {stack m c}, D.At stack m m.root c →
    ∀ p k, Walked p k (t.leave m.key c) ↔ Walked p k c ∨ (p = pass ∧ k = m.key)
  /-- What is to be told of a finished walk is true. -/
  told : ∀ {stack m r c}, D.At stack m m.root c → D.Ext c (t.leave m.key c) →
    (∀ x ∈ r, Says m x c) → D.ReadsOff t stack m r c → Told ⟨pass, m.key, r⟩ (t.leave m.key c)

end

variable {Walked : Pass → String → σ → Prop} {Told : Tour → σ → Prop}

namespace Charted.InOrder

variable {c : Charted σ} {d : σ} {pass : Pass} {key : String}

/-- The state may change if it shows the same walks. -/
theorem put {τ : Type} {Walked' : Pass → String → τ → Prop} {Told' : Tour → τ → Prop} {d : τ}
    (h : c.InOrder Walked Told) (hwalked : ∀ p k, Walked' p k d ↔ Walked p k c.state)
    (htold : ∀ x, Told x c.state → Told' x d) : (c.put d).InOrder Walked' Told' :=
  ⟨h.nodup, fun p k => (hwalked p k).trans (h.walked p k), fun x hx => htold x (h.told x hx)⟩

/-- A walk may be closed over a module that shows no walk yet and shows it then. -/
theorem close (h : c.InOrder Walked Told) (hfirst : ¬ Walked pass key c.state)
    (hwalked : ∀ p k, Walked p k d ↔ Walked p k c.state ∨ (p = pass ∧ k = key))
    (htold : ∀ x, Told x c.state → Told x d) (hnew : Told ⟨pass, key, c.route⟩ d) :
    ((c.put d).closing pass key).InOrder Walked Told where
  nodup := by
    simp only [closing, List.map_append, List.map_cons, List.map_nil]
    refine List.nodup_append.mpr ⟨h.nodup, by simp, ?_⟩
    rintro x hx y hy rfl
    obtain rfl := List.mem_singleton.mp hy
    exact hfirst ((h.walked pass key).mpr hx)
  walked p k := by
    simp only [closing, List.map_append, List.map_cons, List.map_nil, List.mem_append,
      List.mem_singleton, Prod.mk.injEq]
    exact (hwalked p k).trans (or_congr_left (h.walked p k))
  told x hx := by
    rcases List.mem_append.mp hx with hx | hx
    · exact htold x (h.told x hx)
    · exact List.mem_singleton.mp hx ▸ hnew

end Charted.InOrder

variable {D : Discipline σ} {t : Traversal σ} {pass : Pass}
  {Says : Module → Landmark → σ → Prop}

/-- What a visit of a charted walk must respect in the walk that was opened last. -/
structure Discipline.Charts (D : Discipline σ) (Walked : Pass → String → σ → Prop)
    (Told : Tour → σ → Prop) (Says : Module → Landmark → σ → Prop) (stack : List String)
    (m : Module) (c d : Charted σ) : Prop extends c.Onward d where
  /-- The state changes as the discipline allows. -/
  kept : D.Kept stack m c.state d.state
  /-- What is said of the landmarks of the walk stays true. -/
  spoken : (∀ x ∈ c.route, Says m x c.state) → ∀ x ∈ d.route, Says m x d.state
  /-- The finished walks stay in order. -/
  inOrder : c.InOrder Walked Told → d.InOrder Walked Told

/-- Visits of a charted walk may follow each other. -/
private theorem Discipline.Charts.trans {stack : List String} {m : Module} {c d e : Charted σ}
    (h : t.Obeys D) (hc : D.Charts Walked Told Says stack m c d)
    (hd : D.Charts Walked Told Says stack m d e) : D.Charts Walked Told Says stack m c e where
  toOnward := hc.toOnward.trans hd.toOnward
  kept := ⟨h.trans hc.kept.1 hd.kept.1, fun hinv => hd.kept.2 (hc.kept.2 hinv)⟩
  spoken hspoken := hd.spoken (hc.spoken hspoken)
  inOrder horder := hd.inOrder (hc.inOrder horder)

section Visit

variable (hs : D.Surveys Walked Told t pass Says) {stack : List String} {m : Module}
  {c : Charted σ} {d : σ} (hd : D.Kept stack m c.state d)
  (hwalked : ∀ p k, Walked p k d ↔ Walked p k c.state)

include hs hd hwalked

/-- A change of the state that finishes no walk is respected. -/
private theorem charts_put : D.Charts Walked Told Says stack m c (c.put d) where
  route := List.prefix_rfl
  outer := rfl
  kept := hd
  spoken hspoken x hx := hs.says_later hd.1 (hspoken x hx)
  inOrder hc := hc.put hwalked fun _ => hs.told_later hd.1

/-- Coming past a landmark is respected as well, if what is said of it is true. -/
private theorem charts_note {x : Landmark} (hx : Says m x d) :
    D.Charts Walked Told Says stack m c ((c.put d).note [x]) where
  route := List.prefix_append ..
  outer := rfl
  kept := hd
  spoken hspoken := List.forall_mem_append.mpr
    ⟨fun y hy => hs.says_later hd.1 (hspoken y hy), List.forall_mem_singleton.mpr hx⟩
  inOrder hc := by
    have hput := hc.put hwalked fun _ => hs.told_later hd.1
    exact ⟨hput.nodup, hput.walked, hput.told⟩

end Visit

/-- Processing a module as far as `n` more walks allow leaves the finished walks in order. -/
private def Discipline.KeepsOrder (D : Discipline σ) (t : Traversal σ) (pass : Pass)
    (Walked : Pass → String → σ → Prop) (Told : Tour → σ → Prop) (n : Nat) : Prop :=
  ∀ {stack key} {c : Charted σ}, D.Ready stack key c.state → D.limit ≤ n + stack.length →
    c.InOrder Walked Told → ((t.charted pass).runWithin n key c).InOrder Walked Told

section Step

variable (h : t.Obeys D) (hs : D.Surveys Walked Told t pass Says) {n : Nat}
  (ih : D.KeepsOrder t pass Walked Told n) {stack : List String} {m : Module}
  (hn : D.limit ≤ n + (m.key :: stack).length)

include h hs ih hn

/-- An import of a charted walk is respected with all that it turns to. -/
private theorem charts_walkImport {s : ScopeId} {i : Import} {c : Charted σ}
    (hi : D.Stands m s i) (hat : D.At stack m s c.state) :
    D.Charts Walked Told Says stack m c
      ((t.visitor m).charted.walkImport ((t.charted pass).runWithin n) s i c) := by
  have hkept := (h.keeps hn).importing i hi hat
  have hwalked := hs.importing hi hat
  simp only [Visitor.walkImport, Visitor.charted] at hkept ⊢
  rcases himport : (t.visitor m).importing s i c.state with ⟨_ | key, d⟩
  · simp only [himport] at hkept hwalked
    exact charts_put hs hkept hwalked
  · simp only [himport] at hkept hwalked
    obtain ⟨hready, hext, -⟩ := h.turns hi hat himport
    have hstate := (t.charted_projects pass).runWithin n key (c.put d)
    obtain ⟨hroute, houter⟩ := t.route_runWithin pass n key (c.put d)
    simp only [Prod.map_apply, id_eq]
    constructor
    · exact ⟨hroute.symm ▸ List.prefix_rfl, houter⟩
    · exact hstate ▸ hkept
    · intro hspoken x hx
      rw [hroute] at hx
      exact hstate ▸ hs.says_later hkept.1 (hspoken x hx)
    · intro hc
      exact ih hready hn (hc.put hwalked fun _ => hs.told_later hext)

/-- Every step of a charted walk is respected. -/
private theorem charts_keeps :
    (t.visitor m).charted.Keeps ((t.charted pass).runWithin n) (D.Admits m) (D.Stands m)
      (fun s c => D.At stack m s c.state) (D.Charts Walked Told Says stack m) := by
  have hkeeps := h.keeps hn
  have hboth := hkeeps.toVisits.and (hs.visits stack m)
  exact
    { hboth.charted (R := D.Charts Walked Told Says stack m)
        (fun _ hd => charts_put hs hd.1 hd.2)
        (fun _ _ _ _ hd _ => charts_note hs hd.1 hd.2 (hs.body ..))
        (fun name hat hd => charts_note hs hd.1 hd.2 (hs.name name hat)) with
      refl := fun c => ⟨.refl c, hkeeps.refl c.state, id, id⟩
      trans := fun hc hd => hc.trans h hd
      later := fun hd hat => hkeeps.later hd.kept hat
      importing := fun i hi hat => charts_walkImport h hs ih hn hi hat }

end Step

/-- A traversal that is surveyed leaves the finished walks in order. -/
theorem Discipline.Surveys.runWithin (h : t.Obeys D) (hs : D.Surveys Walked Told t pass Says)
    (n : Nat) {stack : List String} {key : String} {c : Charted σ}
    (hready : D.Ready stack key c.state) (hn : D.limit ≤ n + stack.length)
    (hc : c.InOrder Walked Told) :
    ((t.charted pass).runWithin n key c).InOrder Walked Told := by
  induction n generalizing stack key c with
  | zero =>
    have := h.room hready
    omega
  | succ n ih =>
    have hwalked := hs.enter hready
    rw [Traversal.runWithin]
    rcases henter : t.enter key c.state with ⟨_ | m, d⟩
    · have he : (t.charted pass).enter key c = (none, c.put d) := by
        simp only [Traversal.charted, henter]
      obtain ⟨-, hext, -⟩ := h.passes hready henter
      rw [henter] at hwalked
      rw [he]
      exact hc.put hwalked fun _ => hs.told_later hext
    · have he : (t.charted pass).enter key c = (some m, (c.put d).opening) := by
        simp only [Traversal.charted, henter]
      obtain ⟨rfl, hinv, hext, hroot, hplaces, hstands⟩ := h.enters hready henter
      have hn' : D.limit ≤ n + (m.key :: stack).length := by
        rw [List.length_cons]
        omega
      rw [henter] at hwalked
      have hput := hc.put hwalked fun _ => hs.told_later hext
      have hopen : (c.put d).opening.InOrder Walked Told := ⟨hput.nodup, hput.walked, hput.told⟩
      have hkeeps := charts_keeps h hs (fun hready hn hc => ih hready hn hc) hn'
      have hat : D.At stack m m.root (c.put d).opening.state := ⟨hinv, hroot⟩
      have hwalk := Visitor.walkStmts_keeps hkeeps m.program.stmts hplaces hstands hat
      have hstate := Visitor.walkStmts_projects (s := m.root)
        ((t.charted_projects pass).visitor m) ((t.charted_projects pass).runWithin n)
        m.program.stmts (c.put d).opening
      obtain ⟨-, hend, -, hleave, -⟩ := h.walk hn' hready henter hstate
      rw [he]
      refine (hwalk.inOrder hopen).close (hs.first hend) (hs.leave hend)
        (fun _ => hs.told_later hleave) ?_
      refine hs.told hend hleave (hwalk.spoken (by simp [Charted.opening])) ?_
      -- Whatever the route can be read off from, the walk has followed it step by step.
      intro w Fine Ok hreads hback hfine hok
      refine Visitor.walkStmts_reads hkeeps hreads (fun hcd hfair => ?_)
        (fun i _ _ => t.route_walkImport pass n m _ i _) m.program.stmts hplaces hstands hat rfl
        ⟨hfine, hok⟩
      exact ⟨hback hcd.kept.1 hfair.1, fun x hx => hfair.2 x (hcd.route.subset hx)⟩

end Sable
