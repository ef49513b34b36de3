import Sable.Proofs.Compilation.Surveying

/-!
# Bodies

The checks of a compilation are charted here: along which routes the three passes walk modules,
into which scopes they follow the bodies of functions and methods, and which names they meet
there. Behind all checks, resolution and type checking have followed the tables as they are, once
for each module. Whether the first pass has done so as well depends on the receivers of methods:
a type that is declared behind a method may take over the name of its receiver, and the later
passes do not find the body of the method then.
-/

namespace Sable.Compilation

open Context

/-- Charting keeps a record and changes nothing else. -/
def charter : Recorder where
  Of := Charted
  state := Charted.state
  put := Charted.put
  traversal := Traversal.charted
  state_put _ _ := rfl
  projects := Traversal.charted_projects

/-- Between checks no walk is open, and the finished ones are in order. -/
def Surveyed (c : Charted Compilation) : Prop :=
  c.route = [] ∧ c.outer = [] ∧
    c.InOrder (fun p k d => d.context.HasWalked p k) fun x d => d.context.Attests x

/-- The passes concur on a module, as far as they have walked it. -/
structure Concurs (tours : List Tour) (m : Module) (ctx : Context) : Prop where
  /--
  If the first pass has reported nothing, it has followed the tables exactly if every receiver
  leads to where it led then.
  -/
  collecting : Phase.collected ≤ m.phase → ∃ r, ⟨.collecting, m.key, r⟩ ∈ tours ∧
    (ctx.Quiet m → (r = ctx.scopes.route m ↔ ∀ x ∈ r, ctx.scopes.Steady x))
  /-- Resolution has followed the tables. -/
  resolving : Phase.resolved ≤ m.phase → ⟨.resolving, m.key, ctx.scopes.route m⟩ ∈ tours
  /-- Type checking has followed the tables. -/
  typechecking : Phase.typechecked ≤ m.phase →
    ⟨.typechecking, m.key, ctx.scopes.route m⟩ ∈ tours
  /-- Resolution has reported every name on the way that means nothing where it stands. -/
  reported : Phase.resolved ≤ m.phase → ∀ x ∈ ctx.scopes.route m, ctx.Reported m x

variable {l : Loader} {needed : Path → Prop} {roots : String → Prop} {c : Charted Compilation}
  {key : String}

/-- Before the first check, no walk has been finished. -/
theorem surveyed_new (l : Loader) : Surveyed (.start (new l)) := by
  refine ⟨rfl, rfl, ⟨List.nodup_nil, fun p k => ?_, nofun⟩⟩
  have hstart : (new l).context.phase k = .notStarted := rfl
  refine iff_of_false (fun h => ?_) List.not_mem_nil
  have hle : Phase.collected ≤ (new l).context.phase k := h.1.trans h.2
  rw [hstart] at hle
  exact absurd hle (by decide)

/-- Collection leaves the finished walks in order. -/
theorem Surveyed.collect (h : Surveyed c) (hclosed : l.Closed needed)
    (hready : (collecting l needed roots).Ready [] key c.state) :
    Surveyed (charter.collect key c) := by
  obtain ⟨hroute, houter⟩ := collection.route_runWithin .collecting
    (c.state.context.modules.length + c.state.loader.store.size + 1) key c
  exact ⟨hroute.trans h.1, houter.trans h.2.1,
    (surveys_collecting hclosed).runWithin (obeys_collecting hclosed) _ hready (limit_le hready)
      h.2.2⟩

/-- A pass behind the first one leaves the finished walks in order. -/
theorem Surveyed.passing (h : Surveyed c) {target p : Phase} {pass : Pass} {activity : String}
    {v : Module → Visitor Context} (hv : ∀ m, Filling (v m))
    (hi : ∀ m, (v m).importing = nextModule target) (hgoal : pass.goal = target)
    (ht : target.previous? = some p) (hp : Phase.collected ≤ p)
    (hname : pass = .resolving → ∀ m s name ctx,
      ((v m).name s name ctx).Reported m (.name s name))
    (hl : c.state.context.Linked) (hle : p ≤ c.state.context.phase key) :
    Surveyed (charter.andThen (traversal target pass activity v) pass key c) := by
  rcases charter.andThen_cases (traversal target pass activity v) pass key c with he | ⟨d, rfl, he⟩
  · rw [he]
    exact h
  · have hobeys : (traversal target pass activity v).Obeys
        (Context.passing target p c.state.context) :=
      obeys_passing hv hi ht (le_trans (by decide) hp) _
    have hsurveys : (Context.passing target p c.state.context).Surveys HasWalked Attests
        (traversal target pass activity v) pass _ :=
      surveys_passing hv hi hgoal ht hp hname _
    have horder : (c.put c.state.context).InOrder HasWalked Attests :=
      h.2.2.put (fun _ _ => Iff.rfl) fun _ => id
    have hrun := hsurveys.runWithin hobeys (c.state.context.modules.length + 1)
      (ready_passing hl hle) (by simp [Context.passing]) horder
    obtain ⟨hroute, houter⟩ := (traversal target pass activity v).route_runWithin pass
      (c.state.context.modules.length + 1) key (c.put c.state.context)
    rw [he]
    exact ⟨hroute.trans h.1, houter.trans h.2.1, hrun.put (fun _ _ => Iff.rfl) fun _ => id⟩

/-- Finished walks stay in order along a check. -/
theorem keeps_surveyed (hclosed : l.Closed needed) :
    charter.Keeps l needed roots Surveyed where
  put h hd _ := ⟨h.1, h.2.1, h.2.2.put hd.hasWalked_iff
    fun _ hx => hx.later hd.onward (hd.linked hx.1) hd.spares⟩
  collect h hready := h.collect hclosed hready
  resolve h hl hle := h.passing filling_resolver (fun _ => rfl) rfl rfl le_rfl
    (fun _ => reported_resolveName) hl hle
  typecheck h hl hle := h.passing filling_checker (fun _ => rfl) rfl rfl (by decide) nofun hl hle

/-- What has been told of the walk that has led a module on is told of the module as it is. -/
theorem follows_of_inOrder {tours : List Tour} {d : Compilation}
    (h : Surveyed ⟨d, [], [], tours⟩) (hl : d.context.Linked) {m : Module}
    (hm : m ∈ d.context.modules) {p : Pass} (hgoal : Phase.collected ≤ p.goal)
    (hle : p.goal ≤ m.phase) :
    ∃ r, ⟨p, m.key, r⟩ ∈ tours ∧ Tour.Follows ⟨p, m.key, r⟩ m d.context := by
  have hmod := hl.module?_of_mem hm
  have hphase := phase_of_module? hmod
  have hwalked : d.context.HasWalked p m.key := ⟨hgoal, hle.trans_eq hphase.symm⟩
  obtain ⟨x, hx, he⟩ := List.mem_map.mp ((h.2.2.walked p m.key).mp hwalked)
  obtain ⟨-, m', ⟨q, -, hmod'⟩, hkey', -, hfollows⟩ := h.2.2.told x hx
  obtain ⟨p', k, r⟩ := x
  obtain ⟨rfl, rfl⟩ := Prod.mk.inj he
  -- The module that the walk has been over is the one registered now, but for its phase.
  have hsame : some m = some { m' with phase := q } := by rw [← hmod', hkey', hmod]
  obtain rfl := Option.some.inj hsame
  exact ⟨r, hx, hfollows.collecting, hfollows.behind, hfollows.resolving⟩

/--
Behind any checks, no pass has walked a module twice. Resolution and type checking have walked
every module that they have led on along the one route that the tables have for it, and every
name on it that means nothing where it stands has been reported. The first pass has walked a
module that it has reported nothing about along the same route, into the same scopes, exactly if
the receivers of its methods lead to the types that they led to when the methods were collected.
-/
theorem checkAll_bodies (l : Loader) (entries : List Path) :
    ∃ tours, charter.checkAll entries (.start (new l)) =
        ⟨checkAll entries (new l), [], [], tours⟩ ∧
      (tours.map fun x => (x.pass, x.key)).Nodup ∧
      ∀ m ∈ (checkAll entries (new l)).context.modules,
        Concurs tours m (checkAll entries (new l)).context := by
  have hclosed : l.Closed fun _ => True := fun _ _ _ _ => trivial
  have hnew := settled_new l (fun _ => True) fun _ => True
  have hsettled := hnew.checkAll hclosed (fun _ => trivial) (fun _ => trivial) entries
  have h := (keeps_surveyed hclosed).checkAll (surveyed_new l) hnew hclosed (fun _ => trivial)
    (fun _ => trivial) entries
  have hstate := charter.state_checkAll entries (.start (new l))
  generalize charter.checkAll entries (.start (new l)) = t at h hstate ⊢
  obtain ⟨d, route, outer, tours⟩ := t
  obtain rfl : d = Compilation.checkAll entries (new l) := hstate
  obtain ⟨rfl, rfl, horder⟩ := id h
  refine ⟨tours, rfl, horder.nodup, fun m hm => ?_⟩
  have hl := hsettled.linked
  have hself := (knows_of_module? (hl.module?_of_mem hm)).encloses hl
  constructor
  · intro hle
    obtain ⟨r, hr, hfollows⟩ := follows_of_inOrder h hl hm (p := .collecting) le_rfl hle
    refine ⟨r, hr, fun hquiet => ⟨fun hroute x hx => ?_, ?_⟩⟩
    · exact ScopeForest.steady_of_mem_route hl.scopes (hself.root hl) (hself.places hl)
        (hroute ▸ hx)
    · exact hfollows.collecting rfl _ hquiet (.refl _)
  · intro hle
    obtain ⟨r, hr, hfollows⟩ := follows_of_inOrder h hl hm (p := .resolving) (by decide) hle
    exact hfollows.behind nofun ▸ hr
  · intro hle
    obtain ⟨r, hr, hfollows⟩ := follows_of_inOrder h hl hm (p := .typechecking) (by decide) hle
    exact hfollows.behind nofun ▸ hr
  · intro hle x hx
    obtain ⟨r, -, hfollows⟩ := follows_of_inOrder h hl hm (p := .resolving) (by decide) hle
    exact hfollows.resolving rfl x (hfollows.behind nofun ▸ hx)

/--
The inner type takes over the name of the receiver, so the later passes do not find the body of
the method that the first pass has collected, and the name in it is not looked at.
-/
example : (checkAll [⟨"a.sbl"⟩] (new (.new (.ofRoot ⟨""⟩) (.memory [(⟨"a.sbl"⟩,
    "type T i8 fn f() { fn (p: T) m() { q } type T u8 }")])))).context.diagnostics.items = [] := by
  decide +kernel

end Sable.Compilation
