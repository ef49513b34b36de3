import Sable.Proofs.Compilation.Recording
import Sable.Proofs.Module.Trace

/-!
# Calls of the passes

The checks of a compilation are traced here: on which modules the three passes are called, while
which others are open, and whose statements they walk. Nothing is ever cut off, so the depth
that the passes are given is enough; open calls are on different registered modules; and a
module that has been walked has been led on, so no later call walks it again.
-/

namespace Sable

/-- The phase that a pass leads modules to. -/
def Pass.goal : Pass → Phase
  | lexing => .notStarted
  | parsing => .parsed
  | collecting => .collected
  | resolving => .resolved
  | typechecking => .typechecked

namespace Context

/-- A module shows that a pass has walked it. -/
def ShowsWalk (pass : Pass) (key : String) (ctx : Context) : Prop := pass.goal ≤ ctx.phase key

/-- A key is registered. -/
def Registered (key : String) (ctx : Context) : Prop := ctx.hasModule key = true

variable {target p : Phase} {pass : Pass} {activity : String} {v : Module → Visitor Context}

/-- The discipline of a pass behind the first one keeps its trace in order. -/
theorem tells_passing (hgoal : pass.goal = target) (ht : target.previous? = some p)
    (hp : Phase.parsed ≤ p) (c₀ : Context) :
    (passing target p c₀).Tells ShowsWalk Registered (traversal target pass activity v) pass where
  finished hfin := hgoal.trans_le hfin
  walked_later hd hw := hw.trans (hd.phase_le _)
  known_later hd hk := hd.hasModule hk
  opens h := ⟨h.1.nodup, h.1.hasModule hp⟩
  first h he := by
    obtain ⟨-, hm, hphase⟩ := h.1.enter_cases ht hp he
    rw [ShowsWalk, hgoal, phase_of_module? hm, hphase]
    exact (Phase.previous_lt ht).not_ge

end Context

namespace Compilation

open Context

variable {l : Loader} {needed : Path → Prop} {roots : String → Prop} {key : String}
  {c : Traced Compilation} {entry : Path}

/-- A compilation shows what its context shows. -/
def ShowsWalk (pass : Pass) (key : String) (c : Compilation) : Prop :=
  c.context.ShowsWalk pass key

/-- A compilation has the modules that its context has. -/
def Registered (key : String) (c : Compilation) : Prop := c.context.Registered key

/-- The discipline of the first pass keeps its trace in order. -/
theorem tells_collecting :
    (collecting l needed roots).Tells ShowsWalk Registered collection .collecting where
  finished := id
  walked_later hd hw := hw.trans (hd.onward.phase_le _)
  known_later hd hk := hd.onward.hasModule hk
  opens h := ⟨h.1.nodup, h.1.hasModule le_rfl⟩
  first h he := by
    obtain ⟨-, hm, hphase⟩ := enter_collection h.1 he
    rw [ShowsWalk, Context.ShowsWalk, phase_of_module? hm, hphase]
    decide

/-! ### Traced checks -/

/-- Collects a module, traced. -/
def tracedCollect (key : String) (c : Traced Compilation) : Traced Compilation :=
  (collection.traced .collecting).runWithin
    (c.state.context.modules.length + c.state.loader.store.size + 1) key c

/-- Runs a pass behind the first one, traced, unless some problem keeps it from being started. -/
def tracedThen (t : Traversal Context) (pass : Pass) (key : String) (c : Traced Compilation) :
    Traced Compilation :=
  if c.state.context.diagnostics.hasFatal then c
  else
    let d := (t.traced pass).runWithin (c.state.context.modules.length + 1) key
      (c.put c.state.context)
    d.put { c.state with context := d.state }

/-- Puts a module through all passes, traced. -/
def tracedPasses (key : String) (c : Traced Compilation) : Traced Compilation :=
  tracedThen typing .typechecking key (tracedThen resolution .resolving key (tracedCollect key c))

/-- Checks an entry file, traced. -/
def tracedCheck (entry : Path) (c : Traced Compilation) : Traced Compilation :=
  let key := c.state.loader.moduleKey entry
  match (c.state.update fun ctx => { ctx with entry? := some key }).register key entry with
  | (.ok _, d) => tracedPasses key (c.put d)
  | (.error (.read _), d) => c.put d
  | (.error (.grammar e), d) =>
    c.put (d.update fun ctx => ctx.report (loadReport entry (.grammar e)))

/-- Checks entry files one after the other, traced. -/
def tracedCheckAll (entries : List Path) (c : Traced Compilation) : Traced Compilation :=
  entries.foldl (fun c entry => tracedCheck entry c) c

/-- Tracing keeps a record and changes nothing else. -/
def tracer : Recorder where
  Of := Traced
  state := Traced.state
  put := Traced.put
  traversal := Traversal.traced
  state_put _ _ := rfl
  projects := Traversal.traced_projects

private theorem tracedPasses_eq (key : String) (c : Traced Compilation) :
    tracedPasses key c = tracer.runPasses key c := by
  have hcollect : tracedCollect key c = tracer.collect key c := rfl
  have hthen : ∀ t pass d, tracedThen t pass key d = tracer.andThen t pass key d :=
    fun _ _ _ => rfl
  unfold tracedPasses Recorder.runPasses
  rw [hthen, hthen, hcollect]

/-- Traced checks are recorded ones. -/
private theorem tracedCheckAll_eq : tracedCheckAll = tracer.checkAll := by
  have hcheck : ∀ entry c, tracedCheck entry c = tracer.check entry c := by
    intro entry c
    unfold tracedCheck Recorder.check
    dsimp only [tracer]
    generalize (c.state.update fun ctx =>
      { ctx with entry? := some (c.state.loader.moduleKey entry) }).register
        (c.state.loader.moduleKey entry) entry = r
    obtain ⟨(_ | _) | _, d⟩ := r
    · rfl
    · rfl
    · exact tracedPasses_eq ..
  funext entries c
  unfold tracedCheckAll Recorder.checkAll
  simp only [hcheck]
  rfl

/-- Traced checks check what they trace. -/
theorem state_tracedCheckAll (entries : List Path) (c : Traced Compilation) :
    (tracedCheckAll entries c).state = checkAll entries c.state := by
  rw [tracedCheckAll_eq]
  exact tracer.state_checkAll entries c

/-! ### Traces between checks -/

/-- What has been written down between checks is in order. -/
def InOrder (c : Traced Compilation) : Prop := c.Orderly ShowsWalk Registered .collecting []

/-- Collection leaves a trace in order. -/
theorem InOrder.collect (h : InOrder c) (hclosed : l.Closed needed)
    (hready : (collecting l needed roots).Ready [] key c.state) :
    InOrder (tracedCollect key c) := by
  have hready' : ((collecting l needed roots).traced ShowsWalk Registered .collecting).Ready []
      key c := ⟨hready, h⟩
  exact (((obeys_collecting hclosed).traced tells_collecting).runWithin _ hready'
    (limit_le hready)).1.2

/-- A pass behind the first one leaves a trace in order, if it may be started. -/
theorem InOrder.passing (h : InOrder c) {target p : Phase} {pass : Pass} {activity : String}
    {v : Module → Visitor Context} (hv : ∀ m, Filling (v m))
    (hi : ∀ m, (v m).importing = nextModule target) (hgoal : pass.goal = target)
    (ht : target.previous? = some p) (hp : Phase.parsed ≤ p)
    (hl : c.state.context.Linked) (hle : p ≤ c.state.context.phase key) :
    InOrder (tracedThen (traversal target pass activity v) pass key c) := by
  unfold tracedThen
  split
  · exact h
  · have hobeys : (traversal target pass activity v).Obeys
        (Context.passing target p c.state.context) := obeys_passing hv hi ht hp _
    have horderly : (c.put c.state.context).Orderly Context.ShowsWalk Context.Registered pass [] :=
      Traced.Orderly.put (h.of_nil pass) (fun _ _ => id) fun _ => id
    have hready : ((Context.passing target p c.state.context).traced Context.ShowsWalk
        Context.Registered pass).Ready [] key (c.put c.state.context) :=
      ⟨ready_passing hl hle, horderly⟩
    have hrun := (hobeys.traced (tells_passing hgoal ht hp _)).runWithin
      (c.state.context.modules.length + 1) hready (by simp [Discipline.traced, Context.passing])
    exact Traced.Orderly.put (hrun.1.2.of_nil .collecting) (fun _ _ => id) fun _ => id

/-- Traces stay in order along a check. -/
private theorem keeps_inOrder (hclosed : l.Closed needed) :
    tracer.Keeps l needed roots InOrder where
  put h hd _ := Traced.Orderly.put h (fun _ _ hw => hw.trans (hd.onward.phase_le _))
    fun _ hk => hd.onward.hasModule hk
  collect h hready := h.collect hclosed hready
  resolve h hl hle := h.passing filling_resolver (fun _ => rfl) rfl rfl (by decide) hl hle
  typecheck h hl hle := h.passing filling_checker (fun _ => rfl) rfl rfl (by decide) hl hle

/-- Any checks leave a trace in order. -/
theorem InOrder.checkAll (h : InOrder c) (hsettled : Settled l needed roots c.state)
    (hclosed : l.Closed needed) (hneeded : ∀ p, needed p) (hroot : ∀ k, roots k)
    (entries : List Path) : InOrder (tracedCheckAll entries c) := by
  rw [tracedCheckAll_eq]
  exact (keeps_inOrder hclosed).checkAll h hsettled hclosed hneeded hroot entries

/--
Any checks come to their end, and no pass is ever cut off. Calls of the passes are nested no
deeper than there are keys of registered modules, which are keys of files, and no pass walks the
statements of a module twice.
-/
theorem checkAll_calls (l : Loader) (entries : List Path) :
    ∃ events, tracedCheckAll entries (.start (new l)) = ⟨checkAll entries (new l), [], events⟩ ∧
      ((checkAll entries (new l)).context.modules.map Module.key) ⊆ l.fileKeys ∧
      (∀ pass key, .cut pass key ∉ events) ∧
      (∀ pass stack key, .called pass stack key ∈ events →
        stack.length + 1 ≤
          ((checkAll entries (new l)).context.modules.map Module.key).dedup.length) ∧
      ∀ pass key, events.count (.walked pass key) ≤ 1 := by
  have hclosed : l.Closed fun _ => True := fun _ _ _ _ => trivial
  have hnew := settled_new l (fun _ => True) fun _ => True
  have hstart : InOrder (.start (new l)) := ⟨rfl, by simp [Traced.start], by simp [Traced.start],
    by simp [Traced.start], by simp [Traced.start]⟩
  have h := hstart.checkAll hnew hclosed (fun _ => trivial) (fun _ => trivial) entries
  have hsettled := hnew.checkAll hclosed (fun _ => trivial) (fun _ => trivial) entries
  have hstate := state_tracedCheckAll entries (.start (new l))
  have hstack := h.stack_eq
  generalize tracedCheckAll entries (.start (new l)) = t at h hstate hstack ⊢
  obtain ⟨d, stack, events⟩ := t
  obtain rfl : d = Compilation.checkAll entries (new l) := hstate
  obtain rfl : stack = [] := hstack
  refine ⟨events, rfl, fun key hkey => ?_, h.uncut, fun pass stack key hcall => ?_, h.once⟩
  · obtain ⟨m, hm, rfl⟩ := List.mem_map.mp hkey
    obtain ⟨-, hkey, text, n, hread, -⟩ := hsettled.grounded.loaded m hm
    exact hkey ▸ l.moduleKey_mem_fileKeys hread
  · obtain ⟨hnodup, hregistered⟩ := h.called pass stack key hcall
    have hsub : key :: stack ⊆
        ((Compilation.checkAll entries (new l)).context.modules.map Module.key).dedup :=
      fun k hk => List.mem_dedup.mpr (mem_keys_of_hasModule (hregistered k hk))
    exact hnodup.length_le_of_subset hsub

end Compilation

end Sable
