import Sable.Proofs.Compilation.Editing
import Sable.Proofs.Compilation.Outcomes
import Sable.Proofs.Scope.Binding

/-!
# Passes in any order

A check runs the passes one after the other, but they may as well be called on any module at any time,
between modules that are registered and phases that are set by hand. Each pass asks first how far the
module has come, and does nothing but report where it is called too early. Whatever else happens, a
registered module stays what it is, its phase moves forward only, and its outermost scope is its own.
-/

namespace Sable

namespace Context

variable {ctx d : Context} {m : Module} {key : String} {target : Phase}

/-! ### Admission to a pass -/

/-- A pass reports a module that has not come to the phase in front of the one it leads to. -/
theorem enter_of_not_ready (pass : Pass) (activity : String) (h : ¬ target ≤ ctx.phase key)
    (hready : target.previous? ≠ some (ctx.phase key)) :
    ctx.enter key target pass activity =
      (none, ctx.report (ctx.notReady key pass activity)) := by
  have hcan : ctx.canProcess key target = false := by simpa [canProcess] using hready
  rw [enter, hcan, if_neg Bool.false_ne_true, if_neg h]

/-- A module that is not entered is not walked. -/
private theorem runWithin_of_enter {σ : Type} {t : Traversal σ} {c d : σ} {n : Nat}
    (h : t.enter key c = (none, d)) : t.runWithin (n + 1) key c = d := by
  rw [Traversal.runWithin, h]

/-! ### Registered modules -/

/-- A module that is known stays known when a phase is set. -/
theorem Knows.setPhase (h : ctx.Knows m) (key : String) (target : Phase) :
    (ctx.setPhase key target).Knows m := by
  cases hadvance : ctx.canAdvance key target with
  | false =>
    rwa [Context.setPhase, hadvance, if_neg Bool.false_ne_true]
  | true =>
    obtain ⟨p, hp, hm⟩ := h
    obtain ⟨m', hm', hlt⟩ : ∃ m', ctx.module? key = some m' ∧ m'.phase < target := by
      unfold canAdvance at hadvance
      split at hadvance
      · next m' hm' => exact ⟨m', hm', of_decide_eq_true hadvance⟩
      · cases hadvance
    rw [Knows, module?_setPhase hm' hlt]
    split
    · next hkey =>
      -- The module is the one that moves, so it has come to the new phase.
      rw [← hkey, hm] at hm'
      obtain rfl := Option.some.inj hm'
      exact ⟨target, hp.trans hlt.le, rfl⟩
    · exact ⟨p, hp, hm⟩

/-- Every module goes by a key of its own and has an outermost scope of its own. -/
structure Apart (ctx : Context) : Prop where
  /-- A key is registered once. -/
  keys : (ctx.modules.map Module.key).Nodup
  /-- No two modules share an outermost scope. -/
  roots : (ctx.modules.map Module.root).Nodup
  /-- The outermost scope of a module is open, and is not the scope of the builtin types. -/
  opened : ∀ m ∈ ctx.modules, builtins < m.root ∧ m.root < ctx.scopes.size
  /-- The scope of the builtin types is open. -/
  builtin : builtins < ctx.scopes.size

namespace Apart

/-- Scopes may be opened, and modules exchanged but for their keys and outermost scopes. -/
theorem map (h : ctx.Apart) {f : Module → Module} (hmodules : d.modules = ctx.modules.map f)
    (hkey : ∀ m, (f m).key = m.key) (hroot : ∀ m, (f m).root = m.root)
    (hsize : ctx.scopes.size ≤ d.scopes.size) : d.Apart where
  keys := by
    rw [hmodules, List.map_map, show Module.key ∘ f = Module.key from funext hkey]
    exact h.keys
  roots := by
    rw [hmodules, List.map_map, show Module.root ∘ f = Module.root from funext hroot]
    exact h.roots
  opened m hm := by
    obtain ⟨m', hm', rfl⟩ := List.mem_map.mp (hmodules ▸ hm)
    rw [hroot]
    exact (h.opened m' hm').imp_right hsize.trans_lt'
  builtin := h.builtin.trans_le hsize

theorem congr (h : ctx.Apart) (hmodules : d.modules = ctx.modules)
    (hsize : ctx.scopes.size ≤ d.scopes.size) : d.Apart :=
  h.map (f := id) (by rw [hmodules, List.map_id]) (fun _ => rfl) (fun _ => rfl) hsize

theorem setPhase (h : ctx.Apart) (key : String) (target : Phase) : (ctx.setPhase key target).Apart := by
  unfold Context.setPhase
  split
  · refine h.map rfl (fun m => ?_) (fun m => ?_) le_rfl <;> split <;> rfl
  · exact h

/-- A module that is registered takes the next scope. -/
theorem addModule (h : ctx.Apart) (key : String) (file : Path) (program : Program) :
    (ctx.addModule key file program).2.Apart := by
  cases hfree : ctx.hasModule key with
  | true =>
    rw [Context.addModule, if_pos hfree]
    exact h
  | false =>
    rw [addModule_eq hfree]
    refine ⟨?_, ?_, fun m hm => ?_, ?_⟩
    · rw [List.map_append, List.nodup_append']
      refine ⟨h.keys, List.nodup_singleton _, List.disjoint_singleton.mpr fun hin => ?_⟩
      obtain ⟨m, hm, rfl⟩ := List.mem_map.mp hin
      exact Bool.eq_false_iff.mp hfree (hasModule_of_mem hm)
    · rw [List.map_append, List.nodup_append']
      refine ⟨h.roots, List.nodup_singleton _, List.disjoint_singleton.mpr fun hin => ?_⟩
      obtain ⟨m, hm, hroot⟩ := List.mem_map.mp hin
      exact (h.opened m hm).2.ne hroot
    · rw [ScopeForest.size_openScope]
      rcases List.mem_append.mp hm with hm | hm
      · exact (h.opened m hm).imp_right Nat.lt_succ_of_lt
      · rw [List.mem_singleton.mp hm]
        exact ⟨h.builtin, Nat.lt_succ_self _⟩
    · rw [ScopeForest.size_openScope]
      exact Nat.lt_succ_of_lt h.builtin

end Apart

end Context

namespace Compilation

open Context

variable {c d : Compilation} {key : String}

/-! ### Operations -/

/-- What may be done with one context and one loader. -/
inductive Operation
  /-- A file is read and parsed, and registered under a key if it is a program. -/
  | load (key : String) (file : Path)
  /-- A program is registered under a key. -/
  | add (key : String) (file : Path) (program : Program)
  /-- The module under a key is collected. -/
  | collect (key : String)
  /-- The module under a key is resolved. -/
  | resolve (key : String)
  /-- The module under a key is type checked. -/
  | typecheck (key : String)
  /-- The module under a key is moved to a phase. -/
  | setPhase (key : String) (target : Phase)
  /-- An entry file is checked. -/
  | check (entry : Path)

/-- The compilation behind an operation. -/
def perform (c : Compilation) : Operation → Compilation
  | .load key file =>
    match c.loader.load file with
    | (.ok program, loader) => ⟨(c.context.addModule key file program).2, loader⟩
    | (.error _, loader) => ⟨c.context, loader⟩
  | .add key file program => c.update fun ctx => (ctx.addModule key file program).2
  | .collect key => c.collect key
  | .resolve key => c.update (Context.resolve key)
  | .typecheck key => c.update (Context.check key)
  | .setPhase key target => c.update fun ctx => ctx.setPhase key target
  | .check entry => (c.check entry).2

/-- The compilation behind operations in some order. -/
def performAll (c : Compilation) (ops : List Operation) : Compilation := ops.foldl perform c

/-! ### What every operation keeps -/

/-- Modules stay what they are, and go on to be apart. -/
structure Preserves (c d : Compilation) : Prop where
  /-- A module stays registered, and moves forward. -/
  knows : ∀ {m}, c.context.Knows m → d.context.Knows m
  /-- Modules go on to be apart. -/
  apart : c.context.Apart → d.context.Apart

theorem Preserves.of_modules (hmodules : d.context.modules = c.context.modules)
    (hscopes : c.context.scopes.Precedes d.context.scopes) : Preserves c d :=
  ⟨(knows_congr hmodules).mpr, fun h => h.congr hmodules hscopes.size_le⟩

theorem preserves_setPhase (c : Compilation) (key : String) (target : Phase) :
    Preserves c (c.update fun ctx => ctx.setPhase key target) :=
  ⟨fun h => h.setPhase key target, fun h => h.setPhase key target⟩

theorem preserves_addModule (c : Compilation) (loader : Loader) (key : String) (file : Path)
    (program : Program) :
    Preserves c ⟨(c.context.addModule key file program).2, loader⟩ := by
  refine ⟨fun {m} h => ?_, fun h => h.addModule key file program⟩
  cases hfree : c.context.hasModule key with
  | true => rwa [addModule, if_pos hfree]
  | false =>
    obtain ⟨p, hp, hm⟩ := h
    exact ⟨p, hp, by rw [module?_addModule hfree, hm, Option.some_or]⟩

/-- No edit of a pass takes a module away or moves it backward. -/
theorem follows_preserves : Follows Preserves where
  refl _ := ⟨id, id⟩
  trans h h' := ⟨fun hm => h'.knows (h.knows hm), fun ha => h'.apart (h.apart ha)⟩
  report _ _ _ := .of_modules rfl (.refl _)
  declare h := .of_modules rfl (ScopeForest.precedes_declare h)
  regraph _ _ := .of_modules rfl (.refl _)
  register c key file := by
    unfold register
    split
    · exact ⟨id, id⟩
    · rcases c.loader.load file with ⟨e | program, loader⟩
      · exact ⟨id, id⟩
      · exact preserves_addModule c loader key file program
  bind h := .of_modules rfl (ScopeForest.precedes_addImport h)
  setPhase c key := preserves_setPhase c key .collected
  types _ _ h := .of_modules h.modules h.scopes.toPrecedes
  problem _ _ _ := .of_modules rfl (.refl _)
  advance := preserves_setPhase

/-- No operation takes a module away or moves it backward. -/
theorem preserves_perform (c : Compilation) (op : Operation) : Preserves c (c.perform op) := by
  cases op with
  | load key file =>
    dsimp only [perform]
    rcases c.loader.load file with ⟨e | program, loader⟩
    · exact ⟨id, id⟩
    · exact preserves_addModule c loader key file program
  | add key file program => exact preserves_addModule c c.loader key file program
  | collect key => exact follows_preserves.collect c key
  | resolve key =>
    exact (follows_preserves.stages.traversal c.loader .resolved .resolving "resolution" filling_resolver
      fun _ => rfl).runWithin _ key c.context
  | typecheck key =>
    exact (follows_preserves.stages.traversal c.loader .typechecked .typechecking "type checking"
      filling_checker fun _ => rfl).runWithin _ key c.context
  | setPhase key target => exact preserves_setPhase c key target
  | check entry => exact follows_preserves.stages.check c (fun c key? => .of_modules rfl (.refl _)) entry

theorem preserves_performAll (c : Compilation) (ops : List Operation) :
    Preserves c (c.performAll ops) := by
  induction ops generalizing c with
  | nil => exact ⟨id, id⟩
  | cons op ops ih => exact follows_preserves.trans (preserves_perform c op) (ih _)

theorem apart_new (l : Loader) : (new l).context.Apart :=
  ⟨List.nodup_nil, List.nodup_nil, fun _ hm => absurd hm List.not_mem_nil,
    by change builtins < initial.scopes.size; decide +kernel⟩

/-! ### What every pass asks first -/

/--
A pass asks how far a module has come. If the module is as far as the pass leads, nothing happens; if
it is not even in front of that phase, it is reported by one critical error, and nothing else happens.
-/
structure Gated (target : Phase) (pass : String → Compilation → Compilation) (c : Compilation) :
    Prop where
  /-- The module has come so far already. -/
  late : ∀ key, target ≤ c.context.phase key → pass key c = c
  /-- The module has not come to the phase in front. -/
  early : ∀ key, ¬ target ≤ c.context.phase key → target.previous? ≠ some (c.context.phase key) →
    ∃ e : Diagnostic, e.severity = .criticalError ∧ pass key c = c.update fun ctx => ctx.report e

theorem gated_collect (c : Compilation) : Gated .collected Compilation.collect c where
  late _ h := collect_of_le h
  early key h hready := ⟨c.context.notReady key .collecting "symbol collection", rfl,
    runWithin_of_enter (by simp only [collection, enter_of_not_ready _ _ h hready]; rfl)⟩

theorem gated_traverse (target : Phase) (pass : Pass) (activity : String)
    (visitor : Module → Visitor Context) (c : Compilation) :
    Gated target (fun key c => c.update (traverse (traversal target pass activity visitor) key)) c where
  late _ h := congrArg (Compilation.mk · c.loader) (traverse_of_le h pass activity visitor)
  early key h hready := ⟨c.context.notReady key pass activity, rfl,
    congrArg (Compilation.mk · c.loader)
      (runWithin_of_enter (enter_of_not_ready pass activity h hready))⟩

/-! ### The registry along all operations -/

/-- What holds of the modules of one compilation in any other one that operations lead to. -/
structure Regulated (c d : Compilation) : Prop where
  /-- A module keeps its key, its file, its program and its outermost scope, and moves forward. -/
  kept : ∀ {key m}, c.context.module? key = some m →
    ∃ p, m.phase ≤ p ∧ d.context.module? key = some { m with phase := p }
  /-- Different modules have different outermost scopes. -/
  roots : ∀ {m m'}, m ∈ d.context.modules → m' ∈ d.context.modules → m.key ≠ m'.key →
    m.root ≠ m'.root
  /-- No outermost scope is that of the builtin types. -/
  builtin : ∀ {m}, m ∈ d.context.modules → m.root ≠ builtins
  /-- To register a key once more changes nothing. -/
  again : ∀ {key} file program, d.context.hasModule key = true →
    d.context.addModule key file program = (false, d.context)
  /-- Collection asks for modules that have been parsed. -/
  collect : Gated .collected Compilation.collect d
  /-- Resolution asks for modules that have been collected. -/
  resolve : Gated .resolved (fun key c => c.update (Context.resolve key)) d
  /-- Type checking asks for modules that have been resolved. -/
  typecheck : Gated .typechecked (fun key c => c.update (Context.check key)) d

/--
Whatever is done with one context and one loader, in any order: registered modules stay what they are
and move forward only, their outermost scopes are their own, no key is registered twice, and a pass
that is called on a module out of turn does nothing but, if it is too early, report it.
-/
theorem performAll_regulated (l : Loader) (before after : List Operation) :
    Regulated ((new l).performAll before) (((new l).performAll before).performAll after) where
  kept hm := by
    obtain ⟨-, rfl⟩ := mem_of_module? hm
    exact (preserves_performAll _ after).knows (knows_of_module? hm)
  roots {m m'} hm hm' hkey hroot := by
    have hapart := (preserves_performAll _ after).apart
      ((preserves_performAll _ before).apart (apart_new l))
    exact hkey (congrArg Module.key (List.inj_on_of_nodup_map hapart.roots hm hm' hroot))
  builtin {m} hm := by
    have hapart := (preserves_performAll _ after).apart
      ((preserves_performAll _ before).apart (apart_new l))
    exact (hapart.opened m hm).1.ne'
  again file program h := by rw [addModule, if_pos h]
  collect := gated_collect _
  resolve := gated_traverse .resolved .resolving "resolution" resolver _
  typecheck := gated_traverse .typechecked .typechecking "type checking" checker _

end Compilation

end Sable
