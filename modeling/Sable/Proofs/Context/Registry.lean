import Sable.Context
import Mathlib.Data.List.Nodup
import Mathlib.Order.Defs.PartialOrder

/-!
# The registry of modules

What is registered under a key stays registered there, with the same file, the same program
and the same outermost scope; only its phase moves, and only forward.
-/

namespace Sable

namespace Phase

instance : PartialOrder Phase where
  le_refl p := Nat.le_refl p.rank
  le_trans p q r := Nat.le_trans (n := p.rank) (m := q.rank) (k := r.rank)
  lt_iff_le_not_ge p q := Nat.lt_iff_le_and_not_ge (m := p.rank) (n := q.rank)
  le_antisymm p q h h' := by
    have hrank : p.rank = q.rank := Nat.le_antisymm h h'
    cases p <;> cases q <;> simp_all [rank]

theorem previous_lt {p q : Phase} (h : q.previous? = some p) : p < q := by
  cases q <;> cases h <;> decide

/-- There is no phase between a phase and the one in front of it. -/
theorem le_of_previous_lt {p q r : Phase} (h : q.previous? = some p) (hr : p < r) : q ≤ r := by
  cases q <;> cases h <;> revert hr <;> cases r <;> decide

end Phase

/-- A module, no matter how far it has come. -/
def Module.blank (m : Module) : Module := { m with phase := .notStarted }

@[simp] theorem Module.key_blank (m : Module) : m.blank.key = m.key := rfl

@[simp] theorem Module.root_blank (m : Module) : m.blank.root = m.root := rfl

@[simp] theorem Module.file_blank (m : Module) : m.blank.file = m.file := rfl

@[simp] theorem Module.program_blank (m : Module) : m.blank.program = m.program := rfl

namespace Context

variable {ctx : Context} {key : String} {m : Module}

/-! ### Looking up modules -/

theorem mem_of_module? (h : ctx.module? key = some m) : m ∈ ctx.modules ∧ m.key = key :=
  ⟨List.mem_of_find?_eq_some h, by simpa using List.find?_some h⟩

/-- A key stands for the one module that is registered under it. -/
theorem module?_of_mem (hnodup : (ctx.modules.map Module.key).Nodup) (h : m ∈ ctx.modules) :
    ctx.module? m.key = some m := by
  have hsome : (ctx.module? m.key).isSome :=
    List.find?_isSome.mpr ⟨m, h, by simp⟩
  obtain ⟨m', hm'⟩ := Option.isSome_iff_exists.mp hsome
  obtain ⟨hmem, hkey⟩ := mem_of_module? hm'
  rw [hm', List.inj_on_of_nodup_map hnodup hmem h hkey]

theorem hasModule_of_mem (h : m ∈ ctx.modules) : ctx.hasModule m.key = true :=
  List.find?_isSome.mpr ⟨m, h, by simp⟩

theorem exists_of_hasModule (h : ctx.hasModule key = true) : ∃ m, ctx.module? key = some m :=
  Option.isSome_iff_exists.mp h

theorem mem_keys_of_hasModule (h : ctx.hasModule key = true) :
    key ∈ ctx.modules.map Module.key := by
  obtain ⟨m, hm⟩ := exists_of_hasModule h
  obtain ⟨hmem, rfl⟩ := mem_of_module? hm
  exact List.mem_map_of_mem hmem

theorem phase_of_module? (h : ctx.module? key = some m) : ctx.phase key = m.phase := by
  simp [phase, h]

/-- A module that has been parsed is registered. -/
theorem hasModule_of_parsed_le (h : Phase.parsed ≤ ctx.phase key) : ctx.hasModule key = true := by
  unfold hasModule
  cases hm : ctx.module? key with
  | some m => rfl
  | none =>
    simp only [phase, hm, Option.map_none, Option.getD_none] at h
    exact absurd h (by decide)

theorem canProcess_iff {target p : Phase} (h : target.previous? = some p) :
    ctx.canProcess key target = true ↔ ctx.phase key = p := by
  rw [canProcess, h, beq_iff_eq, Option.some.injEq, eq_comm]

/-! ### Registering modules -/

theorem addModule_eq {file : Path} {program : Program} (h : ctx.hasModule key = false) :
    (ctx.addModule key file program).2 =
      { ctx with
        scopes := (ctx.scopes.openScope (some builtins) .global).2
        modules := ctx.modules ++ [⟨key, file, program, ctx.scopes.size, .parsed⟩] } := by
  simp [addModule, h, ScopeForest.openScope]

theorem modules_addModule (file : Path) (program : Program) (h : ctx.hasModule key = false) :
    (ctx.addModule key file program).2.modules =
      ctx.modules ++ [⟨key, file, program, ctx.scopes.size, .parsed⟩] := by
  rw [addModule_eq h]

theorem module?_addModule {file : Path} {program : Program} (h : ctx.hasModule key = false)
    (k : String) :
    (ctx.addModule key file program).2.module? k = (ctx.module? k).or
      (if key = k then some ⟨key, file, program, ctx.scopes.size, .parsed⟩ else none) := by
  rw [module?, modules_addModule _ _ h, List.find?_append, List.find?_singleton, module?]
  simp only [beq_iff_eq]

/-! ### Phase changes -/

/-- A phase change that goes forward moves the module under the key and nothing else. -/
theorem setPhase_eq {target : Phase} (h : ctx.module? key = some m) (hlt : m.phase < target) :
    ctx.setPhase key target = { ctx with modules := ctx.modules.map fun m =>
      if m.key = key then { m with phase := target } else m } := by
  simp [setPhase, canAdvance, h, hlt]

@[simp] theorem scopes_setPhase (ctx : Context) (key : String) (target : Phase) :
    (ctx.setPhase key target).scopes = ctx.scopes := by
  unfold setPhase
  split <;> rfl

/-- A phase change leaves modules what they are, but for how far they have come. -/
@[simp] theorem blank_setPhase (ctx : Context) (key : String) (target : Phase) :
    (ctx.setPhase key target).modules.map Module.blank = ctx.modules.map Module.blank := by
  unfold setPhase
  split
  · rw [List.map_map]
    refine List.map_congr_left fun m _ => ?_
    simp only [Function.comp_apply]
    split <;> rfl
  · rfl

@[simp] theorem diagnostics_setPhase (ctx : Context) (key : String) (target : Phase) :
    (ctx.setPhase key target).diagnostics = ctx.diagnostics := by
  unfold setPhase
  split <;> rfl

@[simp] theorem entry?_setPhase (ctx : Context) (key : String) (target : Phase) :
    Context.entry? (ctx.setPhase key target) = ctx.entry? := by
  unfold setPhase
  split <;> rfl

theorem module?_setPhase {target : Phase} (h : ctx.module? key = some m) (hlt : m.phase < target)
    (k : String) :
    (ctx.setPhase key target).module? k =
      if k = key then some { m with phase := target } else ctx.module? k := by
  have hkey : ((fun m : Module => m.key == k) ∘ fun m =>
      if m.key = key then { m with phase := target } else m) = fun m : Module => m.key == k := by
    funext m
    simp only [Function.comp_apply]
    split <;> rfl
  rw [setPhase_eq h hlt, module?, List.find?_map, hkey]
  split
  · next hk =>
    obtain rfl := hk
    have hfind : ctx.modules.find? (fun m => m.key == k) = some m := h
    rw [hfind, Option.map_some, if_pos (mem_of_module? h).2]
  · next hk =>
    cases hfind : ctx.modules.find? (fun m => m.key == k) with
    | none => simp [module?, hfind]
    | some m' =>
      have hfound : ctx.module? k = some m' := hfind
      have hkey' : m'.key = k := (mem_of_module? hfound).2
      rw [Option.map_some, if_neg (hkey' ▸ hk), module?, hfind]

theorem phase_setPhase {target : Phase} (h : ctx.module? key = some m) (hlt : m.phase < target)
    (k : String) :
    (ctx.setPhase key target).phase k = if k = key then target else ctx.phase k := by
  rw [phase, module?_setPhase h hlt]
  split <;> rfl

/-! ### Entering modules -/

variable {target : Phase} {pass : Pass} {activity : String} {d : Context}

/-- A pass enters a module that stands just in front of the phase that the pass leads to. -/
theorem enter_eq_some (h : ctx.enter key target pass activity = (some m, d)) :
    ctx.module? key = some m ∧ target.previous? = some m.phase ∧ d = ctx := by
  simp only [enter] at h
  split at h
  · next hcan =>
    obtain ⟨hm, rfl⟩ := Prod.mk.inj h
    refine ⟨hm, ?_, rfl⟩
    simpa [canProcess, phase_of_module? hm] using hcan
  · split at h <;> cases h

/-- A pass passes a module over, or reports that it has not come so far. -/
theorem enter_eq_none (h : ctx.enter key target pass activity = (none, d)) :
    (d = ctx ∧ (target ≤ ctx.phase key ∨ ctx.module? key = none)) ∨
      (d = ctx.report (ctx.notReady key pass activity) ∧ ctx.canProcess key target = false ∧
        ¬ target ≤ ctx.phase key) := by
  simp only [enter] at h
  split at h
  · obtain ⟨hm, rfl⟩ := Prod.mk.inj h
    exact Or.inl ⟨rfl, Or.inr hm⟩
  · next hcan =>
    split at h
    · next hle =>
      obtain ⟨-, rfl⟩ := Prod.mk.inj h
      exact Or.inl ⟨rfl, Or.inl hle⟩
    · next hle =>
      obtain ⟨-, rfl⟩ := Prod.mk.inj h
      exact Or.inr ⟨rfl, Bool.eq_false_iff.mpr hcan, hle⟩

end Context

end Sable
