import Sable.Proofs.Compilation.Checking
import Mathlib.Logic.Relation

/-!
# Phases between checks

Between checks no module is ahead of what it imports in its outermost scope. So a check that
leads its entry through all passes has led everything there that the entry needs, directly or
through others; and since a pass is only ever called on modules that have come far enough, none
is ever reported for being called too early.
-/

namespace Sable

namespace Context

variable {l : Loader} {needed : Path → Prop} {ctx : Context} {u v : String}

/-- A module binds another one in its outermost scope. -/
def BindsOutside (ctx : Context) (u v : String) : Prop :=
  ∃ m ∈ ctx.modules, m.key = u ∧ ∃ b ∈ ctx.scopes.imports m.root, b.key = v

/-- A module in step with its imports is not ahead of what these need in turn. -/
theorem InStep.phase_le_of_reaches (h : ctx.InStep []) (hl : ctx.Linked)
    (hway : Relation.ReflTransGen ctx.BindsOutside u v) : ctx.phase u ≤ ctx.phase v := by
  induction hway with
  | refl => exact le_rfl
  | tail _ hstep ih =>
    obtain ⟨m, hm, rfl, b, hb, rfl⟩ := hstep
    have hphase := phase_of_module? (hl.module?_of_mem hm)
    exact ih.trans (hphase ▸ h.outer m hm b hb)

/-- The last phase is the last. -/
theorem phase_eq_typechecked {p : Phase} (h : Phase.typechecked ≤ p) : p = .typechecked := by
  cases p <;> first | rfl | exact absurd h (by decide)

/-! ### Reports of modules that have not come far enough -/

/-- The last character of a text is that of its last part. -/
private theorem getLast?_append_toList {s t : String} {x : Char}
    (ht : t.toList.getLast? = some x) : (s ++ t).toList.getLast? = some x := by
  rw [String.toList_append, List.getLast?_append, ht, Option.some_or]

/-- The first character of a text is that of its first part. -/
private theorem head?_append_toList {s t : String} {x : Char} (hs : s.toList.head? = some x) :
    (s ++ t).toList.head? = some x := by
  rw [String.toList_append, List.head?_append, hs, Option.some_or]

/-- The wording of a failed lookup is not that of a module called too early. -/
private theorem message_ne_notReady (e : LookupError) (ctx : Context) (key : String) (pass : Pass)
    (activity : String) : e.message ≠ (ctx.notReady key pass activity).message := by
  intro h
  have hlast : (ctx.notReady key pass activity).message.toList.getLast? = some ')' :=
    getLast?_append_toList (by decide)
  have hfirst : (ctx.notReady key pass activity).message.toList.head? = some 'm' := by
    iterate 6 apply head?_append_toList
    decide
  cases e with
  | moduleNotFound path =>
    have hlast' : (LookupError.moduleNotFound path).message.toList.getLast? = some 'd' :=
      getLast?_append_toList (by decide)
    rw [h, hlast] at hlast'
    exact absurd hlast' (by decide)
  | notPermitted path =>
    have hfirst' : (LookupError.notPermitted path).message.toList.head? = some 'i' := by
      iterate 2 apply head?_append_toList
      decide
    rw [h, hfirst] at hfirst'
    exact absurd hfirst' (by decide)
  | notInstalled path =>
    have hfirst' : (LookupError.notInstalled path).message.toList.head? = some 'r' := by
      iterate 2 apply head?_append_toList
      decide
    rw [h, hfirst] at hfirst'
    exact absurd hfirst' (by decide)

/-- A report that stops the passes for a reason is not one of a module called too early. -/
theorem Explained.ne_notReady {r : Diagnostic} (h : ctx.Explained l needed r) (ctx' : Context)
    (key : String) (pass : Pass) (activity : String) : r ≠ ctx'.notReady key pass activity := by
  intro heq
  cases h with
  | @unresolved m i e _ _ _ =>
    have hmessage : e.message = (ctx'.notReady key pass activity).message :=
      congrArg Diagnostic.message heq
    exact message_ne_notReady e ctx' key pass activity hmessage
  | cyclic _ =>
    have hhint := congrArg Diagnostic.hint? heq
    cases hhint
  | unparsed _ _ =>
    have hseverity := congrArg Diagnostic.severity heq
    cases hseverity

/-- A context whose reports have their reasons holds none of a module called too early. -/
theorem Grounded.ne_notReady (h : ctx.Grounded l needed) {r : Diagnostic}
    (hr : r ∈ ctx.diagnostics.items) (ctx' : Context) (key : String) (pass : Pass)
    (activity : String) : r ≠ ctx'.notReady key pass activity := by
  intro heq
  have hfatal : r.severity.isFatal = true := by rw [heq]; rfl
  exact (h.explained r hr hfatal).ne_notReady ctx' key pass activity heq

end Context

namespace Compilation

open Context

variable {l : Loader} {needed : Path → Prop} {roots : String → Prop} {c : Compilation}
  {entry : Path} {key : String}

/-- A check that nothing stops leads its entry through all passes. -/
theorem Settled.check_typechecked (h : Settled l needed roots c) (hclosed : l.Closed needed)
    (hneeded : needed entry) (hroot : roots (l.moduleKey entry))
    (hok : (c.check entry).1 = .ok key)
    (hfatal : (c.check entry).2.context.diagnostics.hasFatal = false) :
    (c.check entry).2.context.phase key = .typechecked := by
  have h' := h.enter (some (l.moduleKey entry))
  rcases hreg : (c.update fun ctx => { ctx with entry? := some (l.moduleKey entry) }).register
    (l.moduleKey entry) entry with ⟨e | u, d⟩
  · cases e with
    | read e =>
      simp only [Compilation.check, h.like.moduleKey_eq, hreg] at hok
      cases hok
    | grammar e =>
      -- The report of a file that is no program stops the passes.
      simp only [Compilation.check, h.like.moduleKey_eq, hreg] at hfatal
      simp [update, report, Diagnostics.hasFatal_add, loadReport, Severity.isFatal] at hfatal
  · obtain ⟨hlike, hd⟩ := register_ok h'.linked h'.grounded h'.like hneeded rfl hreg
    have hready := ready_of_registers h'.accounted h'.inStep hroot hlike hd
    obtain ⟨hc, -, hkey⟩ := collect_spec hclosed hready
    simp only [Compilation.check, h.like.moduleKey_eq, hreg] at hok hfatal ⊢
    obtain rfl := Except.ok.inj hok
    rcases runPasses_cases rfl hc.walking.linked hkey with ⟨hstop, he⟩ | ⟨-, r, t, -, -, -, ht, he⟩
    · rw [he, hstop] at hfatal
      cases hfatal
    · rw [he]
      exact phase_eq_typechecked ht

/--
After any checks, every module that the outermost scope of another one binds has come at least as
far as that one, and no pass has ever been called on a module too early. If the next check yields
a key and nothing stops it, the module under the key and all that outermost scopes bind from there
on have gone through all passes.
-/
theorem checkAll_phases (l : Loader) (entries : List Path) :
    (∀ m ∈ (checkAll entries (new l)).context.modules,
      ∀ b ∈ (checkAll entries (new l)).context.scopes.imports m.root,
        m.phase ≤ (checkAll entries (new l)).context.phase b.key) ∧
    (∀ r ∈ (checkAll entries (new l)).context.diagnostics.items,
      ∀ (ctx : Context) key pass activity, r ≠ ctx.notReady key pass activity) ∧
    ∀ entry key, ((checkAll entries (new l)).check entry).1 = .ok key →
      ((checkAll entries (new l)).check entry).2.context.diagnostics.hasFatal = false →
      ∀ k, Relation.ReflTransGen
          ((checkAll entries (new l)).check entry).2.context.BindsOutside key k →
        ((checkAll entries (new l)).check entry).2.context.phase k = .typechecked := by
  have hclosed : l.Closed fun _ => True := fun _ _ _ _ => trivial
  have h := (settled_new l (fun _ => True) fun _ => True).checkAll hclosed
    (fun _ => trivial) (fun _ => trivial) entries
  refine ⟨h.inStep.outer, fun r hr => h.grounded.ne_notReady hr, ?_⟩
  intro entry key hok hfatal k hway
  have hnext : Settled l (fun _ => True) (fun _ => True)
      ((checkAll entries (new l)).check entry).2 := h.check hclosed trivial trivial
  have hkey := h.check_typechecked hclosed trivial trivial hok hfatal
  have hle := hnext.inStep.phase_le_of_reaches hnext.linked hway
  exact phase_eq_typechecked (hkey ▸ hle)

end Compilation

end Sable
