import Sable.Proofs.Compilation.Collecting
import Sable.Proofs.Context.Bypassing
import Sable.Proofs.Context.Mirrored
import Sable.Proofs.Loader.Reformatted
import Sable.Proofs.Syntax.Preface

/-!
# Forewords

The foreword of a file is what becomes of the imports that it begins with, if none of them stops the
passes: the aliases that are bound, and the reports of those that are refused. It depends on where
the loader finds the imported files and on nothing else, so it is the same in all runs over the same
files.
-/

namespace Sable

/-- A report without the number of the file that it points into. -/
def Diagnostic.unfiled (d : Diagnostic) : Diagnostic := { d with span := d.span.inFile 0 }

/-! ### Refused imports -/

namespace ImportBinding

/-- A binding, no matter where the outermost scope of its module lies. -/
def unrooted (b : ImportBinding) : ImportBinding := { b with root := 0 }

/-- What keeps an alias from being bound to a module among the bindings of a scope, if anything. -/
def refusal? (bs : List ImportBinding) (aliasName key : String) : Option ImportError :=
  match bs.find? fun b => b.key == key with
  | some b =>
    some (if b.aliasName = aliasName then .alreadyImported key
      else .alreadyImportedAs key b.aliasName)
  | none =>
    (bs.find? fun b => b.aliasName == aliasName).map fun b => .aliasInUse aliasName b.key

variable {F G : ScopeForest} {s : ScopeId} {b : ImportBinding} {e : ImportError}

/-- Outermost scopes do not matter. -/
theorem refusal?_unrooted (bs : List ImportBinding) (aliasName key : String) :
    refusal? (bs.map unrooted) aliasName key = refusal? bs aliasName key := by
  have hkey : (bs.map unrooted).find? (fun b => b.key == key) =
      (bs.find? fun b => b.key == key).map unrooted := List.find?_map
  have halias : (bs.map unrooted).find? (fun b => b.aliasName == aliasName) =
      (bs.find? fun b => b.aliasName == aliasName).map unrooted := List.find?_map
  rw [refusal?, refusal?, hkey, halias]
  cases bs.find? fun b => b.key == key with
  | some b => rfl
  | none =>
    cases bs.find? fun b => b.aliasName == aliasName with
    | some b => rfl
    | none => rfl

/-- The bindings of a scope decide what is refused in it. -/
theorem addImport_eq (F : ScopeForest) (s : ScopeId) (b : ImportBinding) :
    F.addImport s b = (refusal? (F.imports s) b.aliasName b.key).elim
      (.ok (F.modify s fun scope => { scope with imports := scope.imports ++ [b] })) .error := by
  rw [ScopeForest.addImport, refusal?, ScopeForest.imports]
  cases F.scope? s with
  | none => rfl
  | some scope =>
    simp only [Option.bind_some, Option.map_some, Option.getD_some, Scope.importOf?, Scope.import?]
    cases scope.imports.find? fun i => i.key == b.key with
    | some i =>
      dsimp only
      split <;> rfl
    | none => cases scope.imports.find? fun i => i.aliasName == b.aliasName <;> rfl

theorem refusal?_of_error (h : F.addImport s b = .error e) :
    refusal? (F.imports s) b.aliasName b.key = some e := by
  rw [addImport_eq] at h
  cases hr : refusal? (F.imports s) b.aliasName b.key with
  | none => simp [hr] at h
  | some e' => simpa [hr] using h

theorem refusal?_of_ok (h : F.addImport s b = .ok G) :
    refusal? (F.imports s) b.aliasName b.key = none := by
  rw [addImport_eq] at h
  cases hr : refusal? (F.imports s) b.aliasName b.key with
  | none => rfl
  | some e => simp [hr] at h

end ImportBinding

/-! ### Forewords of files -/

/-- The report of an import in a file that is refused. -/
def refusedReport (file : Path) (i : Import) (e : ImportError) : Diagnostic :=
  ⟨file.text, i.span, e.message, .semanticError, .collecting, none⟩

namespace Loader

variable {l : Loader} {file : Path} {i j : Import} {key : String}

/-- The key of the module that an import in a file leads to. -/
def target? (l : Loader) (file : Path) (i : Import) : Option String :=
  (l.locate i.path file).toOption.map l.moduleKey

theorem target?_eq_some_iff : l.target? file i = some key ↔ l.Leads file i key := by
  rw [target?, Leads]
  cases l.locate i.path file with
  | error e => simp [Except.toOption]
  | ok f => simp [Except.toOption]

/-- What one more import of a file adds to the aliases bound and to the reports. -/
def followNext (l : Loader) (file : Path) (r : List ImportBinding × List Diagnostic) (i : Import) :
    List ImportBinding × List Diagnostic :=
  match l.target? file i with
  | none => r
  | some key =>
    match ImportBinding.refusal? r.1 i.localAlias key with
    | some e => (r.1, r.2 ++ [refusedReport file i e])
    | none => (r.1 ++ [⟨i.localAlias, key, 0⟩], r.2)

/-- The aliases that the imports of a file bind, and the reports of those that are refused. -/
def foreword (l : Loader) (file : Path) (is : List Import) :
    List ImportBinding × List Diagnostic :=
  is.foldl (l.followNext file) ([], [])

theorem foreword_append (l : Loader) (file : Path) (is : List Import) (i : Import) :
    l.foreword file (is ++ [i]) = l.followNext file (l.foreword file is) i := by
  rw [foreword, List.foldl_append, List.foldl_cons, List.foldl_nil, foreword]

variable {T : Span → Span → Prop}

theorem target?_eq (hi : i.Paired Span.SameRange T j) : l.target? file i = l.target? file j := by
  rw [target?, target?, hi.path]

/-- The same import refused twice is reported at the same characters. -/
theorem unfiled_refusedReport (hi : i.Paired Span.SameRange T j) (e : ImportError) :
    (refusedReport file i e).unfiled = (refusedReport file j e).unfiled := by
  have hspan : i.span.inFile 0 = j.span.inFile 0 := by
    rw [Span.inFile, Span.inFile, hi.span.1, hi.span.2]
  simp only [Diagnostic.unfiled, refusedReport, hspan]

/-- Two forewords agree but for the numbers of the files. -/
def SameForeword (r r' : List ImportBinding × List Diagnostic) : Prop :=
  r.1 = r'.1 ∧ r.2.map Diagnostic.unfiled = r'.2.map Diagnostic.unfiled

private theorem followNext_same {r r' : List ImportBinding × List Diagnostic}
    (h : SameForeword r r') (hi : i.Paired Span.SameRange T j) :
    SameForeword (l.followNext file r i) (l.followNext file r' j) := by
  rw [followNext, followNext, ← target?_eq hi, ← h.1, ← Context.localAlias_eq hi]
  cases l.target? file i with
  | none => exact h
  | some key =>
    dsimp only
    cases ImportBinding.refusal? r.1 i.localAlias key with
    | none => exact ⟨rfl, h.2⟩
    | some e => exact ⟨rfl, by simp [h.2, unfiled_refusedReport hi]⟩

private theorem foldl_same {is js : List Import}
    (h : List.Forall₂ (Import.Paired Span.SameRange T) is js) :
    ∀ {r r' : List ImportBinding × List Diagnostic}, SameForeword r r' →
      SameForeword (is.foldl (l.followNext file) r) (js.foldl (l.followNext file) r') := by
  induction h with
  | nil => exact id
  | cons hi _ ih => exact fun hr => ih (followNext_same hr hi)

/-- The same imports bind the same aliases, and the same ones are refused. -/
theorem foreword_same {is js : List Import}
    (h : List.Forall₂ (Import.Paired Span.SameRange T) is js) :
    SameForeword (l.foreword file is) (l.foreword file js) := foldl_same h ⟨rfl, rfl⟩

end Loader

/-! ### Imports that do not stop the passes -/

/-- What an import of a file in a scope comes to, unless it stops the passes. -/
structure Context.Heeds (file : Path) (s : ScopeId) (i : Import) (key : String) (ctx d : Context) :
    Prop where
  /-- The module that the import leads to is registered. -/
  registered : d.hasModule key = true
  /-- No other module is. -/
  only : ∀ k, ctx.hasModule k = false → d.hasModule k = true → k = key
  /-- Nothing is imported elsewhere. -/
  elsewhere : ∀ t ≠ s, d.scopes.imports t = ctx.scopes.imports t
  /-- An alias is bound, or it is reported why it is not. -/
  outcome :
    (ImportBinding.refusal? (ctx.scopes.imports s) i.localAlias key = none ∧
      (∃ root, d.scopes.imports s = ctx.scopes.imports s ++ [⟨i.localAlias, key, root⟩]) ∧
        d.diagnostics.items = ctx.diagnostics.items) ∨
    ∃ e, ImportBinding.refusal? (ctx.scopes.imports s) i.localAlias key = some e ∧
      d.scopes.imports s = ctx.scopes.imports s ∧
        d.diagnostics.items = ctx.diagnostics.items ++ [refusedReport file i e]

namespace Compilation

open Context

variable {l : Loader} {needed : Path → Prop} {c d : Compilation} {m : Module} {s : ScopeId}
  {i : Import} {key : String} {file : Path}

private theorem heeds_bindImport (hl : c.context.Linked) (hg : c.context.Grounded l needed)
    (hlike : l.Like c.loader) (hs : s < c.context.scopes.size) (hneeded : needed file)
    (hkey : key = l.moduleKey file) {g : ImportGraph} {fresh : Bool} {key? : Option String}
    (h : bindImport m s i key file fresh (c.update fun ctx => { ctx with graph := g }) = (key?, d))
    (hmild : d.context.diagnostics.hasFatal = false) :
    c.context.Heeds m.file s i key d.context := by
  unfold bindImport at h
  rw [register_regraph] at h
  have hreports := diagnostics_register key file c
  rcases hreg : c.register key file with ⟨e | u, b⟩
  · simp only [hreg, Prod.mk.injEq, forgetEdge_eq] at h
    obtain ⟨-, rfl⟩ := h
    simp [reportIn, update, Context.reportIn, Context.report, loadReport, Severity.isFatal] at hmild
  · obtain ⟨-, hb⟩ := register_ok hl hg hlike hneeded hkey hreg
    obtain ⟨target, htarget⟩ := hb.target
    have hhas : b.context.hasModule key = true := by simp [hasModule, htarget]
    have honly : ∀ k, c.context.hasModule k = false → b.context.hasModule k = true → k = key := by
      intro k hfree hk
      obtain ⟨u, hu⟩ := exists_of_hasModule hk
      obtain ⟨hmem, rfl⟩ := mem_of_module? hu
      have hnot : u ∉ c.context.modules := fun hold =>
        absurd (hfree.symm.trans (hasModule_of_mem hold)) (by decide)
      exact hb.modules.elim (fun he => absurd (he ▸ hmem) hnot)
        fun h => (h.2.2 u hmem).resolve_left hnot
    have htarget' : (b.update fun ctx => { ctx with graph := g }).context.module? key =
      some target := htarget
    rw [hreg] at hreports
    have hitems := congrArg Diagnostics.items hreports
    simp only [hreg, htarget'] at h
    cases hadd : b.context.scopes.addImport s ⟨i.localAlias, key, target.root⟩ with
    | error e =>
      have hadd' : (b.update fun ctx => { ctx with graph := g }).context.scopes.addImport s
        ⟨i.localAlias, key, target.root⟩ = .error e := hadd
      simp only [hadd', Prod.mk.injEq, forgetEdge_eq] at h
      obtain ⟨-, rfl⟩ := h
      refine ⟨hhas, honly, fun t _ => hb.imports t, Or.inr ⟨e, ?_, hb.imports s, ?_⟩⟩
      · exact hb.imports s ▸ ImportBinding.refusal?_of_error hadd
      · exact congrArg (· ++ [refusedReport m.file i e]) hitems
    | ok F =>
      have hadd' : (b.update fun ctx => { ctx with graph := g }).context.scopes.addImport s
        ⟨i.localAlias, key, target.root⟩ = .ok F := hadd
      simp only [hadd', Prod.mk.injEq] at h
      obtain ⟨-, rfl⟩ := h
      have hF := ScopeForest.binds_of_addImport (hs.trans_le hb.onward.scopes.size_le) hadd
      refine ⟨hhas, honly, fun t ht => ?_, Or.inl ⟨?_, ⟨target.root, ?_⟩, hitems⟩⟩
      · exact (hF.imports t).trans ((if_neg ht).trans (hb.imports t))
      · exact hb.imports s ▸ ImportBinding.refusal?_of_ok hadd
      · exact (hF.imports s).trans ((if_pos rfl).trans (by rw [hb.imports s]))

/-- An import that does not stop the passes leads to a module, which is bound or refused. -/
theorem heeds_collectImport (hl : c.context.Linked) (hg : c.context.Grounded l needed)
    (hlike : l.Like c.loader) (hs : s < c.context.scopes.size)
    (hneeded : ∀ f, l.locate i.path m.file = .ok f → needed f) {key? : Option String}
    (h : collectImport m s i c = (key?, d)) (hmild : d.context.diagnostics.hasFatal = false) :
    ∃ key, l.Leads m.file i key ∧ c.context.Heeds m.file s i key d.context := by
  unfold collectImport at h
  rw [hlike.locate_eq] at h
  cases hlocate : l.locate i.path m.file with
  | error e =>
    simp only [hlocate, Prod.mk.injEq] at h
    obtain ⟨-, rfl⟩ := h
    simp [update, Context.report, unresolvedReport, Severity.isFatal] at hmild
  | ok file =>
    simp only [hlocate, hlike.moduleKey_eq] at h
    cases hins : c.context.graph.insert m.key (l.moduleKey file) with
    | ok g =>
      simp only [hins] at h
      exact ⟨_, ⟨file, hlocate, rfl⟩,
        heeds_bindImport hl hg hlike hs (hneeded file hlocate) rfl h hmild⟩
    | error cycle =>
      simp only [hins, Prod.mk.injEq] at h
      obtain ⟨-, rfl⟩ := h
      simp [update, Context.report, cycleReport, Severity.isFatal] at hmild

end Compilation

end Sable
