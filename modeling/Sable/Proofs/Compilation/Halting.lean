import Sable.Proofs.Compilation.Outcomes

/-!
# Problems that stop the passes

A syntax error or a critical error is only looked at between passes, but then it counts for good: it
is found while an entry is parsed or collected, and nothing but collection runs from there on. So the
reports of the later passes stand in front of it, and behind it no name is given a type and no module
is led beyond collection.
-/

namespace Sable

/-- Just a syntax error or a critical error keeps the next pass from being started. -/
theorem Diagnostics.hasFatal_iff (ds : Diagnostics) : ds.hasFatal = true ↔
    ∃ r ∈ ds.items, r.severity = .syntaxError ∨ r.severity = .criticalError := by
  have hfatal : ∀ x : Severity, x.isFatal = true ↔ x = .syntaxError ∨ x = .criticalError := by
    intro x
    cases x <;> simp [Severity.isFatal]
  simp only [ds.hasFatal_eq, List.any_eq_true, hfatal]

/-- What the later passes report stands in front of everything that stops the passes. -/
def Diagnostics.LateFirst (ds : Diagnostics) : Prop :=
  ∃ xs ys, ds.items = xs ++ ys ∧ (∀ x ∈ xs, x.severity.isFatal = false) ∧ ∀ y ∈ ys, ¬ y.pass.IsLate

/-- A report of a later pass stands in front of each one that stops the passes. -/
theorem Diagnostics.LateFirst.lt {ds : Diagnostics} (h : ds.LateFirst) {i j : Nat}
    {x y : Diagnostic} (hx : ds.items[i]? = some x) (hy : ds.items[j]? = some y)
    (hlate : x.pass.IsLate) (hfatal : y.severity.isFatal = true) : i < j := by
  obtain ⟨xs, ys, hitems, hmild, hearly⟩ := h
  rw [hitems] at hx hy
  have hi : i < xs.length := by
    by_contra hle
    rw [List.getElem?_append_right (Nat.le_of_not_lt hle)] at hx
    exact hearly x (List.mem_of_getElem? hx) hlate
  have hj : xs.length ≤ j := by
    by_contra hlt
    rw [List.getElem?_append_left (Nat.lt_of_not_le hlt)] at hy
    rw [hmild y (List.mem_of_getElem? hy)] at hfatal
    cases hfatal
  exact hi.trans_le hj

/-- Where nothing stops the passes, every report may stand in front. -/
theorem Diagnostics.lateFirst_of_mild {ds : Diagnostics} (h : ds.hasFatal = false) :
    ds.LateFirst := by
  rw [ds.hasFatal_eq, List.any_eq_false] at h
  exact ⟨ds.items, [], (List.append_nil _).symm,
    fun x hx => Bool.eq_false_of_not_eq_true (h x hx), nofun⟩

namespace Context

variable {ctx d e : Context}

/-- A context that another one can turn into while the passes behind collection stand still. -/
structure Stalls (ctx d : Context) : Prop where
  /-- No name is given a type. -/
  types : ∀ s name, d.scopes.typeOf? s name = ctx.scopes.typeOf? s name
  /-- A module that moves or is registered is not led beyond collection. -/
  phases : ∀ key, d.phase key = ctx.phase key ∨ d.phase key ≤ .collected

theorem Stalls.refl (ctx : Context) : ctx.Stalls ctx := ⟨fun _ _ => rfl, fun _ => Or.inl rfl⟩

theorem Stalls.trans (h : ctx.Stalls d) (h' : d.Stalls e) : ctx.Stalls e where
  types s name := (h'.types s name).trans (h.types s name)
  phases key := by
    rcases h'.phases key with hsame | hlow
    · exact (h.phases key).imp hsame.trans fun hlow => hsame ▸ hlow
    · exact Or.inr hlow

/-- A module that is registered has been parsed only. -/
theorem Enrols.stalls (h : ctx.Enrols d) : ctx.Stalls d where
  types s name := ScopeForest.typeOf?_congr (h.symbols s) name
  phases key := (h.phases key).imp_right fun hnew => by
    rw [hnew.2]
    decide

end Context

namespace Compilation

open Context

variable {l : Loader} {needed : Path → Prop} {roots : String → Prop} {c d e : Compilation}
  {m : Module} {s : ScopeId} {entry : Path} {key : String}

/-! ### Reports of the first pass -/

/-- Reports may be added, each of a problem that is found before the later passes. -/
def ReportsEarly (c d : Compilation) : Prop :=
  ∃ es, d.context.diagnostics.items = c.context.diagnostics.items ++ es ∧ ∀ x ∈ es, ¬ x.pass.IsLate

theorem ReportsEarly.trans (h : c.ReportsEarly d) (h' : d.ReportsEarly e) : c.ReportsEarly e := by
  obtain ⟨es, hes, hearly⟩ := h
  obtain ⟨es', hes', hearly'⟩ := h'
  exact ⟨es ++ es', by rw [hes', hes, List.append_assoc],
    List.forall_mem_append.mpr ⟨hearly, hearly'⟩⟩

theorem reportsEarly_of_eq (h : d.context.diagnostics = c.context.diagnostics) :
    c.ReportsEarly d := ⟨[], by rw [h, List.append_nil], nofun⟩

theorem reportsEarly_report (c : Compilation) {r : Diagnostic} (hr : ¬ r.pass.IsLate) :
    c.ReportsEarly (c.update fun ctx => ctx.report r) :=
  ⟨[r], rfl, List.forall_mem_singleton.mpr hr⟩

/-- No edit of collection reports a problem of a later pass. -/
theorem edits_reportsEarly : Edits ReportsEarly where
  refl _ := reportsEarly_of_eq rfl
  trans := ReportsEarly.trans
  report c r hr := reportsEarly_report c (by rcases hr with h | h <;> simp [Pass.IsLate, h])
  declare _ := reportsEarly_of_eq rfl
  regraph _ _ := reportsEarly_of_eq rfl
  register c key file := reportsEarly_of_eq (diagnostics_register key file c)
  bind _ := reportsEarly_of_eq rfl
  setPhase c key := reportsEarly_of_eq (diagnostics_setPhase ..)

/-- Early reports may follow whatever stops the passes. -/
theorem ReportsEarly.lateFirst (h : c.ReportsEarly d) (hc : c.context.diagnostics.LateFirst) :
    d.context.diagnostics.LateFirst := by
  obtain ⟨es, hes, hearly⟩ := h
  obtain ⟨xs, ys, hitems, hmild, hlate⟩ := hc
  exact ⟨xs, ys ++ es, by rw [hes, hitems, List.append_assoc], hmild,
    List.forall_mem_append.mpr ⟨hlate, hearly⟩⟩

/-! ### Checks -/

/-- A check puts no report of a later pass behind one that stops the passes. -/
theorem Settled.lateFirst_check (h : Settled l needed roots c) (hclosed : l.Closed needed)
    (hneeded : needed entry) (hroot : roots (l.moduleKey entry))
    (hc : c.context.diagnostics.LateFirst) :
    (c.check entry).2.context.diagnostics.LateFirst := by
  have houtcome := check_outcome entry c
  rw [h.like.moduleKey_eq] at houtcome
  generalize (c.check entry).1 = x, (c.check entry).2 = d at houtcome
  cases houtcome with
  | unreadable => exact hc
  | malformed =>
    exact (reportsEarly_report (c.asked _) (by simp [loadReport, Pass.IsLate])).lateFirst hc
  | @passed d hreg =>
    obtain ⟨hcollecting, -, hkey⟩ := collect_spec hclosed (h.ready hneeded hroot hreg).1
    have hd : d.context.diagnostics = c.context.diagnostics := by
      have hsame := diagnostics_register (l.moduleKey entry) entry (c.asked (l.moduleKey entry))
      rwa [hreg] at hsame
    have hfirst : (d.collect (l.moduleKey entry)).context.diagnostics.LateFirst :=
      (edits_reportsEarly.collect d _).lateFirst (hd ▸ hc)
    rcases runPasses_cases rfl hcollecting.walking.linked hkey with
      ⟨-, he⟩ | ⟨hmild, r, t, hr, -, ht, -, he⟩
    · exact he ▸ hfirst
    · -- The later passes have been started, so nothing stops them, and they report mild problems.
      rw [he]
      exact Diagnostics.lateFirst_of_mild
        (ht.since.hasFatal_eq.trans (hr.since.hasFatal_eq.trans hmild))

/-- In a check behind which some problem stops the passes, only collection has run. -/
theorem Settled.stalls_check (h : Settled l needed roots c) (hclosed : l.Closed needed)
    (hneeded : needed entry) (hroot : roots (l.moduleKey entry))
    (hfatal : (c.check entry).2.context.diagnostics.hasFatal = true) :
    c.context.Stalls (c.check entry).2.context := by
  have houtcome := check_outcome entry c
  rw [h.like.moduleKey_eq] at houtcome
  generalize (c.check entry).1 = x, (c.check entry).2 = d at houtcome hfatal ⊢
  have hasked := (enrols_enter c.context (some (l.moduleKey entry))).stalls
  cases houtcome with
  | unreadable => exact hasked
  | malformed => exact ⟨hasked.types, hasked.phases⟩
  | passed hreg =>
    obtain ⟨hready, henrols⟩ := h.ready hneeded hroot hreg
    obtain ⟨hcollecting, hadvances, hkey⟩ := collect_spec hclosed hready
    rcases runPasses_cases rfl hcollecting.walking.linked hkey with
      ⟨-, he⟩ | ⟨hmild, r, t, hr, -, ht, -, he⟩
    · rw [he]
      exact henrols.stalls.trans ⟨hadvances.types, hadvances.phases⟩
    · rw [he, ht.since.hasFatal_eq, hr.since.hasFatal_eq, hmild] at hfatal
      cases hfatal

/-- Any number of checks put no report of a later pass behind one that stops the passes. -/
theorem Settled.lateFirst_checkAll (h : Settled l needed roots c) (hclosed : l.Closed needed)
    (hneeded : ∀ p, needed p) (hroot : ∀ k, roots k) (hc : c.context.diagnostics.LateFirst)
    (entries : List Path) : (Compilation.checkAll entries c).context.diagnostics.LateFirst := by
  induction entries generalizing c with
  | nil => exact hc
  | cons entry entries ih =>
    exact ih (h.check hclosed (hneeded entry) (hroot _))
      (h.lateFirst_check hclosed (hneeded entry) (hroot _) hc)

/-- Once some problem stops the passes, nothing but collection runs in any number of checks. -/
theorem Settled.stalls_checkAll (h : Settled l needed roots c) (hclosed : l.Closed needed)
    (hneeded : ∀ p, needed p) (hroot : ∀ k, roots k)
    (hfatal : c.context.diagnostics.hasFatal = true) (entries : List Path) :
    c.context.Stalls (Compilation.checkAll entries c).context := by
  induction entries generalizing c with
  | nil => exact .refl _
  | cons entry entries ih =>
    have hfatal' := (h.extends_check hclosed (hneeded entry) (hroot _)).hasFatal hfatal
    exact (h.stalls_check hclosed (hneeded entry) (hroot _) hfatal').trans
      (ih (h.check hclosed (hneeded entry) (hroot _)) hfatal')

/--
After any checks, the passes are kept from being started just if a syntax error or a critical error
is reported; whatever resolution and type checking have reported stands in front of all of these.
The check that reports the first of them and all later ones give no name a type, change none that
it has, and lead no module beyond collection.
-/
theorem checkAll_halts (l : Loader) (entries : List Path) :
    ((checkAll entries (new l)).context.diagnostics.hasFatal = true ↔
      ∃ r ∈ (checkAll entries (new l)).context.diagnostics.items,
        r.severity = .syntaxError ∨ r.severity = .criticalError) ∧
    (∀ (i j : Nat) (x y : Diagnostic),
      (checkAll entries (new l)).context.diagnostics.items[i]? = some x →
      (checkAll entries (new l)).context.diagnostics.items[j]? = some y →
      x.pass = .resolving ∨ x.pass = .typechecking →
      y.severity = .syntaxError ∨ y.severity = .criticalError → i < j) ∧
    ∀ entry later,
      ((checkAll entries (new l)).check entry).2.context.diagnostics.hasFatal = true →
      (∀ s name,
        (checkAll (entries ++ entry :: later) (new l)).context.scopes.typeOf? s name =
          (checkAll entries (new l)).context.scopes.typeOf? s name) ∧
      ∀ key, (checkAll (entries ++ entry :: later) (new l)).context.phase key =
          (checkAll entries (new l)).context.phase key ∨
        (checkAll (entries ++ entry :: later) (new l)).context.phase key ≤ .collected := by
  have hclosed : l.Closed fun _ => True := fun _ _ _ _ => trivial
  have hnew := settled_new l (fun _ => True) fun _ => True
  have h := hnew.checkAll hclosed (fun _ => trivial) (fun _ => trivial) entries
  refine ⟨Diagnostics.hasFatal_iff _, ?_, ?_⟩
  · intro i j x y hx hy hlate hfatal
    have hfirst := hnew.lateFirst_checkAll hclosed (fun _ => trivial) (fun _ => trivial)
      (Diagnostics.lateFirst_of_mild rfl) entries
    exact hfirst.lt hx hy hlate (by rcases hfatal with h | h <;> rw [h] <;> rfl)
  · intro entry later hfatal
    have hcheck := h.stalls_check hclosed trivial trivial hfatal
    have hlater := (h.check hclosed trivial trivial).stalls_checkAll hclosed (fun _ => trivial)
      (fun _ => trivial) hfatal later
    rw [checkAll_append]
    exact ⟨(hcheck.trans hlater).types, (hcheck.trans hlater).phases⟩

end Compilation

end Sable
