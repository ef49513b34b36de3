import Sable.Proofs.Compilation.Editing
import Sable.Proofs.Compilation.Phases

/-!
# Outcomes of a check

A check notes which module it is asked for. Then it ends in one of three ways: the entry cannot be
read, or it is no program, or it is registered and put through the passes. Only the last way changes
more than reports and the numbers of files, and only there the entry is a module behind the check. It
rests from then on: its passes have been run, or some problem stops them for good.
-/

namespace Sable

/-! ### Modules at rest -/

namespace Context

variable {key : String}

/-- A module rests if its passes have been run, or have been stopped behind the first one. -/
structure Rests (ctx : Context) (key : String) : Prop where
  /-- The module has been collected. -/
  collected : Phase.collected ≤ ctx.phase key
  /-- If nothing stops the passes, all of them have been run. -/
  finished : ctx.diagnostics.hasFatal = false → Phase.typechecked ≤ ctx.phase key

/-- A problem that stops the passes stops them for good. -/
theorem Extends.hasFatal {ctx ctx' : Context} (h : ctx.Extends ctx')
    (hfatal : ctx.diagnostics.hasFatal = true) : ctx'.diagnostics.hasFatal = true := by
  obtain ⟨es, hes⟩ := h.reports
  rw [Diagnostics.hasFatal_eq] at hfatal ⊢
  rw [← hes, List.any_append, hfatal, Bool.true_or]

/-- A module that rests goes on to. -/
theorem Rests.later {ctx ctx' : Context} (h : ctx.Rests key) (hd : ctx.Extends ctx') :
    ctx'.Rests key where
  collected := h.collected.trans (hd.phase_le key)
  finished hmild := by
    refine (h.finished ?_).trans (hd.phase_le key)
    by_contra hfatal
    rw [hd.hasFatal (Bool.eq_true_of_not_eq_false hfatal)] at hmild
    cases hmild

end Context

namespace Compilation

open Context

variable {l : Loader} {needed : Path → Prop} {roots : String → Prop} {c d : Compilation}
  {entry : Path} {key : String}

/-- A compilation in which the module under a key has been asked for. -/
def asked (c : Compilation) (key : String) : Compilation :=
  c.update fun ctx => { ctx with entry? := some key }

/-- Checks follow each other. -/
theorem checkAll_append (before after : List Path) (c : Compilation) :
    checkAll (before ++ after) c = checkAll after (checkAll before c) := List.foldl_append

/-- The ways in which a check of an entry file ends, with its result and the compilation behind it. -/
inductive Outcome (entry : Path) (key : String) (c : Compilation) :
    Except ReadError String → Compilation → Prop
  /-- The entry cannot be read. -/
  | unreadable {e : ReadError} : c.context.hasModule key = false →
    c.loader.load entry = (.error (.read e), c.loader) → Outcome entry key c (.error e) (c.asked key)
  /-- The entry is no program. -/
  | malformed {e : SyntaxError} {d : Loader} : c.context.hasModule key = false →
    c.loader.load entry = (.error (.grammar e), d) →
    Outcome entry key c (.ok key)
      ⟨(c.asked key).context.report (loadReport entry (.grammar e)), d⟩
  /-- The entry is registered and put through the passes. -/
  | passed {d : Compilation} : (c.asked key).register key entry = (.ok (), d) →
    Outcome entry key c (.ok key) (d.runPasses key)

/-- A file that cannot be read leaves the loader as it was. -/
private theorem loader_of_load_read {l' : Loader} {e : ReadError}
    (h : l.load entry = (.error (.read e), l')) : l' = l := by
  unfold Loader.load at h
  split at h
  · exact (Prod.mk.inj h).2.symm
  · next text _ =>
    dsimp only at h
    cases hparse : Sable.parse text l.files.length with
    | error e => simp [hparse, Except.mapError] at h
    | ok p => simp [hparse, Except.mapError] at h

/-- A check ends in one of the three ways. -/
theorem check_outcome (entry : Path) (c : Compilation) :
    Outcome entry (c.loader.moduleKey entry) c (c.check entry).1 (c.check entry).2 := by
  have hregister : ∀ {e : LoadError} {d : Compilation},
      (c.asked (c.loader.moduleKey entry)).register (c.loader.moduleKey entry) entry = (.error e, d) →
      c.context.hasModule (c.loader.moduleKey entry) = false ∧
        c.loader.load entry = (.error e, d.loader) ∧
        d.context = (c.asked (c.loader.moduleKey entry)).context := by
    intro e d h
    unfold register at h
    split at h
    · cases h
    · next hfree =>
      rcases hload : c.loader.load entry with ⟨e' | program, l'⟩
      · have hload' : (c.asked (c.loader.moduleKey entry)).loader.load entry = _ := hload
        simp only [hload', Prod.mk.injEq, Except.error.injEq] at h
        obtain ⟨rfl, rfl⟩ := h
        exact ⟨Bool.eq_false_iff.mpr hfree, rfl, rfl⟩
      · have hload' : (c.asked (c.loader.moduleKey entry)).loader.load entry = _ := hload
        simp [hload'] at h
  rcases hreg : (c.asked (c.loader.moduleKey entry)).register (c.loader.moduleKey entry) entry
    with ⟨(e | e) | _, d, l'⟩
  · obtain ⟨hfree, hload, rfl⟩ := hregister hreg
    rw [asked] at hreg
    rw [Compilation.check, hreg]
    obtain rfl := loader_of_load_read hload
    exact .unreadable hfree hload
  · obtain ⟨hfree, hload, rfl⟩ := hregister hreg
    rw [asked] at hreg
    rw [Compilation.check, hreg]
    exact .malformed hfree hload
  · have hpassed := Outcome.passed hreg
    rw [asked] at hreg
    rw [Compilation.check, hreg]
    exact hpassed

/-! ### Behind the outcomes -/

/-- An entry that is registered is ready to be put through the passes, and nothing gets lost. -/
theorem Settled.ready (h : Settled l needed roots c) (hneeded : needed entry)
    (hroot : roots (l.moduleKey entry))
    (hreg : (c.asked (l.moduleKey entry)).register (l.moduleKey entry) entry = (.ok (), d)) :
    (collecting l needed roots).Ready [] (l.moduleKey entry) d ∧ c.context.Enrols d.context := by
  have h' := h.enter (some (l.moduleKey entry))
  obtain ⟨hlike, hd⟩ := register_ok h'.linked h'.grounded h'.like hneeded rfl hreg
  exact ⟨ready_of_registers h'.accounted h'.inStep hroot hlike hd,
    (enrols_enter _ (some (l.moduleKey entry))).trans (hd.enrols hreg)⟩

/-- The passes lose nothing, and behind them the module rests. -/
theorem runPasses_rests (hclosed : l.Closed needed)
    (hready : (collecting l needed roots).Ready [] key c) :
    c.context.Extends (c.runPasses key).context ∧ (c.runPasses key).context.Rests key := by
  obtain ⟨hc, hadvances, hkey⟩ := collect_spec hclosed hready
  have hl := hc.walking.linked
  rcases runPasses_cases rfl hl hkey with ⟨hfatal, he⟩ | ⟨-, r, t, hr, -, ht, htkey, he⟩
  · rw [he]
    exact ⟨hadvances.onward, hkey, fun hmild => by rw [hfatal] at hmild; cases hmild⟩
  · rw [he]
    have hlate := (hr.since.toExtends hl).trans (ht.since.toExtends hr.walking.linked)
    exact ⟨hadvances.onward.trans hlate, hkey.trans (hlate.phase_le key), fun _ => htkey⟩

/-- A check that yields a key yields that of its entry. -/
theorem Settled.moduleKey_of_ok (h : Settled l needed roots c) (hok : (c.check entry).1 = .ok key) :
    l.moduleKey entry = key := by
  have houtcome := check_outcome entry c
  rw [h.like.moduleKey_eq, hok] at houtcome
  generalize (c.check entry).2 = d, l.moduleKey entry = k at houtcome ⊢
  cases houtcome <;> rfl

/-- A check loses nothing. -/
theorem Settled.extends_check (h : Settled l needed roots c) (hclosed : l.Closed needed)
    (hneeded : needed entry) (hroot : roots (l.moduleKey entry)) :
    c.context.Extends (c.check entry).2.context := by
  have houtcome := check_outcome entry c
  rw [h.like.moduleKey_eq] at houtcome
  generalize (c.check entry).1 = x, (c.check entry).2 = d at houtcome
  have hasked := extends_enter c.context (some (l.moduleKey entry))
  cases houtcome with
  | unreadable => exact hasked
  | malformed => exact hasked.trans (extends_report ..)
  | passed hreg =>
    obtain ⟨hready, henrols⟩ := h.ready hneeded hroot hreg
    exact henrols.onward.trans (runPasses_rests hclosed hready).1

/-- Any number of checks lose nothing. -/
theorem Settled.extends_checkAll (h : Settled l needed roots c) (hclosed : l.Closed needed)
    (hneeded : ∀ p, needed p) (hroot : ∀ k, roots k) (entries : List Path) :
    c.context.Extends (Compilation.checkAll entries c).context := by
  induction entries generalizing c with
  | nil => exact .refl _
  | cons entry entries ih =>
    exact (h.extends_check hclosed (hneeded entry) (hroot _)).trans
      (ih (h.check hclosed (hneeded entry) (hroot _)))

/-- An entry that is a module behind its check rests. -/
theorem Settled.rests (h : Settled l needed roots c) (hclosed : l.Closed needed)
    (hneeded : needed entry) (hroot : roots (l.moduleKey entry))
    (hhas : (c.check entry).2.context.hasModule (l.moduleKey entry) = true) :
    (c.check entry).2.context.Rests (l.moduleKey entry) ∨ ∃ e, (c.check entry).1 = .error e := by
  have houtcome := check_outcome entry c
  rw [h.like.moduleKey_eq] at houtcome
  generalize (c.check entry).1 = x, (c.check entry).2 = d at houtcome hhas ⊢
  cases houtcome with
  | unreadable => exact Or.inr ⟨_, rfl⟩
  | malformed hfree => exact absurd (hhas.symm.trans hfree) (by decide)
  | passed hreg =>
    exact Or.inl (runPasses_rests hclosed (h.ready hneeded hroot hreg).1).2

/-! ### The module that was asked for -/

/-- If the module under a key has been asked for last, its outermost scope is found just if it is
known. -/
private theorem isSome_entryRoot? {ctx : Context} (h : ctx.entry? = some key) :
    ctx.entryRoot?.isSome = ctx.hasModule key := by
  rw [entryRoot?, h, Option.bind_some, Option.isSome_map, hasModule]

/-- A registered file was known before, or it is a program. -/
private theorem load_of_register {u : Unit} (h : c.register key entry = (.ok u, d)) :
    c.context.hasModule key = true ∨ ∃ program, (c.loader.load entry).1 = .ok program := by
  unfold register at h
  split at h
  · next hhas => exact Or.inl hhas
  · rcases hload : c.loader.load entry with ⟨e | program, l'⟩
    · simp [hload] at h
    · exact Or.inr ⟨program, rfl⟩

/--
After any checks, the next one asks for the module of its entry, whether there is one or not. Its
outermost scope is found behind the check just if the module was known before or its file is a
program. A check whose entry cannot be read changes nothing but the module that was asked for.
-/
theorem checkAll_asks (l : Loader) (entries : List Path) (entry : Path) :
    ((checkAll entries (new l)).check entry).2.context.entry? = some (l.moduleKey entry) ∧
    (((checkAll entries (new l)).check entry).2.context.entryRoot?.isSome = true ↔
      (checkAll entries (new l)).context.hasModule (l.moduleKey entry) = true ∨
        ∃ program, ((checkAll entries (new l)).loader.load entry).1 = .ok program) ∧
    ∀ e, ((checkAll entries (new l)).check entry).1 = .error e →
      ((checkAll entries (new l)).check entry).2 =
        (checkAll entries (new l)).asked (l.moduleKey entry) := by
  have hclosed : l.Closed fun _ => True := fun _ _ _ _ => trivial
  have h := (settled_new l (fun _ => True) fun _ => True).checkAll hclosed
    (fun _ => trivial) (fun _ => trivial) entries
  generalize checkAll entries (new l) = c at h ⊢
  have houtcome := check_outcome entry c
  rw [h.like.moduleKey_eq] at houtcome
  generalize (c.check entry).1 = x, (c.check entry).2 = d at houtcome ⊢
  cases houtcome with
  | unreadable hfree hload =>
    refine ⟨rfl, ?_, fun _ _ => rfl⟩
    rw [isSome_entryRoot? rfl]
    have hnone : (c.asked (l.moduleKey entry)).context.hasModule (l.moduleKey entry) = false := hfree
    simp [hnone, hfree, hload]
  | @malformed e d hfree hload =>
    refine ⟨rfl, ?_, nofun⟩
    rw [isSome_entryRoot? rfl]
    have hnone : ((c.asked (l.moduleKey entry)).context.report
        (loadReport entry (.grammar e))).hasModule (l.moduleKey entry) = false := hfree
    simp [hnone, hfree, hload]
  | @passed d hreg =>
    have hentry : (d.runPasses (l.moduleKey entry)).context.entry? = some (l.moduleKey entry) := by
      rw [entry?_runPasses, show d = (_ : Except LoadError Unit × Compilation).2 from
        (congrArg Prod.snd hreg).symm, entry?_register]
      rfl
    have hrests := (runPasses_rests hclosed (h.ready trivial trivial hreg).1).2
    refine ⟨hentry, ?_, nofun⟩
    rw [isSome_entryRoot? hentry]
    have hknown := load_of_register hreg
    exact iff_of_true (hasModule_of_parsed_le (le_trans (by decide) hrests.collected)) hknown

end Compilation

/-!
## Checks that have nothing left to do

A module that has been asked for once rests: either it has gone through all passes, or it has been
collected and some problem keeps the other passes from being started. Each pass passes over a module
that has come as far as the pass leads. So to ask for such a module again, under whatever path, does
nothing.
-/

namespace Context

variable {key : String} {target : Phase} {ctx : Context}

/-- A pass looks at no module that has come as far as the pass leads. -/
theorem enter_of_le (h : target ≤ ctx.phase key) (pass : Pass) (activity : String) :
    ctx.enter key target pass activity = (none, ctx) := by
  have hcan : ctx.canProcess key target = false := by
    rw [canProcess, beq_eq_false_iff_ne]
    intro hprev
    exact absurd (Phase.previous_lt hprev) h.not_gt
  rw [enter, hcan, if_neg Bool.false_ne_true, if_pos h]

/-- A pass behind the first one does nothing to such a module. -/
theorem traverse_of_le (h : target ≤ ctx.phase key) (pass : Pass) (activity : String)
    (visitor : Module → Visitor Context) :
    traverse (traversal target pass activity visitor) key ctx = ctx := by
  have henter : (traversal target pass activity visitor).enter key ctx = (none, ctx) :=
    enter_of_le h pass activity
  rw [traverse, Traversal.runWithin, henter]

end Context

namespace Compilation

open Context

variable {c : Compilation} {key : String}

/-- Collection does nothing to a module that has been collected. -/
theorem collect_of_le (h : Phase.collected ≤ c.context.phase key) : c.collect key = c := by
  have henter : collection.enter key c = (none, c) := by
    simp only [collection, enter_of_le h]
  rw [collect, Traversal.runWithin, henter]

/-- A pass behind the first one has nothing to do if it cannot be started or has been run. -/
theorem andThen_of_le {target : Phase} (pass : Pass) (activity : String)
    (visitor : Module → Visitor Context)
    (h : c.context.diagnostics.hasFatal = false → target ≤ c.context.phase key) :
    c.andThen (traverse (traversal target pass activity visitor) key) = c := by
  unfold andThen
  split
  · rfl
  · next hmild =>
    rw [update, traverse_of_le (h (Bool.eq_false_of_not_eq_true hmild))]

/-- The passes do nothing to a module that rests. -/
theorem runPasses_of_rests (h : c.context.Rests key) : c.runPasses key = c := by
  have hresolved : c.andThen (Context.resolve key) = c :=
    andThen_of_le .resolving "resolution" resolver fun hmild =>
      le_trans (by decide) (h.finished hmild)
  have hchecked : c.andThen (Context.check key) = c :=
    andThen_of_le .typechecking "type checking" checker h.finished
  rw [runPasses, collect_of_le h.collected, hresolved, hchecked]

/-- A check of a module that rests notes that it has been asked for, and does nothing else. -/
theorem check_of_rests {entry : Path} (hkey : c.loader.moduleKey entry = key)
    (h : c.context.Rests key) : c.check entry = (.ok key, c.asked key) := by
  have hhas : (c.asked key).context.hasModule key = true :=
    hasModule_of_parsed_le (le_trans (by decide) h.collected)
  have hreg : (c.asked key).register key entry = (.ok (), c.asked key) := by
    rw [register, if_pos hhas]
  have hrests : (c.asked key).context.Rests key := ⟨h.collected, h.finished⟩
  rw [asked] at hreg
  rw [Compilation.check, hkey, hreg]
  exact congrArg (Prod.mk _) (runPasses_of_rests hrests)

/--
Among any checks, if one has yielded a key behind which it has left a module, then to check any path
with that key behind all of them yields the key again and changes nothing but the module that was
asked for.
-/
theorem check_again (l : Loader) (before after : List Path) (first again : Path) (key : String)
    (hok : ((checkAll before (new l)).check first).1 = .ok key)
    (hhas : ((checkAll before (new l)).check first).2.context.hasModule key = true)
    (hkey : l.moduleKey again = key) :
    (checkAll (before ++ first :: after) (new l)).check again =
      (.ok key, (checkAll (before ++ first :: after) (new l)).asked key) := by
  have hclosed : l.Closed fun _ => True := fun _ _ _ _ => trivial
  have h := (settled_new l (fun _ => True) fun _ => True).checkAll hclosed
    (fun _ => trivial) (fun _ => trivial) before
  obtain rfl : l.moduleKey first = key := h.moduleKey_of_ok hok
  have hrests : ((checkAll before (new l)).check first).2.context.Rests (l.moduleKey first) := by
    rcases h.rests hclosed trivial trivial hhas with hrests | ⟨e, he⟩
    · exact hrests
    · rw [hok] at he
      cases he
  have hfirst : Settled l (fun _ => True) (fun _ => True) ((checkAll before (new l)).check first).2 :=
    h.check hclosed trivial trivial
  have hlater := hfirst.extends_checkAll hclosed (fun _ => trivial) (fun _ => trivial) after
  have hlast := hfirst.checkAll hclosed (fun _ => trivial) (fun _ => trivial) after
  rw [checkAll_append]
  exact check_of_rests ((hlast.like.moduleKey_eq again).trans hkey) (hrests.later hlater)

/-- The file `a.sbl`, which imports a file that does not exist, and the empty file `b.sbl`. -/
def dangling : Loader :=
  .new (.ofRoot ⟨""⟩) (.memory [(⟨"a.sbl"⟩, "import \"gone\""), (⟨"b.sbl"⟩, "")])

/-- A module that is kept from being resolved rests as well, and is found under another path. -/
theorem check_again_dangling :
    ((checkAll [] (new dangling)).check ⟨"a.sbl"⟩).1 = .ok "a" ∧
    ((checkAll [] (new dangling)).check ⟨"a.sbl"⟩).2.context.hasModule "a" = true ∧
    dangling.moduleKey ⟨"./a.sbl"⟩ = "a" ∧
    (checkAll [⟨"a.sbl"⟩, ⟨"b.sbl"⟩] (new dangling)).check ⟨"./a.sbl"⟩ =
      (.ok "a", (checkAll [⟨"a.sbl"⟩, ⟨"b.sbl"⟩] (new dangling)).asked "a") := by
  have hfirst : dangling.moduleKey ⟨"a.sbl"⟩ = "a" := by decide +kernel
  have hloader : (new dangling).loader = dangling := rfl
  have hok : ((checkAll [] (new dangling)).check ⟨"a.sbl"⟩).1 = .ok "a" := by
    obtain ⟨c, hreg⟩ := @exists_register_ok dangling ⟨"a.sbl"⟩ (by decide +kernel) "a"
    rw [checkAll, List.foldl_nil, Compilation.check, hloader, hfirst, hreg]
  have hhas : ((checkAll [] (new dangling)).check ⟨"a.sbl"⟩).2.context.hasModule "a" = true := by
    simp only [checkAll, List.foldl_nil, Compilation.check, hloader, hfirst]
    decide +kernel
  have hkey : dangling.moduleKey ⟨"./a.sbl"⟩ = "a" := by decide +kernel
  exact ⟨hok, hhas, hkey, check_again dangling [] [⟨"b.sbl"⟩] ⟨"a.sbl"⟩ ⟨"./a.sbl"⟩ "a" hok hhas hkey⟩

end Compilation

end Sable
