import Sable.Proofs.Compilation.Editing
import Sable.Proofs.Module.Named
import Sable.Proofs.Syntax.Distinct
import Sable.Proofs.Syntax.OneFile

/-!
# Numbered modules

A loader numbers files as it reads them, and every module is parsed from a text under a number of its
own. So no two places among all registered modules declare one name: a name knows the file that it
stands in and its place there.
-/

namespace Sable

/-- The modules have been parsed under different numbers below a bound. -/
structure Context.Numbered (n : Nat) (ctx : Context) : Prop where
  /-- A module has been parsed under a number. -/
  parsed : ∀ m ∈ ctx.modules, m.program.span.file < n ∧
    ∃ text, parse text m.program.span.file = .ok m.program
  /-- No two modules share a number. -/
  distinct : (ctx.modules.map fun m => m.program.span.file).Nodup

namespace Context.Numbered

variable {n : Nat} {ctx d : Context} {m m' : Module} {x : Ident}

theorem congr (h : ctx.Numbered n) (hmodules : d.modules = ctx.modules) : d.Numbered n :=
  ⟨hmodules ▸ h.parsed, hmodules ▸ h.distinct⟩

/-- More numbers may be taken. -/
theorem grow (h : ctx.Numbered n) : ctx.Numbered (n + 1) :=
  ⟨fun m hm => (h.parsed m hm).imp_left Nat.lt_succ_of_lt, h.distinct⟩

theorem setPhase (h : ctx.Numbered n) (key : String) (target : Phase) :
    (ctx.setPhase key target).Numbered n := by
  unfold Context.setPhase
  split
  · refine ⟨fun m hm => ?_, ?_⟩
    · obtain ⟨m', hm', rfl⟩ := List.mem_map.mp hm
      split <;> exact h.parsed m' hm'
    · rw [List.map_map]
      convert h.distinct using 2
      funext m
      simp only [Function.comp]
      split <;> rfl
  · exact h

/-- A module that is registered takes the next number. -/
theorem addModule (h : ctx.Numbered n) {text : String} {program : Program}
    (hparse : parse text n = .ok program) (key : String) (file : Path) :
    (ctx.addModule key file program).2.Numbered (n + 1) := by
  have hspan : program.span.file = n := oneFile_of_parse hparse _ (List.mem_cons_self ..)
  cases hfree : ctx.hasModule key with
  | true =>
    rw [Context.addModule, if_pos hfree]
    exact h.grow
  | false =>
    rw [addModule_eq hfree]
    refine ⟨List.forall_mem_append.mpr ⟨h.grow.parsed, List.forall_mem_singleton.mpr ?_⟩, ?_⟩
    · exact ⟨hspan.trans_lt (Nat.lt_succ_self n), text, hspan.symm ▸ hparse⟩
    · rw [List.map_append]
      refine List.nodup_append.mpr ⟨h.distinct, List.nodup_singleton _, fun i hi j hj => ?_⟩
      obtain ⟨m, hm, rfl⟩ := List.mem_map.mp hi
      obtain rfl := List.mem_singleton.mp hj
      exact ((h.parsed m hm).1.trans_eq hspan.symm).ne

/-- No name is declared twice in a module. -/
theorem nodup_names (h : ctx.Numbered n) (hm : m ∈ ctx.modules) : m.program.names.Nodup := by
  obtain ⟨-, text, hparse⟩ := h.parsed m hm
  exact nodup_names_of_parse hparse

/-- A name stands in the file of its module. -/
private theorem file_of_mem_names (h : ctx.Numbered n) (hm : m ∈ ctx.modules)
    (hx : x ∈ m.program.names) : x.span.file = m.program.span.file := by
  obtain ⟨-, text, hparse⟩ := h.parsed m hm
  obtain ⟨b, hb, rfl⟩ := List.mem_map.mp hx
  exact ((spans_of_parse hparse).2 _ (List.mem_map_of_mem hb)).1

/-- No name is declared in two modules. -/
theorem eq_of_mem_names (h : ctx.Numbered n) (hm : m ∈ ctx.modules) (hm' : m' ∈ ctx.modules)
    (hx : x ∈ m.program.names) (hx' : x ∈ m'.program.names) : m = m' :=
  List.inj_on_of_nodup_map h.distinct hm hm'
    ((h.file_of_mem_names hm hx).symm.trans (h.file_of_mem_names hm' hx'))

/-- A name takes some place in its file. -/
theorem span_ne (h : ctx.Numbered n) (hm : m ∈ ctx.modules) (hx : x ∈ m.program.names) :
    x.span ≠ Span.nowhere := by
  obtain ⟨-, text, hparse⟩ := h.parsed m hm
  obtain ⟨b, hb, rfl⟩ := List.mem_map.mp hx
  intro hspan
  have hlt : b.name.span.start < b.name.span.stop :=
    ((spans_of_parse hparse).2 _ (List.mem_map_of_mem hb)).2
  rw [hspan] at hlt
  exact absurd hlt (lt_irrefl _)

/-- A declared name is not empty. -/
theorem name_ne (h : ctx.Numbered n) (hm : m ∈ ctx.modules) (hx : x ∈ m.program.names) :
    x.name ≠ "" := by
  obtain ⟨-, text, hparse⟩ := h.parsed m hm
  have hstands : (Site.name x).Stands m.program.span.file :=
    oneFile_of_parse hparse _ (Program.name_mem_sites hx)
  exact Ident.Stands.name hstands

end Context.Numbered

/-- A file that is read takes a number, under which its text is parsed. -/
private theorem Loader.load_cases (l : Loader) (file : Path) :
    (∃ e, l.load file = (.error e, l)) ∨
    (∃ e l', l.load file = (.error e, l') ∧ l'.files.length = l.files.length + 1) ∨
    ∃ text program l', l.load file = (.ok program, l') ∧ l'.files.length = l.files.length + 1 ∧
      parse text l.files.length = .ok program := by
  cases hread : l.read file with
  | error e => exact Or.inl ⟨_, by rw [load, hread]⟩
  | ok text =>
    have hlength : (l.files ++ [file]).length = l.files.length + 1 := by simp
    have hload : l.load file = ((parse text l.files.length).mapError .grammar,
      { l with files := l.files ++ [file] }) := by rw [load, hread]
    cases hparse : parse text l.files.length with
    | error e => exact Or.inr (Or.inl ⟨_, _, by rw [hload, hparse]; rfl, hlength⟩)
    | ok program => exact Or.inr (Or.inr ⟨text, program, _, by rw [hload, hparse]; rfl, hlength, hparse⟩)

namespace Compilation

open Context

/-- A module that is registered is parsed under the next number of the loader. -/
theorem numbered_register {c : Compilation} (h : c.context.Numbered c.loader.files.length)
    (key : String) (file : Path) :
    (c.register key file).2.context.Numbered (c.register key file).2.loader.files.length := by
  unfold register
  split
  · exact h
  · rcases c.loader.load_cases file with ⟨e, hload⟩ | ⟨e, l', hload, hlength⟩ |
      ⟨text, program, l', hload, hlength, hparse⟩
    · rw [hload]
      exact h
    · rw [hload]
      exact hlength ▸ h.grow
    · rw [hload]
      exact hlength ▸ h.addModule hparse key file

/-- The passes leave the modules numbered. -/
theorem follows_numbered : Follows fun c d =>
    c.context.Numbered c.loader.files.length → d.context.Numbered d.loader.files.length where
  refl _ := id
  trans h h' := h' ∘ h
  report _ _ _ h := h.congr rfl
  declare _ h := h.congr rfl
  regraph _ _ h := h.congr rfl
  register _ key file h := numbered_register h key file
  bind _ h := h.congr rfl
  setPhase _ key h := h.setPhase key .collected
  types _ _ hd h := h.congr hd.modules
  problem _ _ _ h := h.congr rfl
  advance _ key p h := h.setPhase key p

/-- In the beginning there are no modules. -/
private theorem numbered_new (l : Loader) :
    (new l).context.Numbered (new l).loader.files.length :=
  ⟨fun _ hm => absurd hm List.not_mem_nil, List.nodup_nil⟩

/-- Behind any checks the modules are numbered. -/
theorem numbered_checkAll (l : Loader) (entries : List Path) :
    (checkAll entries (new l)).context.Numbered (checkAll entries (new l)).loader.files.length :=
  follows_numbered.stages.checkAll _ (fun _ _ h => h.congr rfl) entries (numbered_new l)

end Compilation

end Sable
