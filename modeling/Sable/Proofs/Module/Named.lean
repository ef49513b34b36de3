import Mathlib.Data.List.Nodup
import Sable.Proofs.Module.Declarations

/-!
# Names along a walk

A walk over a module comes to the names that the program declares, in the order of the source, though
not to those in the bodies that it does not go into. So the declarations that it makes have some of
these names, each of them once. Where no name stands for two declarations, none that is refused is
the first one of its name.
-/

namespace Sable

/-- The names that a place declares which stays in its scope. -/
def Stop.names : Stop → List Ident
  | .typeDecl d => d.name :: d.fieldNames
  | .declaring _ targets _ _ => targets.map VarBinder.name
  | _ => []

/-- The names that the head of a function or a method declares. -/
def Head.names (h : Head) : List Ident := h.name :: h.argumentNames

/-- The names that are declared at the place of a visit. -/
def Visit.names : Visit → List Ident
  | .importing _ _ => []
  | .stop _ x => x.names
  | .head _ h _ => h.names

mutual

/-- The names that a step declares, with those in the body of a function. -/
def Step.names : Step → List Ident
  | .importing _ => []
  | .stop x => x.names
  | .body h inner => h.names ++ Step.namesAll inner

/-- The names that a script declares. -/
def Step.namesAll : List Step → List Ident
  | [] => []
  | y :: ys => y.names ++ Step.namesAll ys

end

@[simp] theorem Step.namesAll_append (ys zs : List Step) :
    Step.namesAll (ys ++ zs) = Step.namesAll ys ++ Step.namesAll zs := by
  induction ys with
  | nil => rfl
  | cons y ys ih => rw [List.cons_append, namesAll, ih, namesAll, List.append_assoc]

mutual

private theorem Expr.namesAll_steps :
    ∀ e : Expr, Step.namesAll e.steps = e.binders.map Binder.name
  | .literal _ _ => rfl
  | .ident _ => rfl
  | .qualified _ _ _ => rfl
  | .binary _ left right _ => by
    rw [Expr.steps, Step.namesAll_append, Expr.namesAll_steps left, Expr.namesAll_steps right,
      Expr.binders, List.map_append]
  | .unary _ operand _ => Expr.namesAll_steps operand
  | .call callee args _ => by
    rw [Expr.steps, Step.namesAll_append, Expr.namesAll_steps callee, Expr.namesAll_stepsAll args,
      Expr.binders, List.map_append]
  | .field object _ _ => Expr.namesAll_steps object
  | .index object index _ => by
    rw [Expr.steps, Step.namesAll_append, Expr.namesAll_steps object, Expr.namesAll_steps index,
      Expr.binders, List.map_append]
  | .array elements _ => Expr.namesAll_stepsAll elements
  | .function f => FunctionDef.namesAll_steps f none

private theorem Expr.namesAll_stepsAll :
    ∀ es : List Expr, Step.namesAll (Expr.stepsAll es) = (Expr.bindersAll es).map Binder.name
  | [] => rfl
  | e :: es => by
    rw [Expr.stepsAll, Step.namesAll_append, Expr.namesAll_steps e, Expr.namesAll_stepsAll es,
      Expr.bindersAll, List.map_append]

private theorem FunctionDef.namesAll_steps :
    ∀ (f : FunctionDef) (receiver? : Option Param),
      Step.namesAll (f.steps receiver?) = f.name :: (f.binders receiver?).map Binder.name
  | .mk name params ret body _, receiver? => by
    have hbody := Block.namesAll_steps body
    simp [FunctionDef.steps, Step.namesAll, Step.names, Head.names, Head.argumentNames, hbody,
      FunctionDef.binders, FunctionDef.name, Function.comp_def, Binder.name]

private theorem Block.namesAll_steps :
    ∀ b : Block, Step.namesAll b.steps = b.binders.map Binder.name
  | .mk stmts _ => Stmt.namesAll_stepsAll stmts

private theorem Conditional.namesAll_steps :
    ∀ cond : Conditional, Step.namesAll cond.steps = cond.binders.map Binder.name
  | .mk cond body otherwise _ => by
    rw [Conditional.steps, Step.namesAll_append, Step.namesAll_append, Expr.namesAll_steps cond,
      Block.namesAll_steps body, Alternative.namesAll_steps otherwise, Conditional.binders,
      List.map_append, List.map_append]

private theorem Alternative.namesAll_steps :
    ∀ a : Alternative, Step.namesAll a.steps = a.binders.map Binder.name
  | .nothing => rfl
  | .block body => Block.namesAll_steps body
  | .conditional next => Conditional.namesAll_steps next

private theorem Stmt.namesAll_steps :
    ∀ stmt : Stmt, Step.namesAll stmt.steps = stmt.binders.map Binder.name
  | .importing _ => rfl
  | .function f => FunctionDef.namesAll_steps f none
  | .method receiver f => FunctionDef.namesAll_steps f (some receiver)
  | .varDecl isConst targets values span => by
    have hvalues := Expr.namesAll_stepsAll values
    simp [Stmt.steps, Step.namesAll, Step.names, Stop.names, hvalues, Stmt.binders,
      Function.comp_def, Binder.name]
  | .typeDecl d => by
    simp [Stmt.steps, Step.namesAll, Step.names, Stop.names, Stmt.binders, Function.comp_def,
      Binder.name]
  | .assign targets values span => by
    have htargets := Expr.namesAll_stepsAll targets
    have hvalues := Expr.namesAll_stepsAll values
    simp [Stmt.steps, Step.namesAll, Step.names, Stop.names, htargets, hvalues, Stmt.binders]
  | .conditional cond => Conditional.namesAll_steps cond
  | .ret none _ => rfl
  | .ret (some e) _ => Expr.namesAll_steps e
  | .block b => Block.namesAll_steps b
  | .expr e => Expr.namesAll_steps e

private theorem Stmt.namesAll_stepsAll :
    ∀ stmts : List Stmt, Step.namesAll (Stmt.stepsAll stmts) = (Stmt.bindersAll stmts).map Binder.name
  | [] => rfl
  | stmt :: stmts => by
    rw [Stmt.stepsAll, Step.namesAll_append, Stmt.namesAll_steps stmt, Stmt.namesAll_stepsAll stmts,
      Stmt.bindersAll, List.map_append]

end

/-- The script of a program declares the names of the program, in order. -/
theorem Program.namesAll_steps (p : Program) : Step.namesAll p.steps = p.names :=
  Stmt.namesAll_stepsAll p.stmts

/-- The visits that spell a script come to names of it, in order. -/
theorem Spells.names_sublist {s : ScopeId} {ys : List Step} {L : List Visit} (h : Spells s ys L) :
    (L.flatMap Visit.names).Sublist (Step.namesAll ys) := by
  induction h with
  | nil => exact .slnil
  | importing _ ih => exact ih
  | stop _ ih => exact (List.Sublist.refl _).append ih
  | skip _ ih =>
    rw [List.flatMap_cons, Step.namesAll, Step.names]
    exact ((List.Sublist.refl _).trans (List.sublist_append_left ..)).append ih
  | body _ _ ihK ihL =>
    rw [List.flatMap_cons, List.flatMap_append, Step.namesAll, Step.names, ← List.append_assoc]
    exact ((List.Sublist.refl _).append ihK).append ihL

/-! ### Where the names stand -/

/-- A name that a place declares stands there. -/
theorem Stop.name_mem_sites {x : Stop} {name : Ident} (h : name ∈ x.names) :
    .name name ∈ x.sites := by
  cases x with
  | typeDecl d =>
    rcases List.mem_cons.mp h with rfl | h
    · simp [Stop.sites, TypeDecl.sites]
    · exact TypeDecl.name_mem_sites_of_field h
  | declaring isConst targets values span =>
    obtain ⟨target, htarget, rfl⟩ := List.mem_map.mp h
    refine List.mem_cons_of_mem _ (List.mem_append_left _ ?_)
    exact List.mem_flatMap.mpr ⟨target, htarget, List.mem_cons_self ..⟩
  | _ => cases h

/-- A name that the head of a function or a method declares stands there. -/
theorem Head.name_mem_sites_of_mem {h : Head} {name : Ident} (hname : name ∈ h.names) :
    .name name ∈ h.sites := by
  rcases List.mem_cons.mp hname with rfl | hname
  · exact h.name_mem_sites
  · exact name_mem_sites_of_argument hname

mutual

private theorem Step.exists_of_mem_names {name : Ident} :
    ∀ y : Step, name ∈ y.names → ∃ z : Step, z.Occurs [y] ∧ .name name ∈ z.sites
  | .importing _, h => nomatch h
  | .stop x, h => ⟨.stop x, Step.occurs_stop.mpr rfl, Stop.name_mem_sites h⟩
  | .body hd inner, h => by
    rcases List.mem_append.mp h with h | h
    · exact ⟨.body hd inner, Step.occurs_body.mpr (Or.inl rfl), Head.name_mem_sites_of_mem h⟩
    · obtain ⟨z, hocc, hz⟩ := Step.exists_of_mem_namesAll inner h
      exact ⟨z, Step.occurs_body.mpr (Or.inr hocc), hz⟩

/-- A name that a script declares stands in one of its steps. -/
theorem Step.exists_of_mem_namesAll {name : Ident} :
    ∀ ys : List Step, name ∈ Step.namesAll ys → ∃ z : Step, z.Occurs ys ∧ .name name ∈ z.sites
  | [], h => nomatch h
  | y :: ys, h => by
    rcases List.mem_append.mp h with h | h
    · obtain ⟨z, hocc, hz⟩ := Step.exists_of_mem_names y h
      exact ⟨z, Step.occurs_cons.mpr (Or.inl hocc), hz⟩
    · obtain ⟨z, hocc, hz⟩ := Step.exists_of_mem_namesAll ys h
      exact ⟨z, Step.occurs_cons.mpr (Or.inr hocc), hz⟩

end

/-- A name that a program declares stands in it. -/
theorem Program.name_mem_sites {p : Program} {name : Ident} (h : name ∈ p.names) :
    .name name ∈ p.sites := by
  obtain ⟨z, hocc, hz⟩ := Step.exists_of_mem_namesAll p.steps (p.namesAll_steps.symm ▸ h)
  exact hocc.sites_subset hz

/-! ### The names of declarations -/

namespace Declaration

variable {F : ScopeForest} {D E : List Declaration} {s : ScopeId}

/-- What is declared with names inside it has these names. -/
private theorem names_withNames (d : Declaration) (kind : SymbolKind) (names : List Ident) :
    ((d.withNames F D kind names).map name).Sublist (d.name :: names) := by
  rw [withNames, List.map_cons]
  refine List.Sublist.cons_cons _ ?_
  cases d.inner? F D with
  | none => exact List.nil_sublist _
  | some t =>
    have hnames : (names.map fun name => (⟨t, kind, name⟩ : Declaration)).map name = names :=
      (List.map_map ..).trans (List.map_id names)
    rw [Option.elim_some, hnames]

end Declaration

namespace Visit

variable {F : ScopeForest} {D E : List Declaration} {L : List Visit}

/-- What a place that stays in its scope declares has names of the place. -/
theorem names_stop (F : ScopeForest) (D : List Declaration) (s : ScopeId) (x : Stop) :
    ((x.declarations F D s).map Declaration.name).Sublist x.names := by
  cases x with
  | typeDecl d => exact Declaration.names_withNames ..
  | declaring isConst targets values span =>
    rw [Stop.declarations, List.map_map]
    exact List.Sublist.refl _
  | _ => exact List.nil_sublist _

/-- What the head of a function or a method declares has names of the head. -/
theorem names_head (F : ScopeForest) (D : List Declaration) (s : ScopeId) (h : Head) :
    ((h.declarations F D s).map Declaration.name).Sublist h.names := by
  have hname : ∀ d ∈ h.declaration? F D s, d.name = h.name := by
    intro d hd
    unfold Head.declaration? at hd
    split at hd
    · cases hd
      rfl
    · obtain ⟨t, -, rfl⟩ := Option.map_eq_some_iff.mp hd
      rfl
  rw [Head.declarations]
  cases hd : h.declaration? F D s with
  | none => exact List.nil_sublist _
  | some d =>
    rw [Head.names, ← hname d hd]
    exact Declaration.names_withNames ..

/-- The declarations that visits lead to have names that the visits come to. -/
theorem Leads.names_sublist (h : Leads F D L E) :
    ∃ K, E = D ++ K ∧ (K.map Declaration.name).Sublist (L.flatMap Visit.names) := by
  induction h with
  | nil => exact ⟨[], by simp⟩
  | importing _ ih => exact ih
  | @stop D E s x L _ ih =>
    obtain ⟨K, rfl, hK⟩ := ih
    refine ⟨x.declarations F D s ++ K, List.append_assoc .., ?_⟩
    rw [List.map_append, List.flatMap_cons]
    exact (names_stop F D s x).append hK
  | @head D E s hd L _ ih =>
    obtain ⟨K, rfl, hK⟩ := ih
    refine ⟨hd.declarations F D s ++ K, List.append_assoc .., ?_⟩
    rw [List.map_append, List.flatMap_cons]
    exact (names_head F D s hd).append hK

/-- The declarations of a walk have names that the program of the module declares. -/
theorem Leads.names_of_spells {m : Module} (h : Leads F [] L E)
    (hL : Spells m.root m.program.steps L) :
    (E.map Declaration.name).Sublist m.program.names := by
  obtain ⟨K, rfl, hK⟩ := h.names_sublist
  exact hK.trans (m.program.namesAll_steps ▸ hL.names_sublist)

end Visit

namespace Declaration

/-- Where each name stands for one declaration, the first of a name in a scope is not refused. -/
theorem first?_ne_of_refused {D E : List Declaration} (h : ((D ++ E).map name).Nodup) {x : Ident}
    (hx : x ∈ refusedFrom D E) {s : ScopeId} {d : Declaration}
    (hd : first? (D ++ E) s x.name = some d) : d.name ≠ x := by
  induction E generalizing D with
  | nil => cases hx
  | cons e E ih =>
    rw [refusedFrom, List.mem_append] at hx
    rcases hx with hx | hx
    · obtain ⟨hrefused, hname⟩ : e.refused D = true ∧ x = e.name := by
        split at hx
        · next hrefused => exact ⟨hrefused, List.mem_singleton.mp hx⟩
        · cases hx
      subst hname
      -- The declaration behind which this one is refused is found first.
      rintro heq
      have hmem : d ∈ D ++ e :: E := (of_first? hd).1
      have hsame : d = e := List.inj_on_of_nodup_map h hmem (by simp) heq
      subst hsame
      obtain ⟨d', hd'⟩ := Option.isSome_iff_exists.mp hrefused
      obtain ⟨hmem', -, -⟩ := of_first? hd'
      obtain ⟨-, rfl, -⟩ := of_first? hd
      rw [first?_append, hd', Option.some_or, Option.some.injEq] at hd
      subst hd
      rw [List.map_append, List.nodup_append] at h
      exact h.2.2 _ (List.mem_map_of_mem hmem') _ (List.mem_map_of_mem (List.mem_cons_self ..)) rfl
    · refine ih ?_ hx ?_
      · rwa [List.append_assoc, List.singleton_append]
      · rwa [List.append_assoc, List.singleton_append]

/-- The refused ones are among the declarations. -/
theorem refusedFrom_sublist (D E : List Declaration) :
    (refusedFrom D E).Sublist (E.map name) := by
  induction E generalizing D with
  | nil => exact List.Sublist.refl _
  | cons d E ih =>
    rw [refusedFrom, List.map_cons]
    split
    · exact (ih _).cons_cons d.name
    · exact (ih _).cons d.name

end Declaration

end Sable
