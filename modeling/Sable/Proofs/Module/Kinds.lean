import Sable.Proofs.Module.Named
import Sable.Proofs.Syntax.Distinct

/-!
# Kinds of declared names

A program says of every name that it declares what kind of thing the name stands for. No two names
stand in one place, so the place of a name tells its kind. A variable may do without a written type
if it has an initial value; its type is inferred from the value then.
-/

namespace Sable

/-! ### Kinds along a script -/

/-- The names that a place declares which stays in its scope, with their kinds. -/
def Stop.kinds : Stop → List (SymbolKind × Ident)
  | .typeDecl d => (.type, d.name) :: d.fieldNames.map (.field, ·)
  | .declaring isConst targets _ _ =>
    targets.map fun b => (if isConst then .const else .var, b.name)
  | _ => []

/-- The names that the head of a function or a method declares, with their kinds. -/
def Head.kinds (h : Head) : List (SymbolKind × Ident) :=
  (if h.receiver?.isSome then .method else .func, h.name) :: h.argumentNames.map (.var, ·)

mutual

/-- The names that a step declares, with their kinds. -/
def Step.kinds : Step → List (SymbolKind × Ident)
  | .importing _ => []
  | .stop x => x.kinds
  | .body h inner => h.kinds ++ Step.kindsAll inner

/-- The names that a script declares, with their kinds. -/
def Step.kindsAll : List Step → List (SymbolKind × Ident)
  | [] => []
  | y :: ys => y.kinds ++ Step.kindsAll ys

end

/-- The names that a program declares, with their kinds. -/
def Program.kinds (p : Program) : List (SymbolKind × Ident) := Step.kindsAll p.steps

theorem Stop.map_kinds (x : Stop) : x.kinds.map Prod.snd = x.names := by
  cases x <;> simp [kinds, names, Function.comp_def]

theorem Head.map_kinds (h : Head) : h.kinds.map Prod.snd = h.names := by
  simp [kinds, names, Function.comp_def]

mutual

private theorem Step.map_kinds : ∀ y : Step, y.kinds.map Prod.snd = y.names
  | .importing _ => rfl
  | .stop x => x.map_kinds
  | .body h inner => by
    rw [Step.kinds, List.map_append, h.map_kinds, Step.map_kindsAll inner, Step.names]

private theorem Step.map_kindsAll :
    ∀ ys : List Step, (Step.kindsAll ys).map Prod.snd = Step.namesAll ys
  | [] => rfl
  | y :: ys => by
    rw [Step.kindsAll, List.map_append, Step.map_kinds y, Step.map_kindsAll ys, Step.namesAll]

end

/-- The names of a program with kinds are the names of the program. -/
theorem Program.map_kinds (p : Program) : p.kinds.map Prod.snd = p.names :=
  (Step.map_kindsAll p.steps).trans p.namesAll_steps

private theorem Step.kinds_subset_of_mem {y : Step} {ys : List Step} (h : y ∈ ys) :
    y.kinds ⊆ Step.kindsAll ys := by
  induction ys with
  | nil => cases h
  | cons z ys ih =>
    rw [kindsAll]
    rcases List.mem_cons.mp h with rfl | h
    · exact List.subset_append_left ..
    · exact List.subset_append_of_subset_right _ (ih h)

/-- A step declares names of every script that it stands in. -/
theorem Step.Occurs.kinds_subset {y : Step} {ys : List Step} (h : y.Occurs ys) :
    y.kinds ⊆ Step.kindsAll ys := by
  induction h with
  | here h => exact Step.kinds_subset_of_mem h
  | inside hbody _ ih =>
    have houter := Step.kinds_subset_of_mem hbody
    rw [Step.kinds] at houter
    exact List.Subset.trans ih (List.Subset.trans (List.subset_append_right ..) houter)

/-- It declares names of the script. -/
theorem Step.Occurs.names_subset {y : Step} {ys : List Step} (h : y.Occurs ys) :
    y.names ⊆ Step.namesAll ys := by
  rw [← Step.map_kinds y, ← Step.map_kindsAll ys]
  exact List.map_subset _ h.kinds_subset

section

variable {ys : List Step} (hnodup : (Step.namesAll ys).Nodup) {name : Ident}
include hnodup

/-- Where no name is declared twice, a step that shares a name with a top one stands in that one. -/
private theorem Step.Occurs.of_shared {y z : Step} (hy : y ∈ ys) (hz : z.Occurs ys)
    (hname : name ∈ y.names) (hshared : name ∈ z.names) : z.Occurs [y] := by
  obtain ⟨front, back, rfl⟩ := List.append_of_mem hy
  rw [Step.namesAll_append, Step.namesAll, List.nodup_append, List.nodup_append] at hnodup
  obtain ⟨-, ⟨-, -, hback⟩, hfront⟩ := hnodup
  rw [Step.occurs_append, Step.occurs_cons] at hz
  rcases hz with hz | hz | hz
  · exact absurd rfl (hfront _ (hz.names_subset hshared) _ (List.mem_append_left _ hname))
  · exact hz
  · exact absurd rfl (hback _ hname _ (hz.names_subset hshared))

/-- No two places share a name. -/
theorem Step.Occurs.eq_of_mem_names {x x' : Stop} (hx : (Step.stop x).Occurs ys)
    (hx' : (Step.stop x').Occurs ys) (hname : name ∈ x.names) (hname' : name ∈ x'.names) :
    x' = x := by
  induction hx with
  | here hmem => exact Step.stop.inj (Step.occurs_stop.mp (hx'.of_shared hnodup hmem hname hname'))
  | @inside ys zs hd hbody hinner ih =>
    have hmem : name ∈ (Step.body hd zs).names :=
      List.mem_append_right _ (hinner.names_subset hname)
    have hocc := (Step.occurs_body.mp (hx'.of_shared hnodup hbody hmem hname')).resolve_left nofun
    obtain ⟨front, back, rfl⟩ := List.append_of_mem hbody
    rw [Step.namesAll_append, Step.namesAll, Step.names, List.nodup_append, List.nodup_append,
      List.nodup_append] at hnodup
    exact ih hnodup.2.1.1.2.1 hocc

end

/-- The place of a name tells the name and its kind. -/
theorem Program.eq_of_span {text : String} {n : Nat} {p : Program} (hparse : parse text n = .ok p)
    {x y : SymbolKind × Ident} (hx : x ∈ p.kinds) (hy : y ∈ p.kinds)
    (hspan : x.2.span = y.2.span) : x = y := by
  have hnodup : (p.kinds.map fun x => x.2.span).Nodup := by
    have hspans := congrArg (List.map Ident.span) p.map_kinds
    rw [List.map_map, Program.names, List.map_map] at hspans
    exact hspans ▸ (spans_of_parse hparse).1
  exact List.inj_on_of_nodup_map hnodup hx hy hspan

/-! ### Inferred types -/

/-- A script that comes to the end of a declaration of variables has come to its front. -/
theorem Step.Paired.occurs_declaring {ys : List Step} (h : Step.Paired ys)
    {targets : List VarBinder} {values : List Expr}
    (hocc : (Step.stop (.declared targets values)).Occurs ys) :
    ∃ isConst span, (Step.stop (.declaring isConst targets values span)).Occurs ys := by
  induction h with
  | nil => exact absurd hocc Step.occurs_nil
  | append _ _ ihy ihz =>
    rcases Step.occurs_append.mp hocc with hocc | hocc
    · obtain ⟨isConst, span, hfront⟩ := ihy hocc
      exact ⟨isConst, span, Step.occurs_append.mpr (Or.inl hfront)⟩
    · obtain ⟨isConst, span, hfront⟩ := ihz hocc
      exact ⟨isConst, span, Step.occurs_append.mpr (Or.inr hfront)⟩
  | importing i => exact nomatch Step.occurs_importing.mp hocc
  | stop hx =>
    obtain ⟨rfl⟩ := Step.stop.inj (Step.occurs_stop.mp hocc)
    exact absurd rfl (hx targets values)
  | body hd _ ih =>
    obtain ⟨isConst, span, hfront⟩ := ih ((Step.occurs_body.mp hocc).resolve_left nofun)
    exact ⟨isConst, span, Step.occurs_body.mpr (Or.inr hfront)⟩
  | declares isConst targets' values' span _ ih =>
    rw [Step.occurs_cons, Step.occurs_append] at hocc
    rcases hocc with hocc | hocc | hocc
    · exact nomatch Step.stop.inj (Step.occurs_stop.mp hocc)
    · obtain ⟨isConst', span', hfront⟩ := ih hocc
      exact ⟨isConst', span',
        Step.occurs_cons.mpr (Or.inr (Step.occurs_append.mpr (Or.inl hfront)))⟩
    · obtain ⟨rfl, rfl⟩ := Stop.declared.inj (Step.stop.inj (Step.occurs_stop.mp hocc))
      exact ⟨isConst, span, Step.occurs_cons.mpr (Or.inl (Step.occurs_stop.mpr rfl))⟩

/--
A program declares a variable or a constant with an initial value, and writes no type behind its
name.
-/
def Program.Infers (p : Program) (kind : SymbolKind) (name : Ident) : Prop :=
  ∃ isConst targets values span,
    (Step.stop (.declaring isConst targets values span)).Occurs p.steps ∧
    kind = (if isConst then .const else .var) ∧
    ∃ target value, (target, value) ∈ targets.zip values ∧ target.name = name ∧ target.ty? = none

/-- Such a name is one of a variable or a constant. -/
theorem Program.Infers.kind {p : Program} {kind : SymbolKind} {name : Ident}
    (h : p.Infers kind name) : kind = .var ∨ kind = .const := by
  obtain ⟨isConst, -, -, -, -, rfl, -⟩ := h
  cases isConst
  · exact Or.inl rfl
  · exact Or.inr rfl

/--
What stands in the place of a variable without a written type, whose initial value is come to, is
that variable.
-/
theorem Program.infers_of_declared {text : String} {n : Nat} {p : Program}
    (hparse : parse text n = .ok p) {targets : List VarBinder} {values : List Expr}
    (hocc : (Step.stop (.declared targets values)).Occurs p.steps)
    {target : VarBinder} {value : Expr} (htarget : (target, value) ∈ targets.zip values)
    (hty : target.ty? = none) {x : SymbolKind × Ident} (hx : x ∈ p.kinds)
    (hspan : x.2.span = target.name.span) : p.Infers x.1 x.2 := by
  obtain ⟨isConst, span, hfront⟩ := p.paired_steps.occurs_declaring hocc
  have hmem : (if isConst then .const else .var, target.name) ∈ p.kinds :=
    hfront.kinds_subset (List.mem_map_of_mem (List.of_mem_zip htarget).1)
  obtain rfl := p.eq_of_span hparse hx hmem hspan
  exact ⟨isConst, targets, values, span, hfront, rfl, target, value, htarget, rfl, hty⟩

end Sable
