import Sable.Proofs.Module.Script
import Sable.Proofs.Syntax.Sites

/-!
# The sites of a step

What a pass sees of a program are the steps of its script. Every site in a step that stands in the
script of a program, however deeply, is a site in the program.
-/

namespace Sable

/-- The sites in a place that stays in its scope. -/
def Stop.sites : Stop → List Site
  | .typeDecl d => d.sites
  | .declaring _ targets values span =>
    .node span :: (targets.flatMap VarBinder.sites ++ Expr.sitesAll values)
  | .declared targets values => targets.flatMap VarBinder.sites ++ Expr.sitesAll values
  | .assigning targets values span => .node span :: (Expr.sitesAll targets ++ Expr.sitesAll values)
  | .name x => [.name x]
  | .qualified x y => [.name x, .name y]

/-- The sites in the head of a function or a method. -/
def Head.sites (h : Head) : List Site :=
  h.receiver?.toList.flatMap Param.sites ++
    (.name h.name :: (h.params.flatMap Param.sites ++ h.ret.toList.flatMap TypeExpr.sites))

/-- The sites in a step, less those in the body of a function. -/
def Step.sites : Step → List Site
  | importing i => i.sites
  | stop x => x.sites
  | body h _ => h.sites

/-! ### Where a step stands -/

namespace Step

variable {y : Step} {ys zs : List Step}

@[simp] theorem occurs_nil : ¬ y.Occurs [] := by
  rintro (⟨⟨⟩⟩ | ⟨⟨⟩, -⟩)

@[simp] theorem occurs_append : y.Occurs (ys ++ zs) ↔ y.Occurs ys ∨ y.Occurs zs := by
  constructor
  · rintro (h | ⟨hbody, h⟩)
    · exact (List.mem_append.mp h).imp .here .here
    · exact (List.mem_append.mp hbody).imp (.inside · h) (.inside · h)
  · rintro (h | h)
    · exact h.mono (List.subset_append_left ..)
    · exact h.mono (List.subset_append_right ..)

theorem occurs_cons {z : Step} : y.Occurs (z :: zs) ↔ y.Occurs [z] ∨ y.Occurs zs :=
  @occurs_append y [z] zs

@[simp] theorem occurs_importing {i : Import} : y.Occurs [.importing i] ↔ y = .importing i := by
  constructor
  · rintro (h | ⟨hbody, -⟩)
    · exact List.mem_singleton.mp h
    · cases List.mem_singleton.mp hbody
  · rintro rfl
    exact .here (List.mem_singleton_self _)

@[simp] theorem occurs_stop {x : Stop} : y.Occurs [.stop x] ↔ y = .stop x := by
  constructor
  · rintro (h | ⟨hbody, -⟩)
    · exact List.mem_singleton.mp h
    · cases List.mem_singleton.mp hbody
  · rintro rfl
    exact .here (List.mem_singleton_self _)

@[simp] theorem occurs_body {h : Head} : y.Occurs [.body h zs] ↔ y = .body h zs ∨ y.Occurs zs := by
  constructor
  · rintro (h | ⟨hbody, h⟩)
    · exact Or.inl (List.mem_singleton.mp h)
    · obtain ⟨-, rfl⟩ := Step.body.inj (List.mem_singleton.mp hbody)
      exact Or.inr h
  · rintro (rfl | h)
    · exact .here (List.mem_singleton_self _)
    · exact .inside (List.mem_singleton_self _) h

end Step

/-! ### Sites of steps and of trees -/

section

variable {y : Step} {x : Site}

mutual

private theorem Expr.mem_sites_of_occurs (hx : x ∈ y.sites) :
    ∀ e : Expr, y.Occurs e.steps → x ∈ e.sites
  | .literal _ _, h => absurd h Step.occurs_nil
  | .ident name, h => by
    obtain rfl := Step.occurs_stop.mp h
    exact hx
  | .qualified module name span, h => by
    obtain rfl := Step.occurs_stop.mp h
    exact List.mem_cons_of_mem _ hx
  | .binary op left right _, h => by
    have := (Step.occurs_append.mp h).imp (Expr.mem_sites_of_occurs hx left)
      (Expr.mem_sites_of_occurs hx right)
    simp [Expr.sites, this]
  | .unary _ operand _, h => List.mem_cons_of_mem _ (Expr.mem_sites_of_occurs hx operand h)
  | .call callee args _, h => by
    have := (Step.occurs_append.mp h).imp (Expr.mem_sites_of_occurs hx callee)
      (Expr.mem_sitesAll_of_occurs hx args)
    simp [Expr.sites, this]
  | .field object _ _, h => by
    simp [Expr.sites, Expr.mem_sites_of_occurs hx object h]
  | .index object index _, h => by
    have := (Step.occurs_append.mp h).imp (Expr.mem_sites_of_occurs hx object)
      (Expr.mem_sites_of_occurs hx index)
    simp [Expr.sites, this]
  | .array elements _, h => List.mem_cons_of_mem _ (Expr.mem_sitesAll_of_occurs hx elements h)
  | .function f, h => (FunctionDef.mem_sites_of_occurs hx none f h).resolve_left nofun

private theorem Expr.mem_sitesAll_of_occurs (hx : x ∈ y.sites) :
    ∀ es : List Expr, y.Occurs (Expr.stepsAll es) → x ∈ Expr.sitesAll es
  | [], h => absurd h Step.occurs_nil
  | e :: es, h => List.mem_append.mpr <| (Step.occurs_append.mp h).imp
    (Expr.mem_sites_of_occurs hx e) (Expr.mem_sitesAll_of_occurs hx es)

private theorem FunctionDef.mem_sites_of_occurs (hx : x ∈ y.sites) (receiver? : Option Param) :
    ∀ f : FunctionDef, y.Occurs (f.steps receiver?) →
      x ∈ receiver?.toList.flatMap Param.sites ∨ x ∈ f.sites
  | .mk name params ret body _, h => by
    rcases Step.occurs_body.mp h with rfl | h
    · refine (List.mem_append.mp hx).imp_right fun hx => ?_
      refine List.mem_cons_of_mem _ ?_
      rw [← List.cons_append]
      exact List.mem_append_left _ hx
    · have := Block.mem_sites_of_occurs hx body h
      exact Or.inr (by simp [FunctionDef.sites, this])

private theorem Block.mem_sites_of_occurs (hx : x ∈ y.sites) :
    ∀ b : Block, y.Occurs b.steps → x ∈ b.sites
  | .mk stmts _, h => List.mem_cons_of_mem _ (Stmt.mem_sitesAll_of_occurs hx stmts h)

private theorem Conditional.mem_sites_of_occurs (hx : x ∈ y.sites) :
    ∀ cond : Conditional, y.Occurs cond.steps → x ∈ cond.sites
  | .mk cond body otherwise _, h => by
    have := (Step.occurs_append.mp h).imp
      (fun h => (Step.occurs_append.mp h).imp (Expr.mem_sites_of_occurs hx cond)
        (Block.mem_sites_of_occurs hx body))
      (Alternative.mem_sites_of_occurs hx otherwise)
    simpa [Conditional.sites, or_assoc] using Or.inr this

private theorem Alternative.mem_sites_of_occurs (hx : x ∈ y.sites) :
    ∀ a : Alternative, y.Occurs a.steps → x ∈ a.sites
  | .nothing, h => absurd h Step.occurs_nil
  | .block body, h => Block.mem_sites_of_occurs hx body h
  | .conditional next, h => Conditional.mem_sites_of_occurs hx next h

private theorem Stmt.mem_sites_of_occurs (hx : x ∈ y.sites) :
    ∀ stmt : Stmt, y.Occurs stmt.steps → x ∈ stmt.sites
  | .importing i, h => by
    obtain rfl := Step.occurs_importing.mp h
    exact hx
  | .function f, h => (FunctionDef.mem_sites_of_occurs hx none f h).resolve_left nofun
  | .method receiver f, h => by
    have := FunctionDef.mem_sites_of_occurs hx (some receiver) f h
    simpa [Stmt.sites] using this
  | .varDecl isConst targets values span, h => by
    rcases Step.occurs_cons.mp h with h | h
    · obtain rfl := Step.occurs_stop.mp h
      exact hx
    · refine List.mem_cons_of_mem _ ?_
      rcases Step.occurs_append.mp h with h | h
      · exact List.mem_append_right _ (Expr.mem_sitesAll_of_occurs hx values h)
      · obtain rfl := Step.occurs_stop.mp h
        exact hx
  | .typeDecl d, h => by
    obtain rfl := Step.occurs_stop.mp h
    exact hx
  | .assign targets values span, h => by
    rcases Step.occurs_cons.mp h with h | h
    · obtain rfl := Step.occurs_stop.mp h
      exact hx
    · exact List.mem_cons_of_mem _ <| List.mem_append.mpr <| (Step.occurs_append.mp h).imp
        (Expr.mem_sitesAll_of_occurs hx targets) (Expr.mem_sitesAll_of_occurs hx values)
  | .conditional cond, h => Conditional.mem_sites_of_occurs hx cond h
  | .ret none _, h => absurd h Step.occurs_nil
  | .ret (some e) _, h => List.mem_cons_of_mem _ (Expr.mem_sites_of_occurs hx e h)
  | .block b, h => Block.mem_sites_of_occurs hx b h
  | .expr e, h => Expr.mem_sites_of_occurs hx e h

private theorem Stmt.mem_sitesAll_of_occurs (hx : x ∈ y.sites) :
    ∀ stmts : List Stmt, y.Occurs (Stmt.stepsAll stmts) → x ∈ Stmt.sitesAll stmts
  | [], h => absurd h Step.occurs_nil
  | stmt :: stmts, h => List.mem_append.mpr <| (Step.occurs_append.mp h).imp
    (Stmt.mem_sites_of_occurs hx stmt) (Stmt.mem_sitesAll_of_occurs hx stmts)

end

end

/-- What a step in the script of a program shows are sites in the program. -/
theorem Step.Occurs.sites_subset {y : Step} {p : Program} (h : y.Occurs p.steps) :
    y.sites ⊆ p.sites :=
  fun _ hx => List.mem_cons_of_mem _ (Stmt.mem_sitesAll_of_occurs hx p.stmts h)

end Sable
