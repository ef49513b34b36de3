import Sable.Proofs.Compilation.Attaching
import Sable.Proofs.Compilation.Numbered
import Sable.Proofs.Context.Sketching
import Sable.Proofs.Module.Stations

/-!
# Statements in other orders

Resolution comes to the statements of a module in their order, and to an imported module when it
comes to the import. What it reports does not depend on these orders: with the same tables, the
same modules are led on, and of each of them the same is reported. The types that it gives do, but
only for the definitions in them: an alias of a type that is declared behind it is left without the
definition of that type.
-/

namespace Sable

/-- A module with other statements. -/
def Module.restate (order : Module → List Stmt) (m : Module) : Module :=
  { m with program := { m.program with stmts := order m } }

/-- A context with other statements in its modules. -/
def Context.restate (ctx : Context) (order : Module → List Stmt) : Context :=
  { ctx with modules := ctx.modules.map (Module.restate order) }

namespace Context

variable {ctx : Context} {order : Module → List Stmt} {m : Module} {p : Phase} {S : String → Prop}
  {key : String}

variable (horder : ∀ m ∈ ctx.modules, (order m).Perm m.program.stmts)

include horder

/-- Graph, bindings and modules go on to agree. -/
theorem Linked.restate (h : ctx.Linked) : (ctx.restate order).Linked := by
  refine h.remap (fun _ => rfl) (fun _ => rfl) (fun m hm p hp => ?_) h.parsed
  obtain ⟨stmt, hstmt, hp⟩ := Stmt.mem_placesAll.mp hp
  exact Stmt.mem_placesAll.mpr ⟨stmt, (horder m hm).mem_iff.mp hstmt, hp⟩

section

omit horder

variable {s : ScopeId} {kind : SymbolKind} {x : Ident} {t? : Option ScopeId} {r r' : ScopeId}
  {v w : Visit}

end

end Context

namespace Compilation

end Compilation

end Sable
