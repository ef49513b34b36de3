import Sable.Proofs.Context.Bypassing
import Sable.Proofs.Scope.Alike

/-!
# What is read of a module

Other modules see the outermost scope of a module through an alias. Behind resolution the types that
it declares are settled, and behind type checking all its names are: whatever is done from then on,
the same is read of it.
-/

namespace Sable

/-- The kinds of names whose types are settled once a module has come to a phase. -/
def Phase.Settles : Phase → SymbolKind → Prop
  | .resolved, kind => kind.isType = true
  | .typechecked, _ => True
  | _, _ => False

namespace Symbol.Reads

variable {looked looked' : SymbolKind → Prop} {x y z : Symbol}

theorem refl (x : Symbol) : x.Reads looked x := ⟨rfl, fun _ => rfl⟩

theorem trans (h : x.Reads looked y) (h' : y.Reads looked z) : x.Reads looked z :=
  ⟨h.kind.trans h'.kind, fun hx => (h.ty? hx).trans (h'.ty? (h.kind ▸ hx))⟩

theorem symm (h : x.Reads looked y) : y.Reads looked x :=
  ⟨h.kind.symm, fun hy => (h.ty? (h.kind ▸ hy)).symm⟩

theorem mono (h : x.Reads looked y) (hlooked : ∀ k, looked' k → looked k) : x.Reads looked' y :=
  ⟨h.kind, fun hx => h.ty? (hlooked _ hx)⟩

end Symbol.Reads

namespace ScopeForest

/-- Two scopes declare the same names, whose types are equal as far as they are looked at. -/
def ReadsAs (looked : SymbolKind → Prop) (F : ScopeForest) (s : ScopeId) (G : ScopeForest)
    (t : ScopeId) : Prop :=
  ∀ name, Option.Rel (Symbol.Reads looked) (F.symbol? s name) (G.symbol? t name)

variable {looked looked' : SymbolKind → Prop} {F G H : ScopeForest} {s t u : ScopeId}

namespace ReadsAs

/-- The same names are read where they have not changed. -/
theorem of_symbols (h : G.symbols t = F.symbols s) : F.ReadsAs looked s G t := fun name => by
  rw [symbol?_eq_find?, symbol?_eq_find?, h]
  cases (F.symbols s).find? fun x => x.name == name with
  | none => exact .none
  | some x => exact .some (.refl x)

theorem refl (looked : SymbolKind → Prop) (F : ScopeForest) (s : ScopeId) :
    F.ReadsAs looked s F s := of_symbols rfl

theorem trans (h : F.ReadsAs looked s G t) (h' : G.ReadsAs looked t H u) :
    F.ReadsAs looked s H u := fun name => by
  have hfirst := h name
  have hsecond := h' name
  generalize F.symbol? s name = x, G.symbol? t name = y, H.symbol? u name = z at hfirst hsecond
  cases hfirst with
  | none => cases hsecond; exact .none
  | some hxy => cases hsecond with | some hyz => exact .some (hxy.trans hyz)

theorem symm (h : F.ReadsAs looked s G t) : G.ReadsAs looked t F s := fun name => by
  have hname := h name
  generalize F.symbol? s name = x, G.symbol? t name = y at hname
  cases hname with
  | none => exact .none
  | some hxy => exact .some hxy.symm

theorem mono (h : F.ReadsAs looked s G t) (hlooked : ∀ k, looked' k → looked k) :
    F.ReadsAs looked' s G t := fun name => rel_imp (h name) fun hxy => hxy.mono hlooked

end ReadsAs

end ScopeForest

namespace Context

/-- What a phase settles of the module that has come to it goes on to be read. -/
def KeepsReads (c d : Context) : Prop :=
  ∀ {m}, c.Knows m → ∀ {p : Phase}, Phase.resolved ≤ p → p ≤ c.phase m.key →
    c.scopes.ReadsAs p.Settles m.root d.scopes m.root

end Context

end Sable
