import Mathlib.Order.Basic
import Sable.Module.Traversal
import Sable.Proofs.Related
import Sable.Proofs.Syntax.Paired

/-!
# Walks in lockstep

Two walks over trees that differ in spans only visit the same places in the same order. If every
two visits in step, in scopes that belong together, leave states that are related as the states
before, so do the whole walks. Which scopes belong together may depend on the states, as some are
opened only on the way; but those that do go on to.

Modules that the walks turn to come with trees of their own, whose names stand in places that may
become related only on the way; so a traversal relates more places at its end than at its start.
-/

namespace Sable

variable {σ : Type}

/-- Two steps both yield results that belong together, or both yield none; the states are related. -/
def SameStep {α β : Type} (Q : α → β → Prop) (L : σ → σ → Prop) (r : Option α × σ)
    (r' : Option β × σ) : Prop :=
  Option.Rel Q r.1 r'.1 ∧ L r.2 r'.2

/-- Two states are related behind two others, and the same scopes go on to belong together. -/
structure Onward (K : σ → σ → ScopeId → ScopeId → Prop) (L : σ → σ → Prop) (c d c' d' : σ) :
    Prop where
  /-- The states are related. -/
  related : L c' d'
  /-- Scopes that belong together go on to. -/
  scopes : ∀ {s t}, K c d s t → K c' d' s t

theorem Onward.refl {K : σ → σ → ScopeId → ScopeId → Prop} {L : σ → σ → Prop} {c d : σ}
    (h : L c d) : Onward K L c d c d := ⟨h, id⟩

theorem Onward.trans {K : σ → σ → ScopeId → ScopeId → Prop} {L : σ → σ → Prop}
    {c d c' d' c'' d'' : σ} (h : Onward K L c d c' d') (h' : Onward K L c' d' c'' d'') :
    Onward K L c d c'' d'' := ⟨h'.related, fun hst => h'.scopes (h.scopes hst)⟩

namespace Visitor

/--
Two visits in step at places that differ in spans only leave related states; nothing is said
about imports.
-/
structure Accords (N T : Span → Span → Prop) (K : σ → σ → ScopeId → ScopeId → Prop)
    (L : σ → σ → Prop) (v w : Visitor σ) : Prop where
  /-- The scopes of the bodies of a function belong together. -/
  function : ∀ {s t c d name name' params params' ret ret'}, K c d s t → name.Alike T name' →
    List.Forall₂ (Param.Paired N T) params params' → Option.Rel (TypeExpr.Paired N T) ret ret' →
    L c d → SameStep (K (v.function s name params ret c).2 (w.function t name' params' ret' d).2)
      (Onward K L c d) (v.function s name params ret c) (w.function t name' params' ret' d)
  /-- The scopes of the bodies of a method belong together. -/
  method : ∀ {s t c d receiver receiver' name name' params params' ret ret'}, K c d s t →
    receiver.Paired N T receiver' → name.Alike T name' →
    List.Forall₂ (Param.Paired N T) params params' → Option.Rel (TypeExpr.Paired N T) ret ret' →
    L c d → SameStep
      (K (v.method s receiver name params ret c).2 (w.method t receiver' name' params' ret' d).2)
      (Onward K L c d) (v.method s receiver name params ret c)
      (w.method t receiver' name' params' ret' d)
  /-- Declared types keep the states related. -/
  typeDecl : ∀ {s t c d D E}, K c d s t → D.Paired N T E → L c d →
    Onward K L c d (v.typeDecl s D c) (w.typeDecl t E d)
  /-- What stands in front of the values of a declaration keeps the states related. -/
  declaring : ∀ {s t c d targets targets' values values' span span'} isConst, K c d s t →
    List.Forall₂ (VarBinder.Paired N T) targets targets' →
    List.Forall₂ (Expr.Paired N T) values values' → N span span' → L c d →
      Onward K L c d (v.declaring s isConst targets values span c)
        (w.declaring t isConst targets' values' span' d)
  /-- What stands behind the values of a declaration keeps the states related. -/
  declared : ∀ {s t c d targets targets' values values'}, K c d s t →
    List.Forall₂ (VarBinder.Paired N T) targets targets' →
    List.Forall₂ (Expr.Paired N T) values values' → L c d →
      Onward K L c d (v.declared s targets values c) (w.declared t targets' values' d)
  /-- Assignments keep the states related. -/
  assigning : ∀ {c d targets targets' values values' span span'},
    List.Forall₂ (Expr.Paired N T) targets targets' →
    List.Forall₂ (Expr.Paired N T) values values' → N span span' → L c d →
      Onward K L c d (v.assigning targets values span c) (w.assigning targets' values' span' d)
  /-- Names keep the states related. -/
  name : ∀ {s t c d name name'}, K c d s t → name.Alike T name' → L c d →
    Onward K L c d (v.name s name c) (w.name t name' d)
  /-- Qualified names keep the states related. -/
  qualified : ∀ {s t c d module module' name name'}, K c d s t → module.Alike T module' →
    name.Alike T name' → L c d →
      Onward K L c d (v.qualified s module name c) (w.qualified t module' name' d)

/-- Two visits in step leave related states, and imports in step turn to the same modules. -/
structure Mirrors (N T : Span → Span → Prop) (K : σ → σ → ScopeId → ScopeId → Prop)
    (L : σ → σ → Prop) (v w : Visitor σ) : Prop extends v.Accords N T K L w where
  /-- An import turns to the same module. -/
  importing : ∀ {s t c d i j}, K c d s t → i.Paired N T j → L c d →
    SameStep Eq (Onward K L c d) (v.importing s i c) (w.importing t j d)

variable {N T : Span → Span → Prop} {K : σ → σ → ScopeId → ScopeId → Prop} {L : σ → σ → Prop}
  {v w : Visitor σ} {turnTo : String → σ → σ} {s t : ScopeId}

section

variable (hv : v.Mirrors N T K L w)
  (hturn : ∀ key {c d}, L c d → Onward K L c d (turnTo key c) (turnTo key d))
include hv hturn

-- The assumptions are used somewhere in the recursion, though not in every theorem of it.
set_option linter.unusedSectionVars false

/-- Imports in step turn to the same module. -/
theorem walkImport_mirrors {i j : Import} (h : i.Paired N T j) {c d : σ} (hst : K c d s t)
    (hcd : L c d) :
    Onward K L c d (v.walkImport turnTo s i c) (w.walkImport turnTo t j d) := by
  obtain ⟨hkey, hstates⟩ := hv.importing hst h hcd
  simp only [walkImport]
  generalize v.importing s i c = r, w.importing t j d = r' at hkey hstates
  obtain ⟨key?, c'⟩ := r
  obtain ⟨key?', d'⟩ := r'
  obtain rfl : key? = key?' := eq_of_rel hkey
  cases key? with
  | none => exact hstates
  | some key => exact hstates.trans (hturn key hstates.related)

mutual

theorem walkExpr_mirrors :
    ∀ {e e' : Expr}, e.Paired N T e' → ∀ {s t : ScopeId} {c d : σ}, K c d s t → L c d →
      Onward K L c d (v.walkExpr turnTo s e c) (w.walkExpr turnTo t e' d)
  | .literal _ _, _, .literal _ _, _, _, _, _, _, hcd => .refl hcd
  | .ident _, _, .ident hname, _, _, _, _, hst, hcd => hv.name hst hname hcd
  | .qualified _ _ _, _, .qualified _ hmodule hname, _, _, _, _, hst, hcd =>
    hv.qualified hst hmodule hname hcd
  | .binary _ _ _ _, _, .binary _ _ hleft hright, _, _, _, _, hst, hcd => by
    have hl := walkExpr_mirrors hleft hst hcd
    exact hl.trans (walkExpr_mirrors hright (hl.scopes hst) hl.related)
  | .unary _ _ _, _, .unary _ _ hoperand, _, _, _, _, hst, hcd =>
    walkExpr_mirrors hoperand hst hcd
  | .call _ _ _, _, .call _ hcallee hargs, _, _, _, _, hst, hcd => by
    have hf := walkExpr_mirrors hcallee hst hcd
    exact hf.trans (walkExprs_mirrors hargs (hf.scopes hst) hf.related)
  | .field _ _ _, _, .field _ hobject _, _, _, _, _, hst, hcd => walkExpr_mirrors hobject hst hcd
  | .index _ _ _, _, .index _ hobject hindex, _, _, _, _, hst, hcd => by
    have ho := walkExpr_mirrors hobject hst hcd
    exact ho.trans (walkExpr_mirrors hindex (ho.scopes hst) ho.related)
  | .array _ _, _, .array _ helements, _, _, _, _, hst, hcd =>
    walkExprs_mirrors helements hst hcd
  | .function _, _, .function hf, _, _, _, _, hst, hcd => walkFunction_mirrors hf hst hcd
termination_by structural x => x

theorem walkExprs_mirrors :
    ∀ {es es' : List Expr}, List.Forall₂ (Expr.Paired N T) es es' → ∀ {s t : ScopeId} {c d : σ},
      K c d s t → L c d → Onward K L c d (v.walkExprs turnTo s es c) (w.walkExprs turnTo t es' d)
  | [], _, .nil, _, _, _, _, _, hcd => .refl hcd
  | _ :: _, _, .cons he hes, _, _, _, _, hst, hcd => by
    have hfirst := walkExpr_mirrors he hst hcd
    exact hfirst.trans (walkExprs_mirrors hes (hfirst.scopes hst) hfirst.related)
termination_by structural x => x

theorem walkFunction_mirrors :
    ∀ {f f' : FunctionDef}, f.Paired N T f' → ∀ {s t : ScopeId} {c d : σ}, K c d s t → L c d →
      Onward K L c d (v.walkFunction turnTo s f c) (w.walkFunction turnTo t f' d)
  | .mk name params ret body _, .mk name' params' ret' _ _,
      .mk _ hname hparams hret hbody, s, t, c, d, hst, hcd => by
    obtain ⟨hscope, hstates⟩ := hv.function hst hname hparams hret hcd
    simp only [walkFunction]
    generalize v.function s name params ret c = r, w.function t name' params' ret' d = r'
      at hscope hstates
    obtain ⟨inner?, c'⟩ := r
    obtain ⟨inner?', d'⟩ := r'
    cases hscope with
    | none => exact hstates
    | some hinner => exact hstates.trans (walkBlock_mirrors hbody hinner hstates.related)
termination_by structural x => x

theorem walkMethod_mirrors {receiver receiver' : Param}
    (hreceiver : receiver.Paired N T receiver') :
    ∀ {f f' : FunctionDef}, f.Paired N T f' → ∀ {s t : ScopeId} {c d : σ}, K c d s t → L c d →
      Onward K L c d (v.walkMethod turnTo s receiver f c) (w.walkMethod turnTo t receiver' f' d)
  | .mk name params ret body _, .mk name' params' ret' _ _,
      .mk _ hname hparams hret hbody, s, t, c, d, hst, hcd => by
    obtain ⟨hscope, hstates⟩ := hv.method hst hreceiver hname hparams hret hcd
    simp only [walkMethod]
    generalize v.method s receiver name params ret c = r,
      w.method t receiver' name' params' ret' d = r' at hscope hstates
    obtain ⟨inner?, c'⟩ := r
    obtain ⟨inner?', d'⟩ := r'
    cases hscope with
    | none => exact hstates
    | some hinner => exact hstates.trans (walkBlock_mirrors hbody hinner hstates.related)
termination_by structural x => x

theorem walkBlock_mirrors :
    ∀ {b b' : Block}, b.Paired N T b' → ∀ {s t : ScopeId} {c d : σ}, K c d s t → L c d →
      Onward K L c d (v.walkBlock turnTo s b c) (w.walkBlock turnTo t b' d)
  | .mk _ _, _, .mk _ hstmts, _, _, _, _, hst, hcd => walkStmts_mirrors hstmts hst hcd
termination_by structural x => x

theorem walkConditional_mirrors :
    ∀ {a a' : Conditional}, a.Paired N T a' → ∀ {s t : ScopeId} {c d : σ}, K c d s t → L c d →
      Onward K L c d (v.walkConditional turnTo s a c) (w.walkConditional turnTo t a' d)
  | .mk _ _ _ _, _, .mk _ hcond hbody hotherwise, _, _, _, _, hst, hcd => by
    have hc := walkExpr_mirrors hcond hst hcd
    have hb := hc.trans (walkBlock_mirrors hbody (hc.scopes hst) hc.related)
    exact hb.trans (walkAlternative_mirrors hotherwise (hb.scopes hst) hb.related)
termination_by structural x => x

theorem walkAlternative_mirrors :
    ∀ {a a' : Alternative}, a.Paired N T a' → ∀ {s t : ScopeId} {c d : σ}, K c d s t → L c d →
      Onward K L c d (v.walkAlternative turnTo s a c) (w.walkAlternative turnTo t a' d)
  | .nothing, _, .nothing, _, _, _, _, _, hcd => .refl hcd
  | .block _, _, .block hbody, _, _, _, _, hst, hcd => walkBlock_mirrors hbody hst hcd
  | .conditional _, _, .conditional hnext, _, _, _, _, hst, hcd =>
    walkConditional_mirrors hnext hst hcd
termination_by structural x => x

theorem walkStmt_mirrors :
    ∀ {a a' : Stmt}, a.Paired N T a' → ∀ {s t : ScopeId} {c d : σ}, K c d s t → L c d →
      Onward K L c d (v.walkStmt turnTo s a c) (w.walkStmt turnTo t a' d)
  | .importing _, _, .importing hi, _, _, _, _, hst, hcd =>
    walkImport_mirrors hv hturn hi hst hcd
  | .function _, _, .function hf, _, _, _, _, hst, hcd => walkFunction_mirrors hf hst hcd
  | .method _ _, _, .method hreceiver hf, _, _, _, _, hst, hcd =>
    walkMethod_mirrors hreceiver hf hst hcd
  | .varDecl _ _ _ _, _, .varDecl isConst hspan htargets hvalues, _, _, _, _, hst, hcd => by
    have hd := hv.declaring isConst hst htargets hvalues hspan hcd
    have hw := hd.trans (walkExprs_mirrors hvalues (hd.scopes hst) hd.related)
    exact hw.trans (hv.declared (hw.scopes hst) htargets hvalues hw.related)
  | .typeDecl _, _, .typeDecl hd, _, _, _, _, hst, hcd => hv.typeDecl hst hd hcd
  | .assign _ _ _, _, .assign hspan htargets hvalues, _, _, _, _, hst, hcd => by
    have ha := hv.assigning htargets hvalues hspan hcd
    have ht := ha.trans (walkExprs_mirrors htargets (ha.scopes hst) ha.related)
    exact ht.trans (walkExprs_mirrors hvalues (ht.scopes hst) ht.related)
  | .conditional _, _, .conditional ha, _, _, _, _, hst, hcd =>
    walkConditional_mirrors ha hst hcd
  | .ret none _, _, .ret _ .none, _, _, _, _, _, hcd => .refl hcd
  | .ret (some _) _, _, .ret _ (.some he), _, _, _, _, hst, hcd => walkExpr_mirrors he hst hcd
  | .block _, _, .block hb, _, _, _, _, hst, hcd => walkBlock_mirrors hb hst hcd
  | .expr _, _, .expr he, _, _, _, _, hst, hcd => walkExpr_mirrors he hst hcd
termination_by structural x => x

/-- Walks over statements that differ in spans only keep the states related. -/
theorem walkStmts_mirrors :
    ∀ {stmts stmts' : List Stmt}, List.Forall₂ (Stmt.Paired N T) stmts stmts' →
      ∀ {s t : ScopeId} {c d : σ}, K c d s t → L c d →
        Onward K L c d (v.walkStmts turnTo s stmts c) (w.walkStmts turnTo t stmts' d)
  | [], _, .nil, _, _, _, _, _, hcd => .refl hcd
  | _ :: _, _, .cons ha has, _, _, _, _, hst, hcd => by
    have hfirst := walkStmt_mirrors ha hst hcd
    exact hfirst.trans (walkStmts_mirrors has (hfirst.scopes hst) hfirst.related)
termination_by structural x => x

end

end

end Visitor

/-! ### Traversals -/

/-- The same module twice, with names in places that are all related. -/
structure Module.Alike (R : Span → Span → Prop) (m n : Module) : Prop where
  /-- The keys are equal. -/
  key : m.key = n.key
  /-- The files are equal. -/
  file : m.file = n.file
  /-- The outermost scopes are equal. -/
  root : m.root = n.root
  /-- Both have come equally far. -/
  phase : m.phase = n.phase
  /-- The programs are the same. -/
  program : ∃ T ≤ R, m.program.Paired Span.Free T n.program

theorem Module.Alike.mono {R S : Span → Span → Prop} {m n : Module} (h : m.Alike R n)
    (hRS : R ≤ S) : m.Alike S n := by
  obtain ⟨T, hT, hprogram⟩ := h.program
  exact ⟨h.key, h.file, h.root, h.phase, T, hT.trans hRS, hprogram⟩

/-- Two states are related at places among which some given ones are. -/
def After (L : (Span → Span → Prop) → σ → σ → Prop) (R : Span → Span → Prop) (c d : σ) : Prop :=
  ∃ S, R ≤ S ∧ L S c d

theorem After.of {L : (Span → Span → Prop) → σ → σ → Prop} {R : Span → Span → Prop} {c d : σ}
    (h : L R c d) : After L R c d := ⟨R, le_rfl, h⟩

/-- Scopes of the same number belong together, whatever the states are. -/
def SameScopes (_ _ : σ) : ScopeId → ScopeId → Prop := Eq

/-- A traversal treats related states alike. -/
structure Traversal.Mirrors (L : (Span → Span → Prop) → σ → σ → Prop) (t : Traversal σ) :
    Prop where
  /-- The same module is entered, if any. -/
  enter : ∀ {R c d} key, L R c d →
    SameStep (Module.Alike R) (L R) (t.enter key c) (t.enter key d)
  /-- Visits of the same module keep the states related. -/
  visitor : ∀ {R T m n c d}, L R c d → m.Alike R n → T ≤ R →
    (t.visitor m).Mirrors Span.Free T SameScopes (After L R) (t.visitor n)
  /-- The same module is left. -/
  leave : ∀ {R c d} key, L R c d → L R (t.leave key c) (t.leave key d)
  /-- The same module is given up. -/
  giveUp : ∀ {R c d} key, L R c d → L R (t.giveUp key c) (t.giveUp key d)

/-- Traversals from related states end in related states. -/
theorem Traversal.Mirrors.runWithin {L : (Span → Span → Prop) → σ → σ → Prop}
    {t : Traversal σ} (ht : t.Mirrors L) (n : Nat) (key : String) {R : Span → Span → Prop}
    {c d : σ} (h : L R c d) : After L R (t.runWithin n key c) (t.runWithin n key d) := by
  induction n generalizing key R c d with
  | zero => exact .of (ht.giveUp key h)
  | succ n ih =>
    obtain ⟨hentered, hstates⟩ := ht.enter key h
    simp only [Traversal.runWithin]
    generalize t.enter key c = r, t.enter key d = r' at hentered hstates
    obtain ⟨m?, c'⟩ := r
    obtain ⟨m?', d'⟩ := r'
    cases hentered with
    | none => exact .of hstates
    | @some m m' hm =>
      obtain ⟨T, hT, hprogram⟩ := hm.program
      have hturn : ∀ key {c d}, After L R c d →
          Onward SameScopes (After L R) c d (t.runWithin n key c) (t.runWithin n key d) := by
        rintro key c d ⟨S, hRS, hcd⟩
        obtain ⟨S', hSS', hcd'⟩ := ih key hcd
        exact ⟨⟨S', hRS.trans hSS', hcd'⟩, id⟩
      have hvisitor := ht.visitor hstates hm hT
      obtain ⟨S, hRS, hwalked⟩ := (Visitor.walkStmts_mirrors hvisitor hturn hprogram hm.root
        (.of hstates)).related
      exact ⟨S, hRS, ht.leave key hwalked⟩

end Sable
