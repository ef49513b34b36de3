import Sable.Diagnostic
import Sable.Proofs.Module.Projection
import Sable.Proofs.Module.Walk

/-!
# Charted walks

A charted traversal does what the traversal does and records the route of every walk: the bodies
that it goes into, each with the scope that it walks it in, and the names that it meets. Walks of
other modules that an import turns to have routes of their own, so a route depends on what its
own walk finds only. If a walk finds the scope of each body where a table says it is, its route is
the one that can be read off the table.
-/

namespace Sable

/-- What the walk over a module comes past. -/
inductive Landmark
  /--
  The body of a function in a scope, which is walked in a scope of its own; if there is a
  receiver, that of a method.
  -/
  | body (s : ScopeId) (receiver? : Option Param) (name : Ident) (inner : ScopeId)
  /-- A name that is used in a scope. -/
  | name (s : ScopeId) (name : Ident)

/-- The finished walk of a pass over the module under a key. -/
structure Tour where
  /-- The pass. -/
  pass : Pass
  /-- The key of the module. -/
  key : String
  /-- What the walk came past, in order. -/
  route : List Landmark

/-- A state with the routes of the walks on the way to it. -/
structure Charted (σ : Type) where
  /-- The state. -/
  state : σ
  /-- What the walk that was opened last has come past, in order. -/
  route : List Landmark
  /-- The routes of the walks around it, the last one first. -/
  outer : List (List Landmark)
  /-- The finished walks, in order. -/
  tours : List Tour

namespace Charted

variable {σ τ : Type}

/-- A state without any walk. -/
def start (c : σ) : Charted σ := ⟨c, [], [], []⟩

/-- Another state with the same walks. -/
def put (c : Charted σ) (d : τ) : Charted τ := ⟨d, c.route, c.outer, c.tours⟩

/-- The walk that was opened last comes past more. -/
def note (c : Charted σ) (xs : List Landmark) : Charted σ := { c with route := c.route ++ xs }

@[simp] theorem note_nil (c : Charted σ) : c.note [] = c := by simp [note]

/-- A walk is opened. -/
def opening (c : Charted σ) : Charted σ := { c with route := [], outer := c.route :: c.outer }

/-- The walk that was opened last is closed. -/
def closing (c : Charted σ) (pass : Pass) (key : String) : Charted σ :=
  { c with
    route := c.outer.headD []
    outer := c.outer.tail
    tours := c.tours ++ [⟨pass, key, c.route⟩] }

/-- What a visit may do to the walks: the one that was opened last comes past more. -/
structure Onward (c d : Charted σ) : Prop where
  /-- What the walk has come past stays. -/
  route : c.route <+: d.route
  /-- The walks around it stay where they are. -/
  outer : d.outer = c.outer

theorem Onward.refl (c : Charted σ) : c.Onward c := ⟨List.prefix_rfl, rfl⟩

theorem Onward.trans {c d e : Charted σ} (h : c.Onward d) (h' : d.Onward e) : c.Onward e :=
  ⟨h.route.trans h'.route, h'.outer.trans h.outer⟩

end Charted

variable {σ : Type}

/-- The same visits on states with routes, which record the bodies and names among them. -/
def Visitor.charted (v : Visitor σ) : Visitor (Charted σ) where
  importing s i c := (v.importing s i c.state).map id c.put
  function s name params ret c :=
    let r := v.function s name params ret c.state
    (r.1, (c.put r.2).note (r.1.toList.map (.body s none name)))
  method s receiver name params ret c :=
    let r := v.method s receiver name params ret c.state
    (r.1, (c.put r.2).note (r.1.toList.map (.body s (some receiver) name)))
  typeDecl s d c := c.put (v.typeDecl s d c.state)
  declaring s isConst targets values span c :=
    c.put (v.declaring s isConst targets values span c.state)
  declared s targets values c := c.put (v.declared s targets values c.state)
  assigning targets values span c := c.put (v.assigning targets values span c.state)
  name s name c := (c.put (v.name s name c.state)).note [.name s name]
  qualified s module name c := c.put (v.qualified s module name c.state)

/-- The same traversal on states with routes, recorded as a pass. -/
def Traversal.charted (pass : Pass) (t : Traversal σ) : Traversal (Charted σ) where
  enter key c :=
    match t.enter key c.state with
    | (none, d) => (none, c.put d)
    | (some m, d) => (some m, (c.put d).opening)
  visitor m := (t.visitor m).charted
  leave key c := (c.put (t.leave key c.state)).closing pass key
  giveUp key c := c.put (t.giveUp key c.state)

private theorem Visitor.charted_projects (v : Visitor σ) : v.charted.Projects Charted.state v := by
  constructor <;> intros <;> rfl

/-- Recording routes changes nothing. -/
theorem Traversal.charted_projects (pass : Pass) (t : Traversal σ) :
    (t.charted pass).Projects Charted.state t where
  enter key c := by
    simp only [charted]
    rcases t.enter key c.state with ⟨_ | m, d⟩ <;> rfl
  visitor m := (t.visitor m).charted_projects
  leave _ _ := rfl
  giveUp _ _ := rfl

/-! ### What a charted walk keeps -/

namespace Visitor

variable {v : Visitor σ} {turnTo : String → Charted σ → Charted σ} {P : Place → Prop}
  {Q : ScopeId → Import → Prop} {At : ScopeId → σ → Prop} {R : Charted σ → Charted σ → Prop}

/-- A visitor finds the scope of the body of a function or, with a receiver, of a method. -/
def Finds (v : Visitor σ) (s : ScopeId) (receiver? : Option Param) (name : Ident)
    (inner : ScopeId) (c d : σ) : Prop :=
  ∃ params ret, (match receiver? with
    | none => v.function s name params ret c
    | some receiver => v.method s receiver name params ret c) = (some inner, d)

/--
A relation between charted states is kept by charted visits if it is kept when the state changes
as visits may change it, and when the walk comes past a body that is found or past a name.
-/
theorem Visits.charted {S : σ → σ → Prop} (h : v.Visits P Q At S)
    (hput : ∀ {s c d}, At s c.state → S c.state d → R c (c.put d))
    (hbody : ∀ {s c d} receiver? name inner, At s c.state → S c.state d →
      v.Finds s receiver? name inner c.state d →
      R c ((c.put d).note [.body s receiver? name inner]))
    (hname : ∀ {s c} name, At s c.state → S c.state (v.name s name c.state) →
      R c ((c.put (v.name s name c.state)).note [.name s name])) :
    v.charted.Visits P Q (fun s c => At s c.state) R where
  function {s c} name params ret hs := by
    obtain ⟨hstate, hopens⟩ := h.function name params ret hs
    simp only [Visitor.charted]
    generalize hfound : v.function s name params ret c.state = r at hstate hopens
    obtain ⟨_ | inner, d⟩ := r
    · exact ⟨by simpa using hput hs hstate, by simp⟩
    · refine ⟨hbody none name inner hs hstate ⟨params, ret, hfound⟩, ?_⟩
      rintro _ ⟨rfl⟩
      exact hopens inner rfl
  method {s c} receiver name params ret hr hs := by
    obtain ⟨hstate, hopens⟩ := h.method receiver name params ret hr hs
    simp only [Visitor.charted]
    generalize hfound : v.method s receiver name params ret c.state = r at hstate hopens
    obtain ⟨_ | inner, d⟩ := r
    · exact ⟨by simpa using hput hs hstate, by simp⟩
    · refine ⟨hbody (some receiver) name inner hs hstate ⟨params, ret, hfound⟩, ?_⟩
      rintro _ ⟨rfl⟩
      exact hopens inner rfl
  typeDecl d hs := hput hs (h.typeDecl d hs)
  declaring isConst targets values span hs := hput hs (h.declaring isConst targets values span hs)
  declared targets values hs := hput hs (h.declared targets values hs)
  assigning targets values span hs := hput hs (h.assigning targets values span hs)
  name name hs := hname name hs (h.name name hs)
  qualified module name hs := hput hs (h.qualified module name hs)

end Visitor

namespace Traversal

/-- A walk leaves the routes around it where they are, if what it turns to leaves all routes. -/
private theorem walkStmts_onward (t : Traversal σ) (m : Module)
    {turnTo : String → Charted σ → Charted σ}
    (hturn : ∀ key c, (turnTo key c).route = c.route ∧ (turnTo key c).outer = c.outer)
    (s : ScopeId) (stmts : List Stmt) (c : Charted σ) :
    c.Onward ((t.visitor m).charted.walkStmts turnTo s stmts c) := by
  have hany : (t.visitor m).Visits (fun _ => True) (fun _ _ => True) (fun _ _ => True)
      (fun _ _ => True) := by
    constructor <;> intros <;> first | trivial | exact ⟨trivial, fun _ _ => ⟨trivial, by simp⟩⟩
  have hvisits := hany.charted (R := Charted.Onward) (fun _ _ => ⟨List.prefix_rfl, rfl⟩)
    (fun _ _ _ _ _ _ => ⟨List.prefix_append .., rfl⟩) (fun _ _ _ => ⟨List.prefix_append .., rfl⟩)
  have hkeeps : (t.visitor m).charted.Keeps turnTo (fun _ => True) (fun _ _ => True)
      (fun _ _ => True) Charted.Onward :=
    { hvisits with
      refl := Charted.Onward.refl
      trans := Charted.Onward.trans
      later := fun _ _ => trivial
      importing := by
        intro s c i _ _
        simp only [Visitor.walkImport, Visitor.charted]
        rcases (t.visitor m).importing s i c.state with ⟨_ | key, d⟩
        · exact ⟨List.prefix_rfl, rfl⟩
        · obtain ⟨hroute, houter⟩ := hturn key (c.put d)
          exact ⟨hroute.symm ▸ List.prefix_rfl, houter⟩ }
  exact Visitor.walkStmts_keeps hkeeps stmts (fun _ _ => trivial) (fun _ _ => trivial) trivial

/-- Processing a module leaves the routes of all walks that are open where they are. -/
theorem route_runWithin (t : Traversal σ) (pass : Pass) (n : Nat) (key : String)
    (c : Charted σ) :
    ((t.charted pass).runWithin n key c).route = c.route ∧
      ((t.charted pass).runWithin n key c).outer = c.outer := by
  induction n generalizing key c with
  | zero => exact ⟨rfl, rfl⟩
  | succ n ih =>
    simp only [runWithin, charted]
    rcases t.enter key c.state with ⟨_ | m, d⟩
    · exact ⟨rfl, rfl⟩
    · have houter := (walkStmts_onward t m ih m.root m.program.stmts (c.put d).opening).outer
      simp only [Charted.closing, Charted.put]
      exact ⟨congrArg (List.headD · []) houter, congrArg List.tail houter⟩

/-- So does an import on a walk, with all that it turns to. -/
theorem route_walkImport (t : Traversal σ) (pass : Pass) (n : Nat) (m : Module) (s : ScopeId)
    (i : Import) (c : Charted σ) :
    ((t.visitor m).charted.walkImport ((t.charted pass).runWithin n) s i c).route = c.route := by
  simp only [Visitor.walkImport, Visitor.charted]
  rcases (t.visitor m).importing s i c.state with ⟨_ | key, d⟩
  · rfl
  · exact (route_runWithin t pass n key (c.put d)).1

end Traversal

/-! ### Routes that can be read off -/

namespace Visitor

/--
A visitor finds the scopes of bodies where another one, which has no state, says they are: at
least whenever what it leaves behind is fine, and what it comes past is.
-/
structure Reads (v : Visitor σ) (w : Visitor Unit) (P : Place → Prop) (At : ScopeId → σ → Prop)
    (Fine : σ → Prop) (Ok : Landmark → Prop) : Prop where
  /-- The body of a function has the same scope. -/
  function : ∀ {s c} name params ret, At s c → Fine (v.function s name params ret c).2 →
    (v.function s name params ret c).1 = (w.function s name params ret ()).1
  /-- The body of a method has the same scope. -/
  method : ∀ {s c} receiver name params ret, P (.receiver receiver) → At s c →
    Fine (v.method s receiver name params ret c).2 →
    (∀ inner ∈ (v.method s receiver name params ret c).1,
      Ok (.body s (some receiver) name inner)) →
    (v.method s receiver name params ret c).1 = (w.method s receiver name params ret ()).1

/-- A visitor without a state turns to no module. -/
def stay (_ : String) (u : Charted Unit) : Charted Unit := u

variable {v : Visitor σ} {w : Visitor Unit} {turnTo : String → Charted σ → Charted σ}
  {P : Place → Prop} {Q : ScopeId → Import → Prop} {At : ScopeId → σ → Prop}
  {R : Charted σ → Charted σ → Prop} {Fine : σ → Prop} {Ok : Landmark → Prop}

/-- What a charted state leaves behind is fine, and all that its walk has come past is. -/
def Fair (Fine : σ → Prop) (Ok : Landmark → Prop) (c : Charted σ) : Prop :=
  Fine c.state ∧ ∀ x ∈ c.route, Ok x

section

variable (hk : v.charted.Keeps turnTo P Q (fun s c => At s c.state) R)
  (hr : v.Reads w P At Fine Ok)
  (hback : ∀ {c d}, R c d → Fair Fine Ok d → Fair Fine Ok c)
  (himport : ∀ {s c} i, Q s i → At s c.state →
    (v.charted.walkImport turnTo s i c).route = c.route)

include hk hr hback himport

-- The assumptions are used somewhere in the recursion, though not in every theorem of it.
set_option linter.unusedSectionVars false

mutual

theorem walkExpr_reads {s : ScopeId} :
    ∀ (e : Expr) {c : Charted σ} {u : Charted Unit}, (∀ p ∈ e.places, P p) → At s c.state →
      c.route = u.route → Fair Fine Ok (v.charted.walkExpr turnTo s e c) →
        (v.charted.walkExpr turnTo s e c).route = (w.charted.walkExpr stay s e u).route
  | .literal _ _, _, _, _, _, hroute, _ => hroute
  | .ident name, _, _, _, _, hroute, _ => congrArg (· ++ [Landmark.name s name]) hroute
  | .qualified _ _ _, _, _, _, _, hroute, _ => hroute
  | .binary _ left right _, c, u, hp, hs, hroute, hfair => by
    simp only [Expr.places, List.forall_mem_append] at hp
    have hleft := walkExpr_keeps hk left hp.1 hs
    have hright := walkExpr_keeps hk right hp.2 (hk.later hleft hs)
    have hmid := walkExpr_reads left hp.1 hs hroute (hback hright hfair)
    exact walkExpr_reads right hp.2 (hk.later hleft hs) hmid hfair
  | .unary _ operand _, _, _, hp, hs, hroute, hfair => walkExpr_reads operand hp hs hroute hfair
  | .call callee args _, c, u, hp, hs, hroute, hfair => by
    simp only [Expr.places, List.forall_mem_append] at hp
    have hcallee := walkExpr_keeps hk callee hp.1 hs
    have hargs := walkExprs_keeps hk args hp.2 (hk.later hcallee hs)
    have hmid := walkExpr_reads callee hp.1 hs hroute (hback hargs hfair)
    exact walkExprs_reads args hp.2 (hk.later hcallee hs) hmid hfair
  | .field object _ _, _, _, hp, hs, hroute, hfair => walkExpr_reads object hp hs hroute hfair
  | .index object index _, c, u, hp, hs, hroute, hfair => by
    simp only [Expr.places, List.forall_mem_append] at hp
    have hobject := walkExpr_keeps hk object hp.1 hs
    have hindex := walkExpr_keeps hk index hp.2 (hk.later hobject hs)
    have hmid := walkExpr_reads object hp.1 hs hroute (hback hindex hfair)
    exact walkExpr_reads index hp.2 (hk.later hobject hs) hmid hfair
  | .array elements _, _, _, hp, hs, hroute, hfair => walkExprs_reads elements hp hs hroute hfair
  | .function f, _, _, hp, hs, hroute, hfair => walkFunction_reads f hp hs hroute hfair

theorem walkExprs_reads {s : ScopeId} :
    ∀ (es : List Expr) {c : Charted σ} {u : Charted Unit}, (∀ p ∈ Expr.placesAll es, P p) →
      At s c.state → c.route = u.route → Fair Fine Ok (v.charted.walkExprs turnTo s es c) →
        (v.charted.walkExprs turnTo s es c).route = (w.charted.walkExprs stay s es u).route
  | [], _, _, _, _, hroute, _ => hroute
  | e :: es, c, u, hp, hs, hroute, hfair => by
    simp only [Expr.placesAll, List.forall_mem_append] at hp
    have he := walkExpr_keeps hk e hp.1 hs
    have hes := walkExprs_keeps hk es hp.2 (hk.later he hs)
    have hmid := walkExpr_reads e hp.1 hs hroute (hback hes hfair)
    exact walkExprs_reads es hp.2 (hk.later he hs) hmid hfair

theorem walkFunction_reads {s : ScopeId} :
    ∀ (f : FunctionDef) {c : Charted σ} {u : Charted Unit}, (∀ p ∈ f.places, P p) →
      At s c.state → c.route = u.route → Fair Fine Ok (v.charted.walkFunction turnTo s f c) →
        (v.charted.walkFunction turnTo s f c).route = (w.charted.walkFunction stay s f u).route
  | .mk name params ret body _, c, u, hp, hs, hroute, hfair => by
    have hhead := hk.function name params ret hs
    have hsame := hr.function name params ret hs
    simp only [walkFunction, Visitor.charted] at hhead hsame hfair ⊢
    generalize v.function s name params ret c.state = r at hhead hsame hfair ⊢
    obtain ⟨_ | inner, d⟩ := r
    · have hfine := hsame hfair.1
      simp only [← hfine, Option.toList_none, List.map_nil, Charted.note_nil]
      exact hroute
    · have hinner := hhead.2 inner rfl
      have hbody := walkBlock_keeps hk body hp (hinner.outer hp) hinner.1
      have hfine := hsame (hback hbody hfair).1
      simp only [← hfine]
      refine walkBlock_reads body hp (hinner.outer hp) hinner.1 ?_ hfair
      exact congrArg (· ++ [Landmark.body s none name inner]) hroute

theorem walkMethod_reads {s : ScopeId} (receiver : Param) (hrec : P (.receiver receiver)) :
    ∀ (f : FunctionDef) {c : Charted σ} {u : Charted Unit}, (∀ p ∈ f.places, P p) →
      At s c.state → c.route = u.route →
      Fair Fine Ok (v.charted.walkMethod turnTo s receiver f c) →
        (v.charted.walkMethod turnTo s receiver f c).route =
          (w.charted.walkMethod stay s receiver f u).route
  | .mk name params ret body _, c, u, hp, hs, hroute, hfair => by
    have hhead := hk.method receiver name params ret hrec hs
    have hsame := hr.method receiver name params ret hrec hs
    simp only [walkMethod, Visitor.charted] at hhead hsame hfair ⊢
    generalize v.method s receiver name params ret c.state = r at hhead hsame hfair ⊢
    obtain ⟨_ | inner, d⟩ := r
    · have hfine := hsame hfair.1 (by simp)
      simp only [← hfine, Option.toList_none, List.map_nil, Charted.note_nil]
      exact hroute
    · have hinner := hhead.2 inner rfl
      have hbody := walkBlock_keeps hk body hp (hinner.outer hp) hinner.1
      have hmid := hback hbody hfair
      have hfine := hsame hmid.1 (by
        rintro _ ⟨rfl⟩
        exact hmid.2 _ (List.mem_append_right _ (List.mem_singleton_self _)))
      simp only [← hfine]
      refine walkBlock_reads body hp (hinner.outer hp) hinner.1 ?_ hfair
      exact congrArg (· ++ [Landmark.body s (some receiver) name inner]) hroute

theorem walkBlock_reads {s : ScopeId} :
    ∀ (b : Block) {c : Charted σ} {u : Charted Unit}, (∀ p ∈ b.places, P p) →
      (∀ i ∈ b.outerImports, Q s i) → At s c.state → c.route = u.route →
      Fair Fine Ok (v.charted.walkBlock turnTo s b c) →
        (v.charted.walkBlock turnTo s b c).route = (w.charted.walkBlock stay s b u).route
  | .mk stmts _, _, _, hp, hq, hs, hroute, hfair => walkStmts_reads stmts hp hq hs hroute hfair

theorem walkConditional_reads {s : ScopeId} :
    ∀ (cond : Conditional) {c : Charted σ} {u : Charted Unit}, (∀ p ∈ cond.places, P p) →
      (∀ i ∈ cond.outerImports, Q s i) → At s c.state → c.route = u.route →
      Fair Fine Ok (v.charted.walkConditional turnTo s cond c) →
        (v.charted.walkConditional turnTo s cond c).route =
          (w.charted.walkConditional stay s cond u).route
  | .mk cond body otherwise _, c, u, hp, hq, hs, hroute, hfair => by
    simp only [Conditional.places, List.forall_mem_append] at hp
    simp only [Conditional.outerImports, List.forall_mem_append] at hq
    have hcond := walkExpr_keeps hk cond hp.1.1 hs
    have hs' := hk.later hcond hs
    have hbody := walkBlock_keeps hk body hp.1.2 hq.1 hs'
    have hs'' := hk.later hbody hs'
    have hrest := walkAlternative_keeps hk otherwise hp.2 hq.2 hs''
    have hfair' := hback hrest hfair
    have hmid := walkExpr_reads cond hp.1.1 hs hroute (hback hbody hfair')
    have hmid' := walkBlock_reads body hp.1.2 hq.1 hs' hmid hfair'
    exact walkAlternative_reads otherwise hp.2 hq.2 hs'' hmid' hfair

theorem walkAlternative_reads {s : ScopeId} :
    ∀ (a : Alternative) {c : Charted σ} {u : Charted Unit}, (∀ p ∈ a.places, P p) →
      (∀ i ∈ a.outerImports, Q s i) → At s c.state → c.route = u.route →
      Fair Fine Ok (v.charted.walkAlternative turnTo s a c) →
        (v.charted.walkAlternative turnTo s a c).route =
          (w.charted.walkAlternative stay s a u).route
  | .nothing, _, _, _, _, _, hroute, _ => hroute
  | .block body, _, _, hp, hq, hs, hroute, hfair => walkBlock_reads body hp hq hs hroute hfair
  | .conditional next, _, _, hp, hq, hs, hroute, hfair =>
    walkConditional_reads next hp hq hs hroute hfair

theorem walkStmt_reads {s : ScopeId} :
    ∀ (stmt : Stmt) {c : Charted σ} {u : Charted Unit}, (∀ p ∈ stmt.places, P p) →
      (∀ i ∈ stmt.outerImports, Q s i) → At s c.state → c.route = u.route →
      Fair Fine Ok (v.charted.walkStmt turnTo s stmt c) →
        (v.charted.walkStmt turnTo s stmt c).route = (w.charted.walkStmt stay s stmt u).route
  | .importing i, c, u, _, hq, hs, hroute, _ => by
    have hleft := himport i (hq _ (List.mem_singleton_self _)) hs
    have hright : (w.charted.walkImport stay s i u).route = u.route := by
      simp only [walkImport, Visitor.charted]
      rcases w.importing s i u.state with ⟨_ | key, e⟩ <;> rfl
    exact hleft.trans (hroute.trans hright.symm)
  | .function f, _, _, hp, _, hs, hroute, hfair => walkFunction_reads f hp hs hroute hfair
  | .method receiver f, _, _, hp, _, hs, hroute, hfair => by
    simp only [Stmt.places, List.forall_mem_cons] at hp
    exact walkMethod_reads receiver hp.1 f hp.2 hs hroute hfair
  | .varDecl isConst targets values span, c, u, hp, _, hs, hroute, hfair => by
    have hin := hk.declaring isConst targets values span hs
    have hs' := hk.later hin hs
    have hvalues := walkExprs_keeps hk values hp hs'
    have hout := hk.declared targets values (hk.later hvalues hs')
    exact walkExprs_reads values hp hs' hroute (hback hout hfair)
  | .typeDecl _, _, _, _, _, _, hroute, _ => hroute
  | .assign targets values span, c, u, hp, _, hs, hroute, hfair => by
    simp only [Stmt.places, List.forall_mem_append] at hp
    have hin := hk.assigning targets values span hs
    have hs' := hk.later hin hs
    have htargets := walkExprs_keeps hk targets hp.1 hs'
    have hs'' := hk.later htargets hs'
    have hvalues := walkExprs_keeps hk values hp.2 hs''
    have hmid := walkExprs_reads targets hp.1 hs' hroute (hback hvalues hfair)
    exact walkExprs_reads values hp.2 hs'' hmid hfair
  | .conditional cond, _, _, hp, hq, hs, hroute, hfair =>
    walkConditional_reads cond hp hq hs hroute hfair
  | .ret none _, _, _, _, _, _, hroute, _ => hroute
  | .ret (some e) _, _, _, hp, _, hs, hroute, hfair => walkExpr_reads e hp hs hroute hfair
  | .block b, _, _, hp, hq, hs, hroute, hfair => walkBlock_reads b hp hq hs hroute hfair
  | .expr e, _, _, hp, _, hs, hroute, hfair => walkExpr_reads e hp hs hroute hfair

/-- If what a walk leaves behind is fine, its route is the one that can be read off. -/
theorem walkStmts_reads {s : ScopeId} :
    ∀ (stmts : List Stmt) {c : Charted σ} {u : Charted Unit}, (∀ p ∈ Stmt.placesAll stmts, P p) →
      (∀ i ∈ Stmt.outerImportsAll stmts, Q s i) → At s c.state → c.route = u.route →
      Fair Fine Ok (v.charted.walkStmts turnTo s stmts c) →
        (v.charted.walkStmts turnTo s stmts c).route = (w.charted.walkStmts stay s stmts u).route
  | [], _, _, _, _, _, hroute, _ => hroute
  | stmt :: stmts, c, u, hp, hq, hs, hroute, hfair => by
    simp only [Stmt.placesAll, List.forall_mem_append] at hp
    simp only [Stmt.outerImportsAll, List.forall_mem_append] at hq
    have hstmt := walkStmt_keeps hk stmt hp.1 hq.1 hs
    have hs' := hk.later hstmt hs
    have hstmts := walkStmts_keeps hk stmts hp.2 hq.2 hs'
    have hmid := walkStmt_reads stmt hp.1 hq.1 hs hroute (hback hstmts hfair)
    exact walkStmts_reads stmts hp.2 hq.2 hs' hmid hfair

end

end

end Visitor

end Sable
