import Sable.Proofs.Compilation.Refusing
import Sable.Proofs.Module.Bound
import Sable.Proofs.Syntax.Numbering

/-!
# Bodies of function literals

The names of function literals are spelled as those of functions are, and they are declared next to
them. So a literal is refused like any other declaration if its name has been declared in its scope
before, and its body is passed over then. The literals of a text do not stand in each other's way,
since no two of them have the same name. If no other name that the text declares is spelled like that
of a literal, no literal is refused, and no other name is refused because of one: the reports are
those of the written declarations alone. Every pass then goes into each literal that it comes to.
-/

namespace Sable

/-- No name that a program declares is spelled like that of a function literal, but for its own. -/
def Program.Hygienic (p : Program) : Prop :=
  ∀ text ∈ p.literalNames, (p.names.map Ident.name).count text ≤ 1

instance (p : Program) : Decidable p.Hygienic :=
  inferInstanceAs (Decidable (∀ text ∈ p.literalNames, (p.names.map Ident.name).count text ≤ 1))

/-- The declarations of a module, less those of function literals. -/
def Module.writtenDeclarations (m : Module) (F : ScopeForest) : List Declaration :=
  (m.declarations F).filter fun d => d.name.name ∉ m.program.literalNames

/-- A walk goes into each function literal that it comes to, whose body belongs to its name. -/
def Visit.EntersLiterals (F : ScopeForest) (p : Program) (L : List Visit) : Prop :=
  ∀ s h inner?, .head s h inner? ∈ L → h.receiver? = none → h.name.name ∈ p.literalNames →
    ∃ t, inner? = some t ∧ F.Shows s .func h.name (some t)

/-! ### Names that are declared once -/

namespace Declaration

variable {D D₁ E : List Declaration} {d e : Declaration}

/-- The texts of the names of declarations. -/
def texts (D : List Declaration) : List String := D.map fun d => d.name.name

/-- Two declarations of a text that is declared once are the same one. -/
theorem eq_of_count_texts (h : (texts D).count d.name.name ≤ 1) (hd : d ∈ D) (he : e ∈ D)
    (hsame : e.name.name = d.name.name) : e = d := by
  obtain ⟨A, B, rfl⟩ := List.append_of_mem hd
  have hrest : e ∈ A ∨ e ∈ B → False := by
    intro hmem
    have hpos : 0 < (texts (A ++ B)).count d.name.name := by
      rw [List.count_pos_iff, texts, ← hsame]
      exact List.mem_map_of_mem (List.mem_append.mpr hmem)
    simp only [texts, List.map_append, List.map_cons, List.count_append,
      List.count_cons_self] at h hpos
    omega
  rcases List.mem_append.mp he with he | he
  · exact (hrest (Or.inl he)).elim
  · exact (List.mem_cons.mp he).resolve_right fun he => hrest (Or.inr he)

/-- A declaration of a text that is declared once is the first of its name. -/
theorem first?_eq_self (h : (texts D).count d.name.name ≤ 1) (hd : d ∈ D) :
    first? D d.scope d.name.name = some d := by
  cases hfirst : first? D d.scope d.name.name with
  | none =>
    have hnone := List.find?_eq_none.mp hfirst d hd
    simp at hnone
  | some e =>
    obtain ⟨he, -, hsame⟩ := of_first? hfirst
    rw [eq_of_count_texts h hd he hsame]

/-- The first declaration of a name is not refused. -/
theorem refused_of_first? (h : (D.map name).Nodup) (hd : D₁ ++ [d] <+: D)
    (hfirst : first? D d.scope d.name.name = some d) : d.refused D₁ = false := by
  by_contra hrefused
  obtain ⟨e, he⟩ := Option.isSome_iff_exists.mp (Bool.eq_true_of_not_eq_false hrefused)
  obtain ⟨D₂, rfl⟩ := hd
  rw [first?_append, first?_append, he, Option.some_or, Option.some_or, Option.some.injEq] at hfirst
  subst hfirst
  -- The declaration would stand in front of itself.
  rw [List.map_append, List.map_append, List.nodup_append, List.nodup_append] at h
  exact h.1.2.2 _ (List.mem_map_of_mem (of_first? he).1) _
    (List.mem_map_of_mem (List.mem_singleton_self _)) rfl

/-- Declarations of texts that are declared once refuse no others and are not refused. -/
theorem refusedFrom_filter {P : String → Prop} [DecidablePred P]
    (h : ∀ d ∈ E, ¬ P d.name.name → (texts (D ++ E)).count d.name.name ≤ 1) :
    refusedFrom D E = refusedFrom (D.filter fun d => P d.name.name)
      (E.filter fun d => P d.name.name) := by
  induction E generalizing D with
  | nil => rfl
  | cons d E ih =>
    have hrest := ih (D := D ++ [d]) fun e he hP => by
      rw [List.append_assoc, List.singleton_append]
      exact h e (List.mem_cons_of_mem _ he) hP
    rw [refusedFrom, hrest, List.filter_append]
    by_cases hP : P d.name.name
    · have hsame : d.refused (D.filter fun d => P d.name.name) = d.refused D := by
        unfold refused first?
        rw [List.find?_filter]
        congr 2
        funext e
        by_cases he : e.name.name = d.name.name
        · by_cases hscope : e.scope = d.scope <;> simp [he, hP, hscope]
        · simp [he]
      simp [hP, refusedFrom, hsame]
    · have hfree : d.refused D = false := by
        by_contra hrefused
        obtain ⟨e, he⟩ := Option.isSome_iff_exists.mp (Bool.eq_true_of_not_eq_false hrefused)
        obtain ⟨hmem, -, hsame⟩ := of_first? he
        have hpos : 0 < (texts D).count d.name.name := by
          rw [List.count_pos_iff, ← hsame]
          exact List.mem_map_of_mem hmem
        have hcount := h d (List.mem_cons_self ..) hP
        simp only [texts, List.map_append, List.map_cons, List.count_append,
          List.count_cons_self] at hcount hpos
        omega
      simp [hP, hfree]

end Declaration

namespace Visit

variable {F : ScopeForest} {D D₁ : List Declaration} {L : List Visit} {v : Visit} {s : ScopeId}
  {hd : Head}

/-- A visit declares names of its place. -/
theorem names_declarations (F : ScopeForest) (D : List Declaration) :
    ∀ v : Visit, ((v.declarations F D).map Declaration.name).Sublist v.names
  | importing _ _ => List.nil_sublist _
  | stop s x => names_stop F D s x
  | head s h _ => names_head F D s h

/-- A declaration of the name in a head is the one that the head makes. -/
theorem declaration?_of_mem {e : Declaration} (hnodup : hd.names.Nodup)
    (he : e ∈ hd.declarations F D s) (hname : e.name = hd.name) :
    hd.declaration? F D s = some e := by
  rw [Head.declarations] at he
  cases hdecl : hd.declaration? F D s with
  | none =>
    rw [hdecl] at he
    cases he
  | some d =>
    rw [hdecl, Option.elim_some, Declaration.withNames] at he
    rcases List.mem_cons.mp he with rfl | he
    · rfl
    · -- An argument does not have the name of the function.
      cases hinner : d.inner? F D with
      | none =>
        rw [hinner] at he
        cases he
      | some t =>
        rw [hinner, Option.elim_some] at he
        obtain ⟨x, hx, rfl⟩ := List.mem_map.mp he
        exact absurd (show hd.name ∈ hd.argumentNames from hname ▸ hx) (List.nodup_cons.mp hnodup).1

end Visit

namespace Compilation

open Context

variable {c : Compilation} {m : Module} {L : List Visit} {D : List Declaration} {s t : ScopeId}
  {hd : Head} {inner? : Option ScopeId}

/-! ### Where the tables go -/

namespace Retraces

variable (h : Retraces c.context.scopes c m L D) (hnodup : m.program.names.Nodup)
include h hnodup

theorem nodup_names : (L.flatMap Visit.names).Nodup :=
  (m.program.namesAll_steps ▸ h.spells.names_sublist).nodup hnodup

theorem nodup_declared : (D.map Declaration.name).Nodup :=
  (h.leads.names_of_spells h.spells).nodup hnodup

/-- Where the tables have a body behind a head of the walk, the walk has gone into it. -/
theorem inner?_of_declaredMembers? (hv : .head s hd inner? ∈ L) {s' : ScopeId}
    (hs : m.root ∈ c.context.scopes.chain s')
    (ht : c.context.scopes.declaredMembers? s' hd.name = some t) : inner? = some t := by
  obtain ⟨y, hy, hspan, hmembers⟩ : ∃ y, c.context.scopes.symbol? s' hd.name.name = some y ∧
      y.span = hd.name.span ∧ y.members? = some t := by
    unfold ScopeForest.declaredMembers? at ht
    split at ht
    · next y hy =>
      obtain ⟨hspan, hmembers⟩ := Option.ite_none_right_eq_some.mp ht
      exact ⟨y, hy, hspan, hmembers⟩
    · cases ht
  -- The name is bound as its first declaration says, which the head of the walk has made.
  have hbinds := h.holds.binds s' (by rwa [ScopeForest.chain_untyped]) hd.name.name
  rw [ScopeForest.symbol?_untyped, hy, Option.map_some] at hbinds
  generalize hfirst : Declaration.first? D s' hd.name.name = e at hbinds
  cases hbinds with
  | @some e _ hbinds =>
    obtain ⟨he, hscope, htext⟩ := Declaration.of_first? hfirst
    have hname : e.name = hd.name := Ident.mk.injEq .. ▸ ⟨htext, hbinds.span.symm.trans hspan⟩
    obtain ⟨v, hv', D₁, hmakes, hmem⟩ := (h.leads.exists_makes he).resolve_left List.not_mem_nil
    have hsame : v = .head s hd inner? := by
      have hxv := (Visit.names_declarations _ D₁ v).subset (List.mem_map_of_mem hmem)
      exact Visit.eq_of_mem_names (h.nodup_names hnodup) hv' hv hxv
        (hname ▸ List.mem_cons_self ..)
    subst hsame
    have hdecl := Visit.declaration?_of_mem
      ((List.nodup_flatMap.mp (h.nodup_names hnodup)).1 _ hv) hmem hname
    have hfollows : D₁ ++ [e] <+: D := by
      refine List.IsPrefix.trans ?_ hmakes.follows
      rw [Visit.declarations, Head.declarations, hdecl]
      exact (List.prefix_append_right_inj D₁).mpr ⟨_, rfl⟩
    have hfree := Declaration.refused_of_first? (h.nodup_declared hnodup) hfollows
      (by rwa [hscope, htext])
    rw [hmakes.body rfl, Head.body?, hdecl, Option.bind_some, Declaration.inner?, hfree,
      if_neg Bool.false_ne_true, ScopeForest.membersOf?, hscope, htext, hy, Option.bind_some,
      hmembers]

/-- Where the tables have a body behind a head of the walk, the walk has gone into it. -/
theorem inner?_of_bodyOf? (hsound : c.context.scopes.Sound)
    (hroot : c.context.scopes.parent? m.root = some 0)
    (hs : m.root ∈ c.context.scopes.chain s) (hreceiver : ∀ p ∈ hd.receiver?, p.ty.NamesNoBuiltin)
    (hv : .head s hd inner? ∈ L) (ht : c.context.scopes.bodyOf? s hd = some t) :
    inner? = some t := by
  cases hd' : hd.receiver? with
  | none =>
    simp only [ScopeForest.bodyOf?, hd'] at ht
    exact h.inner?_of_declaredMembers? hnodup hv hs ht
  | some p =>
    simp only [ScopeForest.bodyOf?, hd'] at ht
    obtain ⟨members, hmembers, ht⟩ := Option.bind_eq_some_iff.mp ht
    refine h.inner?_of_declaredMembers? hnodup hv ?_ ht
    exact ScopeForest.methodScope_mem hsound hroot hs (hreceiver p hd') hmembers

/-- The walks that the tables give come only to heads that the walk has come to in the same scope. -/
private theorem exists_of_visitsAll (hsound : c.context.scopes.Sound)
    (hroot : c.context.scopes.parent? m.root = some 0) {ys : List Step} {K : List Visit}
    (hK : Spells s ys K) (hsub : K ⊆ L)
    (hreceivers : ∀ p, .receiver p ∈ Step.placesAll ys → p.ty.NamesNoBuiltin)
    (hs : m.root ∈ c.context.scopes.chain s) {u : ScopeId}
    (hv : .head u hd inner? ∈ c.context.scopes.visitsAll s ys) :
    inner? = c.context.scopes.bodyOf? u hd ∧ ∃ found?, .head u hd found? ∈ L := by
  induction hK with
  | nil => cases hv
  | importing _ ih =>
    have hv := (List.mem_cons.mp hv).resolve_left nofun
    exact ih (List.subset_of_cons_subset hsub)
      (fun p hp => hreceivers p (List.mem_append_right _ hp)) hs hv
  | stop _ ih =>
    have hv := (List.mem_cons.mp hv).resolve_left nofun
    exact ih (List.subset_of_cons_subset hsub)
      (fun p hp => hreceivers p (List.mem_append_right _ hp)) hs hv
  | @skip s hd' zs ys K _ ih =>
    have hhere : .head s hd' none ∈ L := hsub (List.mem_cons_self ..)
    simp only [Step.placesAll, Step.places, List.mem_append] at hreceivers
    -- The tables have no body there either.
    have hnone : c.context.scopes.bodyOf? s hd' = none := by
      by_contra hsome
      obtain ⟨t, ht⟩ := Option.ne_none_iff_exists'.mp hsome
      have hfound := h.inner?_of_bodyOf? hnodup hsound hroot hs
        (fun p hp => hreceivers p (Or.inl (Or.inl (by simpa using hp)))) hhere ht
      cases hfound
    simp only [ScopeForest.visitsAll, ScopeForest.visits, hnone, List.singleton_append] at hv
    rcases List.mem_cons.mp hv with he | hv
    · obtain ⟨rfl, rfl, rfl⟩ := Visit.head.inj he
      exact ⟨hnone.symm, _, hhere⟩
    · exact ih (List.subset_of_cons_subset hsub) (fun p hp => hreceivers p (Or.inr hp)) hs hv
  | @body s t hd' zs ys K K' _ _ ihK ihL =>
    have hhere : .head s hd' (some t) ∈ L := hsub (List.mem_cons_self ..)
    have hinner : K ++ K' ⊆ L := List.subset_of_cons_subset hsub
    simp only [Step.placesAll, Step.places, List.mem_append] at hreceivers
    have hparsed : ∀ p ∈ hd'.receiver?, p.ty.NamesNoBuiltin :=
      fun p hp => hreceivers p (Or.inl (Or.inl (by simpa using hp)))
    simp only [ScopeForest.visitsAll, ScopeForest.visits, List.cons_append] at hv
    rcases List.mem_cons.mp hv with he | hv
    · obtain ⟨rfl, rfl, rfl⟩ := Visit.head.inj he
      exact ⟨rfl, _, hhere⟩
    rcases List.mem_append.mp hv with hv | hv
    · cases ht : c.context.scopes.bodyOf? s hd' with
      | none =>
        rw [ht] at hv
        cases hv
      | some t' =>
        -- The walk has gone into the body in the same scope.
        rw [ht] at hv
        obtain rfl := Option.some.inj (h.inner?_of_bodyOf? hnodup hsound hroot hs hparsed hhere ht)
        refine ihK (fun v hv => hinner (List.mem_append_left _ hv))
          (fun p hp => hreceivers p (Or.inl (Or.inr hp))) ?_ hv
        exact ScopeForest.bodyOf?_mem hsound hroot hs hparsed ht
    · exact ihL (fun v hv => hinner (List.mem_append_right _ hv))
        (fun p hp => hreceivers p (Or.inr hp)) hs hv

/-- The itinerary of a module comes only to heads that the walk has come to in the same scope. -/
theorem exists_of_itinerary (hl : c.context.Linked) (hm : m ∈ c.context.modules)
    (hv : .head s hd inner? ∈ c.context.scopes.itinerary m) :
    inner? = c.context.scopes.bodyOf? s hd ∧ ∃ found?, .head s hd found? ∈ L := by
  have hroot := hl.root m hm
  refine h.exists_of_visitsAll hnodup hl.scopes hroot h.spells (List.Subset.refl _) ?_
    (ScopeForest.mem_chain_self (ScopeForest.lt_size_of_parent? hroot)) hv
  exact fun p hp => hl.places m hm (.receiver p) (m.program.placesAll_steps ▸ hp)

/-! ### Literals -/

omit hnodup in
/-- A text of a literal is declared once at most. -/
theorem count_texts (hhygienic : m.program.Hygienic) {text : String}
    (htext : text ∈ m.program.literalNames) : (Declaration.texts D).count text ≤ 1 := by
  have hsub := (h.leads.names_of_spells h.spells).map Ident.name
  rw [List.map_map] at hsub
  exact (hsub.count_le text).trans (hhygienic text htext)

/-- The walk has gone into each literal that it has come to. -/
theorem entersLiterals (howned : c.context.scopes.Owned) (hhygienic : m.program.Hygienic) :
    Visit.EntersLiterals c.context.scopes m.program L := by
  intro s hd inner? hv hreceiver htext
  obtain ⟨D₁, hmakes⟩ := h.leads.makes hv
  have hdecl : hd.declaration? c.context.scopes D₁ s = some ⟨s, .func, hd.name⟩ := by
    rw [Head.declaration?, hreceiver]
  have hfollows : D₁ ++ [⟨s, .func, hd.name⟩] <+: D := by
    refine List.IsPrefix.trans ?_ hmakes.follows
    rw [Visit.declarations, Head.declarations, hdecl]
    exact (List.prefix_append_right_inj D₁).mpr ⟨_, rfl⟩
  have hmem : ⟨s, .func, hd.name⟩ ∈ D := hfollows.subset (by simp)
  have hfirst := Declaration.first?_eq_self (h.count_texts hhygienic htext) hmem
  have hfree := Declaration.refused_of_first? (h.nodup_declared hnodup) hfollows hfirst
  -- So the name is bound to the literal, with a scope for its body.
  have hbinds := h.holds.binds s (h.holds.inside _ hmem) hd.name.name
  rw [hfirst, ScopeForest.symbol?_untyped] at hbinds
  generalize hy : c.context.scopes.symbol? s hd.name.name = y? at hbinds
  cases y? with
  | none => cases hbinds
  | some y =>
    cases hbinds with
    | some hbinds =>
      have hshows := ScopeForest.shows_of_symbol? hy
      obtain ⟨-, hname⟩ := ScopeForest.mem_symbols_of_symbol? hy
      have hident : (⟨y.name, y.span⟩ : Ident) = hd.name :=
        Ident.mk.injEq .. ▸ ⟨hname, hbinds.span⟩
      have hkind : y.kind = .func := hbinds.kind
      rw [hident, hkind] at hshows
      obtain ⟨t, ht⟩ := Option.isSome_iff_exists.mp (howned.isSome hshows.mem_declarations)
      refine ⟨t, ?_, ht ▸ hshows⟩
      rw [hmakes.body rfl, Head.body?, hdecl, Option.bind_some, Declaration.inner?, hfree,
        if_neg Bool.false_ne_true, ScopeForest.membersOf?, hy, Option.bind_some, ht]

end Retraces

/-- The passes behind the first one go into each literal that they come to. -/
theorem Retraces.entersLiterals_itinerary (h : Retraces c.context.scopes c m L D)
    (hnodup : m.program.names.Nodup) (hl : c.context.Linked) (hm : m ∈ c.context.modules)
    (howned : c.context.scopes.Owned) (hhygienic : m.program.Hygienic) :
    Visit.EntersLiterals c.context.scopes m.program (c.context.scopes.itinerary m) := by
  intro s hd inner? hv hreceiver htext
  obtain ⟨rfl, found?, hfound⟩ := h.exists_of_itinerary hnodup hl hm hv
  obtain ⟨t, -, hshows⟩ := h.entersLiterals hnodup howned hhygienic s hd found? hfound hreceiver htext
  refine ⟨t, ?_, hshows⟩
  rw [ScopeForest.bodyOf?, hreceiver]
  exact hshows.declaredMembers?

/-- The function literals of a module stand in nobody's way, and nobody in theirs. -/
structure Unhindered (ctx : Context) (m : Module) : Prop where
  /-- They are named by an interval of numbers, in the order of the source. -/
  numbered : Numbered 0 m.program.literalNames
  /-- So no two of them have the same name. -/
  nodup : m.program.literalNames.Nodup
  /-- Just those names are reported that would be refused if there were no literals. -/
  refused : ∀ name, ctx.diagnostics.items.count (duplicateReport m name) =
    (Declaration.refusedFrom [] (m.writtenDeclarations ctx.scopes)).count name
  /-- The walk that has declared the names of the module has gone into each literal on its way. -/
  collected : ∃ L, Spells m.root m.program.steps L ∧
    Visit.Leads ctx.scopes [] L (m.declarations ctx.scopes) ∧
    Visit.EntersLiterals ctx.scopes m.program L
  /-- So do the passes behind collection, along the itinerary of the module. -/
  visited : Visit.EntersLiterals ctx.scopes m.program (ctx.scopes.itinerary m)

/--
Behind any checks, if no other name that a collected module declares is spelled like that of one of its
function literals, these are numbered in the order of the source, refuse no name and are not refused,
and every pass goes into the body of each literal that it comes to.
-/
theorem checkAll_literals (l : Loader) (entries : List Path) {m : Module}
    (hm : m ∈ (checkAll entries (new l)).context.modules) (hphase : Phase.collected ≤ m.phase)
    (hhygienic : m.program.Hygienic) : Unhindered (checkAll entries (new l)).context m := by
  have hclosed : l.Closed fun _ => True := fun _ _ _ _ => trivial
  have hnew := settled_new l (fun _ => True) fun _ => True
  have hl := (hnew.checkAll hclosed (fun _ => trivial) (fun _ => trivial) entries).linked
  have hretraced := ((persists_retraced hclosed).checkAll ⟨recorded_new l, retraced_new l⟩ hnew
    hclosed (fun _ => trivial) (fun _ => trivial) entries).2
  have hnumbered := numbered_checkAll l entries
  have howned := owned_checkAll l entries
  generalize checkAll entries (new l) = c at *
  rw [← phase_of_module? (hl.module?_of_mem hm)] at hphase
  obtain ⟨L, D, h⟩ := hretraced m hm hphase _ (.refl _) hl.scopes
  have hnodup := hnumbered.nodup_names hm
  obtain ⟨-, text, hparse⟩ := hnumbered.parsed m hm
  obtain rfl : D = m.declarations c.context.scopes := h.leads.eq_declaredAll h.spells
  refine ⟨numbered_of_parse hparse, nodup_literalNames_of_parse hparse, fun name => ?_,
    ⟨L, h.spells, h.leads, h.entersLiterals hnodup howned hhygienic⟩,
    h.entersLiterals_itinerary hnodup hl hm howned hhygienic⟩
  rw [h.reports, Declaration.refusedFrom_filter (P := fun text => text ∉ m.program.literalNames)]
  · rfl
  · intro d _ htext
    exact h.count_texts hhygienic (not_not.mp htext)

/-- The file `a.sbl`, in which one function literal stands inside another one. -/
def nestedLiterals : Loader := .new (.ofRoot ⟨""⟩)
  (.memory [(⟨"a.sbl"⟩, "let f = fn() { let g = fn() {} }")])

/-- The two literals have names that nothing else in the file has. -/
theorem exists_unhindered_nestedLiterals :
    ∃ m ∈ (checkAll [⟨"a.sbl"⟩] (new nestedLiterals)).context.modules,
      Phase.collected ≤ m.phase ∧ m.program.Hygienic ∧
      Unhindered (checkAll [⟨"a.sbl"⟩] (new nestedLiterals)).context m := by
  obtain ⟨m, hm, hphase, hhygienic⟩ :
      ∃ m ∈ (checkAll [⟨"a.sbl"⟩] (new nestedLiterals)).context.modules,
        Phase.collected ≤ m.phase ∧ m.program.Hygienic := by
    decide +kernel
  exact ⟨m, hm, hphase, hhygienic, checkAll_literals nestedLiterals _ hm hphase hhygienic⟩

end Compilation

end Sable
