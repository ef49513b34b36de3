import Sable.Proofs.Scope.Nested
import Sable.Scope.Outline

/-!
# What an outline shows

An outline shows the names of a scope in ascending order, and below each name its members. In a
nested forest each name that can be reached from the scope through members is shown, and is shown
once: only one way leads to it.
-/

namespace Sable

namespace Outline

/-- The name at the top of an outline. -/
def name : Outline → String
  | mk name _ _ _ => name

/-- The outlines of the members. -/
def members : Outline → List Outline
  | mk _ _ _ members => members

/-- A name in an outline, with the names that lead to it. -/
structure Entry where
  /-- The names on the way, the name itself the last. -/
  way : List String
  /-- What kind of thing the name stands for. -/
  kind : SymbolKind
  /-- The text of its type. -/
  type? : Option String
  deriving DecidableEq, Repr

/-- The same name as a member of another one, or of one of its members. -/
def Entry.below (name : String) (e : Entry) : Entry := { e with way := name :: e.way }

mutual

/-- The names in an outline, each behind the name that it is a member of. -/
def entries : Outline → List Entry
  | mk name kind type? members =>
    ⟨[name], kind, type?⟩ :: (entriesAll members).map (Entry.below name)

/-- The names in a list of outlines. -/
def entriesAll : List Outline → List Entry
  | [] => []
  | o :: os => entries o ++ entriesAll os

end

/-- Names ascend, and so do the names of members. -/
inductive Ascending : List Outline → Prop
  | mk {os : List Outline} : (os.map name).Pairwise (· < ·) → (∀ o ∈ os, Ascending o.members) →
    Ascending os

theorem mem_entriesAll {os : List Outline} {e : Entry} :
    e ∈ entriesAll os ↔ ∃ o ∈ os, e ∈ o.entries := by
  induction os with
  | nil => simp [entriesAll]
  | cons o os ih => simp [entriesAll, ih]

/-- The way to a name in an outline starts at the name at the top. -/
theorem exists_way_eq {o : Outline} {e : Entry} (h : e ∈ o.entries) :
    ∃ way, e.way = o.name :: way := by
  obtain ⟨name, kind, type?, members⟩ := o
  rw [entries] at h
  rcases List.mem_cons.mp h with rfl | h
  · exact ⟨[], rfl⟩
  · obtain ⟨e', -, rfl⟩ := List.mem_map.mp h
    exact ⟨e'.way, rfl⟩

/-- Where names differ, and so do the ways to the members of each, all ways differ. -/
theorem nodup_ways {os : List Outline} (hnames : (os.map name).Nodup)
    (hmembers : ∀ o ∈ os, ((entriesAll o.members).map Entry.way).Nodup) :
    ((entriesAll os).map Entry.way).Nodup := by
  induction os with
  | nil => exact List.nodup_nil
  | cons o os ih =>
    rw [List.map_cons, List.nodup_cons] at hnames
    rw [List.forall_mem_cons] at hmembers
    rw [entriesAll, List.map_append]
    refine List.Nodup.append ?_ (ih hnames.2 hmembers.2) ?_
    · obtain ⟨name, kind, type?, members⟩ := o
      rw [entries, List.map_cons, List.map_map, List.nodup_cons]
      constructor
      · -- A way to a member names the member as well.
        intro hmem
        obtain ⟨e, he, heq⟩ := List.mem_map.mp hmem
        obtain ⟨o', -, he'⟩ := mem_entriesAll.mp he
        obtain ⟨way, hway⟩ := exists_way_eq he'
        exact absurd (heq.symm.trans (congrArg (name :: ·) hway)) (by simp)
      · have hbelow : Entry.way ∘ Entry.below name = (name :: ·) ∘ Entry.way := rfl
        rw [hbelow, ← List.map_map]
        exact hmembers.1.map List.cons_injective
    · rw [List.disjoint_iff_ne]
      rintro way hway way' hway' rfl
      obtain ⟨e, he, rfl⟩ := List.mem_map.mp hway
      obtain ⟨e', he', hsame⟩ := List.mem_map.mp hway'
      obtain ⟨o', ho', he'⟩ := mem_entriesAll.mp he'
      obtain ⟨rest, hrest⟩ := exists_way_eq he
      obtain ⟨rest', hrest'⟩ := exists_way_eq he'
      have hname : o'.name = o.name := by
        have := hrest'.symm.trans (hsame.trans hrest)
        exact (List.cons.inj this).1
      exact hnames.1 (hname ▸ List.mem_map_of_mem ho')

end Outline

namespace ScopeForest

/--
A name is reached from a scope along a way of names: it is declared there, or is reached from
the members of a name that is. The scope that declares it is `t`.
-/
inductive Reaches (F : ScopeForest) : ScopeId → List String → ScopeId → Symbol → Prop
  | here {s : ScopeId} {x : Symbol} : x ∈ F.symbols s → Reaches F s [x.name] s x
  | inside {s t u : ScopeId} {x y : Symbol} {way : List String} : x ∈ F.symbols s →
    x.members? = some t → Reaches F t way u y → Reaches F s (x.name :: way) u y

variable {F : ScopeForest}

theorem mem_sortedSymbols {s : ScopeId} {x : Symbol} :
    x ∈ F.sortedSymbols s ↔ x ∈ F.symbols s := List.mem_mergeSort

/-- Names that are declared once are sorted in strictly ascending order. -/
theorem Nested.pairwise_sortedSymbols (h : F.Nested) (s : ScopeId) :
    ((F.sortedSymbols s).map Symbol.name).Pairwise (· < ·) := by
  have hsorted := @List.pairwise_mergeSort Symbol (fun x y => decide (x.name ≤ y.name))
    (fun x y z hxy hyz => decide_eq_true
      (String.le_trans (of_decide_eq_true hxy) (of_decide_eq_true hyz)))
    (fun x y => by simpa using String.le_total x.name y.name) (F.symbols s)
  have hperm : ((F.sortedSymbols s).map Symbol.name).Perm ((F.symbols s).map Symbol.name) :=
    (List.mergeSort_perm _ _).map _
  have hnodup := hperm.nodup_iff.mpr (h.names_nodup s)
  rw [List.Nodup, List.pairwise_map] at hnodup
  rw [List.pairwise_map]
  refine hsorted.imp₂ (fun x y hxy hne => String.not_le.mp fun hyx => hne ?_) hnodup
  exact String.le_antisymm (of_decide_eq_true hxy) hyx

/--
If members lie in scopes that have been opened later, any depth from which on there are no more
scopes shows all members.
-/
theorem outlineWithin_eq (hlt : ∀ {s : Nat} {x : Symbol} {t : Nat}, x ∈ F.symbols s →
    x.members? = some t → s < t) {n m s : Nat} (hn : F.size ≤ n + s) (hm : F.size ≤ m + s) :
    F.outlineWithin n s = F.outlineWithin m s := by
  have hnone {s : Nat} (hs : F.size ≤ s) : F.sortedSymbols s = [] := by
    simp [sortedSymbols, symbols, scope?_eq_none hs]
  induction n generalizing m s with
  | zero =>
    cases m with
    | zero => rfl
    | succ m => rw [outlineWithin, outlineWithin, hnone (by omega), List.map_nil]
  | succ n ih =>
    cases m with
    | zero => rw [outlineWithin, outlineWithin, hnone (by omega), List.map_nil]
    | succ m =>
      rw [outlineWithin, outlineWithin]
      refine List.map_congr_left fun x hx => ?_
      cases ht : x.members? with
      | none => rfl
      | some t =>
        have hdeeper := hlt (mem_sortedSymbols.mp hx) ht
        have hsame := ih (m := m) (s := t) (by omega) (by omega)
        simp only [hsame]

/-- Where nothing is declared, there is nothing to show. -/
theorem outline_eq_nil {s : ScopeId} (hs : F.symbols s = []) : F.outline s = [] := by
  have hsorted : F.sortedSymbols s = [] := by simp [sortedSymbols, hs]
  rw [outline]
  cases F.size with
  | zero => rfl
  | succ n => rw [outlineWithin, hsorted, List.map_nil]

namespace Nested

/-- An outline shows the names of a scope, and below each the outline of its members. -/
theorem outline_eq (h : F.Nested) (s : Nat) :
    F.outline s = (F.sortedSymbols s).map fun x =>
      .mk x.name x.kind (x.ty?.map Ty.text) (x.members?.elim [] F.outline) := by
  have hlt {s : Nat} {x : Symbol} {t : Nat} (hx : x ∈ F.symbols s) (ht : x.members? = some t) :
      s < t := h.parent_lt (h.members hx ht)
  rw [outline, outlineWithin_eq hlt (m := F.size + 1) (by omega) (by omega), outlineWithin]
  refine List.map_congr_left fun x _ => ?_
  cases x.members? <;> rfl

/-- Members are shown below a name only if the name has a scope for them. -/
private theorem exists_of_mem_elim {members? : Option ScopeId} {e : Outline.Entry}
    (he : e ∈ Outline.entriesAll (members?.elim [] F.outline)) :
    ∃ t, members? = some t ∧ e ∈ Outline.entriesAll (F.outline t) := by
  cases members? with
  | none => simp [Outline.entriesAll] at he
  | some t => exact ⟨t, rfl, he⟩

/-- What holds of a scope if it holds of the scopes of all members holds of every scope. -/
theorem induction_members (h : F.Nested) {P : ScopeId → Prop}
    (step : ∀ s, (∀ x ∈ F.symbols s, ∀ t, x.members? = some t → P t) → P s) (s : ScopeId) :
    P s := by
  induction hk : F.size - s using Nat.strong_induction_on generalizing s with
  | _ k ih =>
    refine step s fun x hx t ht => ih (F.size - t) ?_ t rfl
    have hparent := h.members hx ht
    have hlt := h.parent_lt hparent
    have hsize := lt_size_of_parent? hparent
    omega

/-- An outline shows the names that can be reached, along the ways that lead to them. -/
theorem mem_entries_outline (h : F.Nested) {s : ScopeId} {e : Outline.Entry} :
    e ∈ Outline.entriesAll (F.outline s) ↔
      ∃ t x, F.Reaches s e.way t x ∧ x.kind = e.kind ∧ x.ty?.map Ty.text = e.type? := by
  induction s using h.induction_members generalizing e with
  | _ s ih =>
    rw [h.outline_eq, Outline.mem_entriesAll]
    constructor
    · rintro ⟨o, ho, he⟩
      obtain ⟨x, hx, rfl⟩ := List.mem_map.mp ho
      have hx := mem_sortedSymbols.mp hx
      rw [Outline.entries] at he
      rcases List.mem_cons.mp he with rfl | he
      · exact ⟨s, x, .here hx, rfl, rfl⟩
      · obtain ⟨e', he', rfl⟩ := List.mem_map.mp he
        obtain ⟨t, ht, he'⟩ := exists_of_mem_elim he'
        obtain ⟨u, y, hreach, hkind, htype⟩ := (ih x hx t ht).mp he'
        exact ⟨u, y, .inside hx ht hreach, hkind, htype⟩
    · rintro ⟨u, y, hreach, hkind, htype⟩
      obtain ⟨way, kind, type?⟩ := e
      dsimp only at hreach hkind htype
      cases hreach with
      | here hy =>
        refine ⟨_, List.mem_map_of_mem (mem_sortedSymbols.mpr hy), ?_⟩
        rw [Outline.entries, hkind, htype]
        exact List.mem_cons_self ..
      | @inside _ t _ x _ way hx ht hreach =>
        refine ⟨_, List.mem_map_of_mem (mem_sortedSymbols.mpr hx), ?_⟩
        rw [Outline.entries, ht]
        refine List.mem_cons_of_mem _ (List.mem_map.mpr ⟨⟨way, kind, type?⟩, ?_, rfl⟩)
        exact (ih x hx t ht).mpr ⟨u, y, hreach, hkind, htype⟩

/-- No two names in an outline stand at the end of the same way. -/
theorem nodup_ways_outline (h : F.Nested) (s : ScopeId) :
    ((Outline.entriesAll (F.outline s)).map Outline.Entry.way).Nodup := by
  induction s using h.induction_members with
  | _ s ih =>
    rw [h.outline_eq]
    refine Outline.nodup_ways ?_ fun o ho => ?_
    · rw [List.map_map]
      refine (h.pairwise_sortedSymbols s).imp fun hlt he => ?_
      exact String.lt_irrefl _ (he ▸ hlt)
    · obtain ⟨x, hx, rfl⟩ := List.mem_map.mp ho
      show ((Outline.entriesAll (x.members?.elim [] F.outline)).map _).Nodup
      cases ht : x.members? with
      | none => exact List.nodup_nil
      | some t => exact ih x (mem_sortedSymbols.mp hx) t ht

/-- The names in an outline ascend at every depth. -/
theorem ascending_outline (h : F.Nested) (s : ScopeId) : Outline.Ascending (F.outline s) := by
  induction s using h.induction_members with
  | _ s ih =>
    rw [h.outline_eq]
    refine .mk ?_ fun o ho => ?_
    · rw [List.map_map]
      exact h.pairwise_sortedSymbols s
    · obtain ⟨x, hx, rfl⟩ := List.mem_map.mp ho
      show Outline.Ascending (x.members?.elim [] F.outline)
      cases ht : x.members? with
      | none => exact .mk .nil nofun
      | some t => exact ih x (mem_sortedSymbols.mp hx) t ht

/-- A name that is reached from a scope is declared there or further inside. -/
theorem around_of_reaches (h : F.Nested) {s u : ScopeId} {way : List String} {y : Symbol}
    (hr : F.Reaches s way u y) : F.Around u s := by
  induction hr with
  | here _ => exact .refl
  | inside hx ht _ ih => exact ih.tail (h.members hx ht)

/-- Only one way leads from a scope to a name that is declared somewhere. -/
theorem way_unique (h : F.Nested) {s u : ScopeId} {way way' : List String} {y : Symbol}
    (hr : F.Reaches s way u y) (hr' : F.Reaches s way' u y) : way = way' := by
  have hdeep : ∀ {s x t}, x ∈ F.symbols s → x.members? = some t → ¬ F.Around s t := by
    intro s x t hx ht hst
    exact absurd (h.parent_lt (h.members hx ht)) (h.le_of_around hst).not_gt
  induction hr generalizing way' with
  | here hy =>
    cases hr' with
    | here _ => rfl
    | inside hx ht hreach => exact absurd (h.around_of_reaches hreach) (hdeep hx ht)
  | inside hx ht hreach ih =>
    cases hr' with
    | here _ => exact absurd (h.around_of_reaches hreach) (hdeep hx ht)
    | inside hx' ht' hreach' =>
      obtain rfl := h.eq_of_around (h.around_of_reaches hreach) (h.around_of_reaches hreach')
        (h.members hx ht) (h.members hx' ht')
      obtain ⟨-, rfl⟩ := h.owner hx hx' ht ht'
      rw [ih hreach']

end Nested

/--
Whatever changes a forest has been built by, its scopes are nested: a scope has a larger number
than the scope around it, a name is declared once in its scope and is found there under itself,
and a scope holds the members of one name at most, which the scope around it declares. So every
walk outward ends: names and aliases are looked up in the scope itself and then in the one around
it, and a scope lies in a function exactly if it or a scope around it belongs to one. And an
outline ends as well: it shows the names of a scope in ascending order, and below each the outline
of its members. It shows every name that can be reached through members, at the end of the one way
that leads to it, and nothing else.
-/
theorem Built.nested_and_outline_exact (h : F.Built) :
    F.Nested ∧
      (∀ s name x, F.symbol? s name = some x ↔ x ∈ F.symbols s ∧ x.name = name) ∧
      (∀ s name, F.locate? s name =
        match F.symbol? s name with
        | some x => some (s, x)
        | none => (F.parent? s).bind fun p => F.locate? p name) ∧
      (∀ s aliasName, F.importedRoot s aliasName =
        match (F.scope? s).bind fun scope => scope.import? aliasName, F.parent? s with
        | some i, _ => .ok i.root
        | none, some p => F.importedRoot p aliasName
        | none, none => .error (.notFound aliasName)) ∧
      (∀ s aliasName, F.importedKey? s aliasName =
        match (F.scope? s).bind fun scope => scope.import? aliasName with
        | some i => some i.key
        | none => (F.parent? s).bind fun p => F.importedKey? p aliasName) ∧
      (∀ s, F.inFunction s = true ↔ ∃ t, F.Around s t ∧ F.kind t = .function) ∧
      (∀ s, F.outline s = (F.sortedSymbols s).map fun x =>
        .mk x.name x.kind (x.ty?.map Ty.text) (x.members?.elim [] F.outline)) ∧
      ∀ s, Outline.Ascending (F.outline s) ∧
        ((Outline.entriesAll (F.outline s)).map Outline.Entry.way).Nodup ∧
        (∀ e, e ∈ Outline.entriesAll (F.outline s) ↔
          ∃ t x, F.Reaches s e.way t x ∧ x.kind = e.kind ∧ x.ty?.map Ty.text = e.type?) ∧
        ∀ way way' t x, F.Reaches s way t x → F.Reaches s way' t x → way = way' := by
  have hn := h.nested
  refine ⟨hn, fun s name x => hn.symbol?_eq_some_iff, hn.locate?_eq, fun s aliasName => ?_,
    fun s aliasName => ?_, hn.inFunction_iff, hn.outline_eq, fun s => ⟨hn.ascending_outline s,
    hn.nodup_ways_outline s, fun e => hn.mem_entries_outline, fun _ _ _ _ => hn.way_unique⟩⟩
  · rw [importedRoot, hn.visibleImport?_eq]
    cases (F.scope? s).bind fun scope => scope.import? aliasName with
    | some i => rfl
    | none => cases F.parent? s <;> rfl
  · rw [importedKey?, hn.visibleImport?_eq]
    cases (F.scope? s).bind fun scope => scope.import? aliasName with
    | some i => rfl
    | none => cases F.parent? s <;> rfl

/-- A scope that declares a function and a type, which has one member. -/
def typeWithField : ScopeForest :=
  [.openScope none .global, .declare 0 ⟨"f", Span.nowhere⟩ .func none,
    .declare 0 ⟨"T", Span.nowhere⟩ .type none,
    .declare 2 ⟨"x", Span.nowhere⟩ .field none].foldl Change.apply empty

/-- The member of the type is shown, at the end of the way through the type. -/
theorem mem_outline_typeWithField :
    typeWithField.Built ∧ typeWithField.Nested ∧
      ⟨["T", "x"], .field, none⟩ ∈ Outline.entriesAll (typeWithField.outline 0) := by
  have hscope := @Built.change _ (.openScope none .global) .empty nofun
  have hfunc := @Built.change _ (.declare 0 ⟨"f", Span.nowhere⟩ .func none) hscope
    (by rintro _ ⟨⟩; decide)
  have htype := @Built.change _ (.declare 0 ⟨"T", Span.nowhere⟩ .type none) hfunc
    (by rintro _ ⟨⟩; decide)
  have hbuilt : typeWithField.Built :=
    @Built.change _ (.declare 2 ⟨"x", Span.nowhere⟩ .field none) htype (by rintro _ ⟨⟩; decide)
  obtain ⟨hnested, -, -, -, -, -, -, houtline⟩ := hbuilt.nested_and_outline_exact
  obtain ⟨-, -, hmem, -⟩ := houtline 0
  have hway : typeWithField.Reaches 0 ["T", "x"] 2 ⟨"x", .field, none, Span.nowhere, none⟩ :=
    .inside (x := ⟨"T", .type, none, Span.nowhere, some 2⟩)
      (List.mem_cons_of_mem _ (List.mem_cons_self ..)) rfl
      (.here (x := ⟨"x", .field, none, Span.nowhere, none⟩) (List.mem_cons_self ..))
  exact ⟨hbuilt, hnested, (hmem _).mpr ⟨2, _, hway, rfl, rfl⟩⟩

end ScopeForest

end Sable
