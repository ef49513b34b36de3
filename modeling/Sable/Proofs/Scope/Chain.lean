import Sable.Scope
import Mathlib.Data.List.Nodup
import Mathlib.Data.List.Infix

/-!
# Chains of scopes

A scope lies in the tree of another one if that one is on its chain. Module roots stand side
by side below the scope of the builtin types, so every scope lies in the tree of at most one of
them, and looking a name up from inside a tree ends in that tree or at the builtin types.
-/

namespace Sable.ScopeForest

/-- A forest as opening scopes, declaring names and importing modules leaves it. -/
structure Sound (F : ScopeForest) : Prop where
  /-- The scope of the builtin types is open. -/
  base : 0 < F.size
  /-- A scope is opened behind the scope around it. -/
  parent_lt : ∀ {s p : Nat}, F.parent? s = some p → p < s
  /-- The scope of the builtin types lies in no other one. -/
  outermost : F.parent? 0 = none
  /-- The scope of the builtin types declares nothing else. -/
  builtin : ∀ x ∈ F.symbols 0, (Primitive.ofName? x.name).isSome
  /-- The members of a name lie in the scope that declares it. -/
  members : ∀ {s x t}, x ∈ F.symbols s → x.members? = some t → F.parent? t = some s
  /-- A scope binds an alias once. -/
  aliases_nodup : ∀ s, ((F.imports s).map ImportBinding.aliasName).Nodup

variable {F : ScopeForest}

theorem lt_size_of_parent? {s p : Nat} (h : F.parent? s = some p) : s < F.size := by
  by_contra hs
  have hnone : F.scope? s = none := Array.getElem?_eq_none (Nat.le_of_not_lt hs)
  simp [parent?, hnone] at h

theorem lt_size_of_mem_imports {s : Nat} {b : ImportBinding} (h : b ∈ F.imports s) :
    s < F.size := by
  by_contra hs
  have hnone : F.scope? s = none := Array.getElem?_eq_none (Nat.le_of_not_lt hs)
  simp [imports, hnone] at h

theorem lt_size_of_symbol? {s : Nat} {name : String} {x : Symbol} (h : F.symbol? s name = some x) :
    s < F.size := by
  by_contra hs
  have hnone : F.scope? s = none := Array.getElem?_eq_none (Nat.le_of_not_lt hs)
  simp [symbol?, hnone] at h

theorem exists_scope? {s : ScopeId} (h : s < F.size) : ∃ scope, F.scope? s = some scope :=
  ⟨_, Array.getElem?_eq_getElem h⟩

theorem scope?_eq_none {s : ScopeId} (h : F.size ≤ s) : F.scope? s = none :=
  Array.getElem?_eq_none h

theorem scope?_eq_none_iff {s : ScopeId} : F.scope? s = none ↔ F.size ≤ s :=
  Array.getElem?_eq_none_iff

/-! ### Chains by the scopes on them -/

private theorem chainWithin_succ (n s : Nat) (hs : s < F.size) :
    F.chainWithin (n + 1) s =
      s :: match F.parent? s with
        | some p => F.chainWithin n p
        | none => [] := by
  obtain ⟨scope, hscope⟩ := exists_scope? hs
  cases hp : scope.parent? <;> simp [chainWithin, parent?, hscope, hp]

/-- Any depth that exceeds the number of a scope reaches to the end of its chain. -/
private theorem chainWithin_eq (hlt : ∀ {s p : Nat}, F.parent? s = some p → p < s) {n m s : Nat}
    (hn : s < n) (hm : s < m) : F.chainWithin n s = F.chainWithin m s := by
  induction n generalizing m s with
  | zero => omega
  | succ n ih =>
    obtain ⟨m, rfl⟩ : ∃ k, m = k + 1 := ⟨m - 1, by omega⟩
    by_cases hs : s < F.size
    · rw [chainWithin_succ n s hs, chainWithin_succ m s hs]
      cases hp : F.parent? s with
      | none => rfl
      | some p =>
        have hps := hlt hp
        exact congrArg _ (ih (hps.trans_le (Nat.le_of_lt_succ hn))
          (hps.trans_le (Nat.le_of_lt_succ hm)))
    · simp [chainWithin, scope?_eq_none (Nat.le_of_not_lt hs)]

/-- Where numbers fall on the way outward, a chain goes on with that of the scope around. -/
theorem chain_of_parent_lt (hlt : ∀ {s p : Nat}, F.parent? s = some p → p < s) {s p : ScopeId}
    (hp : F.parent? s = some p) : F.chain s = s :: F.chain p := by
  rw [chain, chainWithin_succ s s (lt_size_of_parent? hp), hp]
  exact congrArg _ (chainWithin_eq hlt (hlt hp) (Nat.lt_succ_self p))

theorem chain_of_parent? (h : F.Sound) {s p : ScopeId} (hp : F.parent? s = some p) :
    F.chain s = s :: F.chain p := chain_of_parent_lt h.parent_lt hp

theorem chain_of_outermost {s : Nat} (hs : s < F.size) (hp : F.parent? s = none) :
    F.chain s = [s] := by
  rw [chain, chainWithin_succ s s hs, hp]

theorem chain_of_size_le {s : ScopeId} (hs : F.size ≤ s) : F.chain s = [] := by
  simp [chain, chainWithin, scope?_eq_none hs]

/-- The chain of a scope starts at the scope. -/
theorem mem_chain_self {s : ScopeId} (hs : s < F.size) : s ∈ F.chain s := by
  rw [chain, chainWithin_succ s s hs]
  exact List.mem_cons_self ..

theorem lt_size_of_mem_chain {r s : Nat} (h : r ∈ F.chain s) : s < F.size := by
  by_contra hs
  simp [chain_of_size_le (Nat.le_of_not_lt hs)] at h

/-- There are only opened scopes on a chain. -/
theorem mem_chain_lt_size (h : F.Sound) {r s : Nat} (hr : r ∈ F.chain s) : r < F.size := by
  induction s using Nat.strong_induction_on with
  | _ s ih =>
    have hs := lt_size_of_mem_chain hr
    cases hp : F.parent? s with
    | none =>
      rw [chain_of_outermost hs hp, List.mem_singleton] at hr
      exact hr ▸ hs
    | some p =>
      rw [chain_of_parent? h hp] at hr
      rcases List.mem_cons.mp hr with rfl | hr
      · exact hs
      · exact ih p (h.parent_lt hp) hr

/-- The numbers fall on the way outward. -/
theorem le_of_mem_chain (h : F.Sound) {r s : Nat} (hr : r ∈ F.chain s) : r ≤ s := by
  induction s using Nat.strong_induction_on with
  | _ s ih =>
    cases hp : F.parent? s with
    | none =>
      rw [chain_of_outermost (lt_size_of_mem_chain hr) hp, List.mem_singleton] at hr
      exact hr.le
    | some p =>
      have hlt := h.parent_lt hp
      rw [chain_of_parent? h hp] at hr
      rcases List.mem_cons.mp hr with rfl | hr
      · exact le_refl _
      · have := ih p hlt hr
        omega

/-- The chain of a scope ends with the chain of every scope on it. -/
theorem chain_suffix (h : F.Sound) {r s : ScopeId} (hr : r ∈ F.chain s) :
    F.chain r <:+ F.chain s := by
  induction s using Nat.strong_induction_on with
  | _ s ih =>
    cases hp : F.parent? s with
    | none =>
      rw [chain_of_outermost (lt_size_of_mem_chain hr) hp, List.mem_singleton] at hr
      exact hr ▸ List.suffix_rfl
    | some p =>
      rw [chain_of_parent? h hp] at hr ⊢
      rcases List.mem_cons.mp hr with rfl | hr
      · rw [chain_of_parent? h hp]
      · exact (ih p (h.parent_lt hp) hr).trans (List.suffix_cons ..)

/-- A scope opened below one in a tree lies in the tree as well. -/
theorem mem_chain_of_parent? (h : F.Sound) {r s t : ScopeId} (hr : r ∈ F.chain s)
    (ht : F.parent? t = some s) : r ∈ F.chain t := by
  rw [chain_of_parent? h ht]
  exact List.mem_cons_of_mem _ hr

/-! ### Trees below the builtin types -/

/-- The chain of a scope right below the builtin types. -/
theorem chain_of_root (h : F.Sound) {r : ScopeId} (hr : F.parent? r = some 0) :
    F.chain r = [r, 0] := by
  rw [chain_of_parent? h hr, chain_of_outermost h.base h.outermost]

/-- The tree of a scope right below the builtin types does not hold these. -/
theorem ne_zero_of_mem_chain (h : F.Sound) {r s : Nat} (hr : F.parent? r = some 0)
    (hs : r ∈ F.chain s) : s ≠ 0 := by
  rintro rfl
  rw [chain_of_outermost (lt_size_of_mem_chain hs) h.outermost, List.mem_singleton] at hs
  have := h.parent_lt hr
  omega

/-- A scope lies in the tree of only one of the scopes right below the builtin types. -/
theorem root_unique (h : F.Sound) {r r' s : ScopeId} (hr : F.parent? r = some 0)
    (hr' : F.parent? r' = some 0) (hs : r ∈ F.chain s) (hs' : r' ∈ F.chain s) : r = r' := by
  have hsuffix := chain_suffix h hs
  have hsuffix' := chain_suffix h hs'
  rw [chain_of_root h hr] at hsuffix
  rw [chain_of_root h hr'] at hsuffix'
  have := (List.suffix_of_suffix_length_le hsuffix hsuffix' (by simp)).eq_of_length (by simp)
  exact (List.cons.inj this).1

/-- The chain of a scope in a tree holds scopes of the tree and that of the builtin types. -/
theorem mem_chain_or_eq_zero (h : F.Sound) {r s t : ScopeId} (hr : F.parent? r = some 0)
    (hs : r ∈ F.chain s) (ht : t ∈ F.chain s) : r ∈ F.chain t ∨ t = 0 := by
  induction s using Nat.strong_induction_on with
  | _ s ih =>
    have hroot := chain_of_root h hr
    rcases eq_or_ne r s with rfl | hne
    · rw [hroot] at ht
      rcases List.mem_cons.mp ht with rfl | ht
      · exact Or.inl hs
      · exact Or.inr (List.mem_singleton.mp ht)
    · cases hp : F.parent? s with
      | none =>
        rw [chain_of_outermost (lt_size_of_mem_chain hs) hp, List.mem_singleton] at hs
        exact absurd hs hne
      | some p =>
        rcases eq_or_ne t s with rfl | hts
        · exact Or.inl hs
        · rw [chain_of_parent? h hp] at hs ht
          exact ih p (h.parent_lt hp) (List.mem_of_ne_of_mem hne hs)
            (List.mem_of_ne_of_mem hts ht)

/-! ### What is found from inside a tree -/

theorem mem_symbols_of_symbol? {s : ScopeId} {name : String} {x : Symbol}
    (h : F.symbol? s name = some x) : x ∈ F.symbols s ∧ x.name = name := by
  cases hs : F.scope? s with
  | none => simp [symbol?, hs] at h
  | some scope =>
    simp only [symbol?, hs, Option.bind_some, Scope.find?] at h
    exact ⟨by simpa [symbols, hs] using List.mem_of_find?_eq_some h,
      by simpa using List.find?_some h⟩

/-- A name means what a scope on the chain declares. -/
theorem mem_chain_of_locate? {s t : ScopeId} {name : String} {x : Symbol}
    (h : F.locate? s name = some (t, x)) : t ∈ F.chain s ∧ F.symbol? t name = some x := by
  obtain ⟨u, hu, hfind⟩ := List.exists_of_findSome?_eq_some h
  obtain ⟨z, hz, he⟩ := Option.map_eq_some_iff.mp hfind
  obtain ⟨rfl, rfl⟩ := Prod.mk.inj he
  exact ⟨hu, hz⟩

theorem exists_of_visible? {s : ScopeId} {name : String} {x : Symbol}
    (h : F.visible? s name = some x) : ∃ t ∈ F.chain s, F.symbol? t name = some x := by
  obtain ⟨⟨t, y⟩, hlocate, rfl⟩ := Option.map_eq_some_iff.mp h
  exact ⟨t, mem_chain_of_locate? hlocate⟩

theorem exists_of_visibleImport? {s : ScopeId} {aliasName : String} {b : ImportBinding}
    (h : F.visibleImport? s aliasName = some b) : ∃ t ∈ F.chain s, b ∈ F.imports t := by
  obtain ⟨t, ht, hfind⟩ := List.exists_of_findSome?_eq_some h
  obtain ⟨scope, hscope, himport⟩ := Option.bind_eq_some_iff.mp hfind
  exact ⟨t, ht, by simpa [imports, hscope] using List.mem_of_find?_eq_some himport⟩

/-- From a scope, an alias that it binds itself stands for what it is bound to. -/
theorem visibleImport?_of_mem (h : F.Sound) {s : ScopeId} {b : ImportBinding}
    (hb : b ∈ F.imports s) : F.visibleImport? s b.aliasName = some b := by
  have hs := lt_size_of_mem_imports hb
  obtain ⟨scope, hscope⟩ := exists_scope? hs
  have himports : F.imports s = scope.imports := by simp [imports, hscope]
  have hsome : (scope.import? b.aliasName).isSome :=
    List.find?_isSome.mpr ⟨b, himports ▸ hb, by simp⟩
  obtain ⟨b', hb'⟩ := Option.isSome_iff_exists.mp hsome
  have hmem : b' ∈ F.imports s := himports ▸ List.mem_of_find?_eq_some hb'
  have halias : b'.aliasName = b.aliasName := by simpa using List.find?_some hb'
  obtain rfl := List.inj_on_of_nodup_map (h.aliases_nodup s) hmem hb halias
  rw [visibleImport?, chain, chainWithin_succ s s hs, List.findSome?_cons, hscope, Option.bind_some,
    hb']

/-- The members of a declaration in a tree lie in the tree. -/
theorem declaredMembers?_mem (h : F.Sound) {r s t : ScopeId} {name : Ident}
    (hs : r ∈ F.chain s) (ht : F.declaredMembers? s name = some t) : r ∈ F.chain t := by
  cases hx : F.symbol? s name.name with
  | none => simp [declaredMembers?, hx] at ht
  | some x =>
    simp only [declaredMembers?, hx] at ht
    split at ht
    · exact mem_chain_of_parent? h hs (h.members (mem_symbols_of_symbol? hx).1 ht)
    · cases ht

/--
The members of what a name means in a tree lie in the tree, unless it is the name of a builtin
type.
-/
theorem visibleMembers_mem (h : F.Sound) {r s t : ScopeId} {name : String} {x : Symbol}
    (hr : F.parent? r = some 0) (hs : r ∈ F.chain s) (hname : Primitive.ofName? name = none)
    (hx : F.visible? s name = some x) (ht : x.members? = some t) : r ∈ F.chain t := by
  obtain ⟨u, hu, hsymbol⟩ := exists_of_visible? hx
  obtain ⟨hmem, rfl⟩ := mem_symbols_of_symbol? hsymbol
  rcases mem_chain_or_eq_zero h hr hs hu with hru | rfl
  · exact mem_chain_of_parent? h hru (h.members hmem ht)
  · simpa [hname] using h.builtin x hmem

/-- The members of a type that a name means in a tree lie in the tree, unless it is builtin. -/
theorem typeMembers?_mem (h : F.Sound) {r s t : ScopeId} {name : String}
    (hr : F.parent? r = some 0) (hs : r ∈ F.chain s) (hname : Primitive.ofName? name = none)
    (ht : F.typeMembers? s name = some t) : r ∈ F.chain t := by
  cases hx : F.visible? s name with
  | none => simp [typeMembers?, hx] at ht
  | some x =>
    simp only [typeMembers?, hx] at ht
    split at ht
    · exact visibleMembers_mem h hr hs hname hx ht
    · cases ht

end Sable.ScopeForest
