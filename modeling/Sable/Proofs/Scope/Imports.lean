import Mathlib.Logic.Function.Basic
import Sable.Proofs.Scope.Nearest

/-!
# Import tables

What a scope imports can be read as two tables: one from aliases to the outermost scopes of the
imported modules, one from aliases to the keys of the modules. The tables have the same aliases,
and no two aliases stand for one key. So the answer to one more import does not depend on the order
in which the tables are searched, and a walk outward along the one table ends where a walk along the
other one does.
-/

namespace Sable.ScopeForest

/-- What the aliases of a scope stand for. -/
@[ext]
structure ImportTables where
  /-- The outermost scope of the module that an alias stands for. -/
  root? : String → Option ScopeId
  /-- The key of the module that an alias stands for. -/
  key? : String → Option String

namespace ImportTables

/-- Enters a module under its alias into both tables. -/
def enter (T : ImportTables) (i : ImportBinding) : ImportTables :=
  ⟨Function.update T.root? i.aliasName (some i.root),
    Function.update T.key? i.aliasName (some i.key)⟩

theorem root?_enter (T : ImportTables) (i : ImportBinding) (a : String) :
    (T.enter i).root? a = if a = i.aliasName then some i.root else T.root? a :=
  Function.update_apply ..

theorem key?_enter (T : ImportTables) (i : ImportBinding) (a : String) :
    (T.enter i).key? a = if a = i.aliasName then some i.key else T.key? a :=
  Function.update_apply ..

/-- The tables have the same aliases, and a key has one alias at most. -/
structure Consistent (T : ImportTables) : Prop where
  /-- An alias stands in both tables, or in none. -/
  isSome_eq : ∀ a, (T.root? a).isSome = (T.key? a).isSome
  /-- Two aliases stand for different keys. -/
  key?_inj : ∀ {a b k}, T.key? a = some k → T.key? b = some k → a = b

/--
How one more import is answered, whichever entry a search for its key comes upon: a key that stands
in the table already is refused before an alias that does.
-/
inductive Answers (T : ImportTables) (i : ImportBinding) : Except ImportError ImportTables → Prop
  | alreadyImported : T.key? i.aliasName = some i.key → Answers T i (.error (.alreadyImported i.key))
  | alreadyImportedAs {a : String} : T.key? a = some i.key → a ≠ i.aliasName →
    Answers T i (.error (.alreadyImportedAs i.key a))
  | aliasInUse {k : String} : (∀ a, T.key? a ≠ some i.key) → T.key? i.aliasName = some k →
    Answers T i (.error (.aliasInUse i.aliasName k))
  | entered : (∀ a, T.key? a ≠ some i.key) → T.key? i.aliasName = none → Answers T i (.ok (T.enter i))

variable {T : ImportTables} {i : ImportBinding} {r r' : Except ImportError ImportTables}

/-- If a key has one alias at most, there is one answer. -/
theorem Answers.unique (hT : T.Consistent) (h : T.Answers i r) (h' : T.Answers i r') : r = r' := by
  cases h with
  | alreadyImported hkey =>
    cases h' with
    | alreadyImported _ => rfl
    | alreadyImportedAs hkey' hne => exact absurd (hT.key?_inj hkey' hkey) hne
    | aliasInUse hfree _ => exact absurd hkey (hfree _)
    | entered hfree _ => exact absurd hkey (hfree _)
  | alreadyImportedAs hkey hne =>
    cases h' with
    | alreadyImported hkey' => exact absurd (hT.key?_inj hkey hkey') hne
    | alreadyImportedAs hkey' _ => rw [hT.key?_inj hkey hkey']
    | aliasInUse hfree _ => exact absurd hkey (hfree _)
    | entered hfree _ => exact absurd hkey (hfree _)
  | aliasInUse hfree halias =>
    cases h' with
    | alreadyImported hkey => exact absurd hkey (hfree _)
    | alreadyImportedAs hkey _ => exact absurd hkey (hfree _)
    | aliasInUse _ halias' => rw [Option.some.inj (halias.symm.trans halias')]
    | entered _ hnone => cases halias.symm.trans hnone
  | entered hfree hnone =>
    cases h' with
    | alreadyImported hkey => exact absurd hkey (hfree _)
    | alreadyImportedAs hkey _ => exact absurd hkey (hfree _)
    | aliasInUse _ halias => cases halias.symm.trans hnone
    | entered _ _ => rfl

/-- An import is entered only if its alias and its key are free. -/
theorem Answers.free {T' : ImportTables} (h : T.Answers i (.ok T')) :
    T.key? i.aliasName = none ∧ ∀ a, T.key? a ≠ some i.key := by
  generalize hr : Except.ok T' = r at h
  cases h with
  | entered hfree hnone => exact ⟨hnone, hfree⟩
  | _ => cases hr

end ImportTables

/-- What the aliases of a scope itself stand for. -/
def tables (F : ScopeForest) (s : ScopeId) : ImportTables where
  root? a := ((F.scope? s).bind fun scope => scope.import? a).map ImportBinding.root
  key? := F.importedHere? s

variable {F G : ScopeForest} {s t : ScopeId}

/-- A scope uses an alias itself. -/
def BindsAlias (F : ScopeForest) (a : String) (s : ScopeId) : Prop :=
  ∃ b ∈ F.imports s, b.aliasName = a

theorem root?_tables (F : ScopeForest) (s : ScopeId) (a : String) : (F.tables s).root? a =
    ((F.scope? s).bind fun scope => scope.import? a).map ImportBinding.root := rfl

theorem key?_tables (F : ScopeForest) (s : ScopeId) (a : String) : (F.tables s).key? a =
    ((F.scope? s).bind fun scope => scope.import? a).map ImportBinding.key := rfl

/-! ### Every key and every alias once -/

/-- Every scope imports a module once, and uses an alias once. -/
structure ImportsOnce (F : ScopeForest) : Prop where
  /-- An alias stands for one module. -/
  aliases_nodup : ∀ s, ((F.imports s).map ImportBinding.aliasName).Nodup
  /-- A module is imported under one alias. -/
  keys_nodup : ∀ s, ((F.imports s).map ImportBinding.key).Nodup

theorem importOf?_scope? (F : ScopeForest) (s : ScopeId) (key : String) :
    ((F.scope? s).bind fun scope => scope.importOf? key) =
      (F.imports s).find? fun b => b.key == key := by
  cases h : F.scope? s <;> simp [imports, h, Scope.importOf?]

/-- A declaration imports nothing. -/
theorem imports_declare {name : Ident} {kind : SymbolKind} {ty? : Option Ty}
    {members? : Option ScopeId} (h : F.declare s name kind ty? = .ok (members?, G)) (t : ScopeId) :
    G.imports t = F.imports t := by
  have hadd : ∀ (H : ScopeForest) (x : Symbol), (H.modify s fun scope =>
      { scope with symbols := scope.symbols ++ [x] }).imports t = H.imports t :=
    fun H x => imports_modify H s t fun _ => rfl
  unfold declare at h
  split at h
  · cases h
  cases hkind : kind.opensScope
  · simp only [hkind, Bool.false_eq_true, ↓reduceIte] at h
    obtain ⟨-, rfl⟩ := Prod.mk.inj (Except.ok.inj h)
    exact hadd F _
  · simp only [hkind, ↓reduceIte] at h
    obtain ⟨-, rfl⟩ := Prod.mk.inj (Except.ok.inj h)
    exact (hadd _ _).trans (imports_openScope ..)

/-- The key of an import that is not refused was free. -/
theorem key_not_mem_of_addImport {i : ImportBinding} (h : F.addImport s i = .ok G) :
    i.key ∉ (F.imports s).map ImportBinding.key := by
  rw [addImport, importOf?_scope?] at h
  split at h
  · split at h <;> cases h
  · next hfree => simpa using hfree

namespace ImportsOnce

theorem of_imports (h : F.ImportsOnce) (himports : ∀ s, G.imports s = F.imports s) :
    G.ImportsOnce :=
  ⟨fun s => himports s ▸ h.aliases_nodup s, fun s => himports s ▸ h.keys_nodup s⟩

/-- An import that is not refused adds a free alias and a free key. -/
theorem addImport (h : F.ImportsOnce) {s : Nat} (hs : s < F.size) {i : ImportBinding}
    (hi : F.addImport s i = .ok G) : G.ImportsOnce := by
  have hbinds := binds_of_addImport hs hi
  have hkey := key_not_mem_of_addImport hi
  constructor
  · intro t
    rw [hbinds.imports]
    split
    · next ht =>
      rw [List.map_append]
      exact (h.aliases_nodup t).append (List.nodup_singleton _) (by simpa [ht] using hbinds.fresh)
    · exact h.aliases_nodup t
  · intro t
    rw [hbinds.imports]
    split
    · next ht =>
      rw [List.map_append]
      exact (h.keys_nodup t).append (List.nodup_singleton _) (by simpa [ht] using hkey)
    · exact h.keys_nodup t

/-- A change leaves every key and every alias of a scope once. -/
theorem apply (h : F.ImportsOnce) {change : Change} (hs : ∀ s ∈ change.scope?, s < F.size) :
    (change.apply F).ImportsOnce := by
  cases change with
  | openScope parent? kind => exact h.of_imports (imports_openScope F parent? kind)
  | declare s name kind ty? =>
    simp only [Change.apply]
    cases hd : F.declare s name kind ty? with
    | ok r => exact h.of_imports (imports_declare hd)
    | error e => exact h
  | setKind s kind => exact h.of_imports fun t => imports_modify F s t fun _ => rfl
  | setType s name ty => exact h.of_imports fun t => imports_modify F s t fun _ => rfl
  | setSymbolKind s name kind => exact h.of_imports fun t => imports_modify F s t fun _ => rfl
  | addImport s i =>
    simp only [Change.apply]
    cases hi : F.addImport s i with
    | ok G => exact h.addImport (hs s rfl) hi
    | error e => exact h

/-- An alias stands for the module that is imported under it. -/
theorem import?_eq_some_iff (h : F.ImportsOnce) {a : String} {b : ImportBinding} :
    ((F.scope? s).bind fun scope => scope.import? a) = some b ↔
      b ∈ F.imports s ∧ b.aliasName = a := by
  rw [import?_scope?]
  constructor
  · intro hfind
    exact ⟨List.mem_of_find?_eq_some hfind, by simpa using List.find?_some hfind⟩
  · rintro ⟨hb, rfl⟩
    cases hfind : (F.imports s).find? fun c => c.aliasName == b.aliasName with
    | none => simpa using List.find?_eq_none.mp hfind b hb
    | some c =>
      have hc : c.aliasName = b.aliasName := by simpa using List.find?_some hfind
      rw [List.inj_on_of_nodup_map (h.aliases_nodup s) (List.mem_of_find?_eq_some hfind) hb hc]

theorem key?_eq_some_iff (h : F.ImportsOnce) {a k : String} :
    (F.tables s).key? a = some k ↔ ∃ b ∈ F.imports s, b.aliasName = a ∧ b.key = k := by
  simp only [key?_tables, Option.map_eq_some_iff, h.import?_eq_some_iff, and_assoc]

theorem consistent (h : F.ImportsOnce) (s : ScopeId) : (F.tables s).Consistent where
  isSome_eq a := by rw [root?_tables, key?_tables, Option.isSome_map, Option.isSome_map]
  key?_inj ha hb := by
    obtain ⟨b, hbmem, rfl, rfl⟩ := h.key?_eq_some_iff.mp ha
    obtain ⟨c, hcmem, rfl, hkey⟩ := h.key?_eq_some_iff.mp hb
    rw [List.inj_on_of_nodup_map (h.keys_nodup s) hbmem hcmem hkey.symm]

end ImportsOnce

/-- Whatever changes are made, every scope has every key and every alias once. -/
theorem Built.importsOnce (h : F.Built) : F.ImportsOnce := by
  induction h with
  | empty =>
    have hnone : ∀ s, ScopeForest.empty.imports s = [] := by
      simp [ScopeForest.empty, ScopeForest.imports, ScopeForest.scope?]
    exact ⟨fun s => hnone s ▸ List.nodup_nil, fun s => hnone s ▸ List.nodup_nil⟩
  | change _ hs ih => exact ih.apply hs

/-! ### One more import -/

/-- An import that is not refused is entered into the tables of its scope. -/
theorem Binds.tables_eq {i : ImportBinding} (h : F.Binds s i G) (t : ScopeId) :
    G.tables t = if t = s then (F.tables t).enter i else F.tables t := by
  by_cases ht : t = s
  · subst ht
    have hfind : ∀ a, ((G.scope? t).bind fun scope => scope.import? a) =
        if a = i.aliasName then some i else (F.scope? t).bind fun scope => scope.import? a := by
      intro a
      rw [import?_scope?, import?_scope?, h.imports, if_pos rfl, List.find?_append,
        List.find?_singleton]
      by_cases ha : a = i.aliasName
      · have hnone : (F.imports t).find? (fun b => b.aliasName == a) = none :=
          List.find?_eq_none.mpr fun b hb he =>
            h.fresh (List.mem_map.mpr ⟨b, hb, (beq_iff_eq.mp he).trans ha⟩)
        rw [hnone, Option.none_or, if_pos (beq_iff_eq.mpr ha.symm), if_pos ha]
      · rw [if_neg fun he => ha (beq_iff_eq.mp he).symm, Option.or_none, if_neg ha]
    rw [if_pos rfl]
    refine ImportTables.ext (funext fun a => ?_) (funext fun a => ?_)
    · rw [root?_tables, hfind, ImportTables.root?_enter, root?_tables]
      split <;> rfl
    · rw [key?_tables, hfind, ImportTables.key?_enter, key?_tables]
      split <;> rfl
  · have himports : G.imports t = F.imports t := by rw [h.imports, if_neg ht]
    rw [if_neg ht]
    refine ImportTables.ext (funext fun a => ?_) (funext fun a => ?_)
    · rw [root?_tables, import?_scope?, himports, root?_tables, import?_scope?]
    · rw [key?_tables, import?_scope?, himports, key?_tables, import?_scope?]

/-- An import is answered as the tables of its scope say. -/
theorem ImportsOnce.answers (h : F.ImportsOnce) {s : Nat} (hs : s < F.size) (i : ImportBinding) :
    (F.tables s).Answers i ((F.addImport s i).map fun G => G.tables s) := by
  cases hadd : F.addImport s i with
  | ok G =>
    have hbinds := binds_of_addImport hs hadd
    have hkey := key_not_mem_of_addImport hadd
    rw [Except.map, hbinds.tables_eq, if_pos rfl]
    refine .entered (fun a ha => ?_) (Option.eq_none_iff_forall_ne_some.mpr fun k hk => ?_)
    · obtain ⟨b, hb, -, hbk⟩ := h.key?_eq_some_iff.mp ha
      exact hkey (List.mem_map.mpr ⟨b, hb, hbk⟩)
    · obtain ⟨b, hb, hba, -⟩ := h.key?_eq_some_iff.mp hk
      exact hbinds.fresh (List.mem_map.mpr ⟨b, hb, hba⟩)
  | error e =>
    rw [Except.map]
    rw [ScopeForest.addImport, importOf?_scope?] at hadd
    split at hadd
    · next b hfind =>
      have hb := List.mem_of_find?_eq_some hfind
      have hkey : b.key = i.key := by simpa using List.find?_some hfind
      split at hadd
      · next halias =>
        cases hadd
        exact .alreadyImported (h.key?_eq_some_iff.mpr ⟨b, hb, halias, hkey⟩)
      · next halias =>
        cases hadd
        exact .alreadyImportedAs (h.key?_eq_some_iff.mpr ⟨b, hb, rfl, hkey⟩) halias
    · next hfree =>
      split at hadd
      · next b hfind =>
        cases hadd
        refine .aliasInUse (fun a ha => ?_) ?_
        · obtain ⟨c, hc, -, hck⟩ := h.key?_eq_some_iff.mp ha
          simpa [hck] using List.find?_eq_none.mp hfree c hc
        · obtain ⟨hb, halias⟩ := h.import?_eq_some_iff.mp hfind
          exact h.key?_eq_some_iff.mpr ⟨b, hb, halias, rfl⟩
      · cases hadd

/-! ### Walks outward -/

/-- An alias is in use just if it stands for something. -/
theorem bindsAlias_iff {a : String} :
    F.BindsAlias a s ↔ ((F.scope? s).bind fun scope => scope.import? a) ≠ none := by
  rw [import?_scope?, ne_eq, List.find?_eq_none, BindsAlias]
  simp

section Walks

variable {a : String}

/-- An alias stands for what it does in the nearest scope that uses it. -/
theorem Nested.visibleImport?_eq_some_iff (h : F.Nested) (honce : F.ImportsOnce)
    {b : ImportBinding} : F.visibleImport? s a = some b ↔
      ∃ t, F.Sees (F.BindsAlias a) s t ∧ b ∈ F.imports t ∧ b.aliasName = a := by
  have hP : F.BindsAlias a =
      fun u => ((F.scope? u).bind fun scope => scope.import? a) ≠ none :=
    funext fun u => propext bindsAlias_iff
  rw [visibleImport?, h.findSome?_chain_eq_some_iff fun u hu => by
    rw [scope?_eq_none hu, Option.bind_none], hP]
  simp only [honce.import?_eq_some_iff]

/-- An alias stands for nothing just if no scope around uses it. -/
theorem Nested.visibleImport?_eq_none_iff (h : F.Nested) :
    F.visibleImport? s a = none ↔ ∀ t, F.Around s t → ¬ F.BindsAlias a t := by
  rw [visibleImport?, h.findSome?_chain_eq_none_iff fun u hu => by
    rw [scope?_eq_none hu, Option.bind_none]]
  simp only [bindsAlias_iff, not_not]

end Walks

end Sable.ScopeForest
