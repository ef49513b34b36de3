import Mathlib.Data.List.Induction
import Mathlib.Data.List.Perm.Basic
import Mathlib.Data.String.Basic
import Sable.Ty

/-!
# Fields of struct types

A struct type keeps its fields in a table, in ascending order of their names. The table holds each
name once, with the type that was written last for it, and is determined by that.
-/

namespace Sable.Ty

/-- A table that holds each name of a list of fields once, with the last type that the list has. -/
structure Tabulates (table fields : List (String × Ty)) : Prop where
  /-- The names ascend. -/
  ascending : table.Pairwise fun x y => x.1 < y.1
  /-- A name has the type of its last field. -/
  mem_iff : ∀ name t, (name, t) ∈ table ↔
    ∃ before after, fields = before ++ (name, t) :: after ∧ name ∉ after.map Prod.fst

variable {name other : String} {t u : Ty} {table table' fields : List (String × Ty)}

/-- Binding a name replaces what it was bound to, and leaves all other names. -/
theorem mem_insertField_iff (h : table.Pairwise fun x y => x.1 < y.1) :
    (other, u) ∈ insertField name t table ↔
      other = name ∧ u = t ∨ other ≠ name ∧ (other, u) ∈ table := by
  induction table with
  | nil =>
    rw [insertField, List.mem_singleton, Prod.mk.injEq]
    simp
  | cons field table ih =>
    obtain ⟨first, v⟩ := field
    obtain ⟨hlt, htable⟩ := List.pairwise_cons.mp h
    have hne : (other, u) ∈ table → other ≠ first := fun hmem => (hlt _ hmem).ne'
    rw [insertField]
    split
    · next heq =>
      subst heq
      simp only [List.mem_cons, Prod.mk.injEq]
      grind
    · next hdiff =>
      split
      · next hbefore =>
        have hname : (other, u) ∈ table → other ≠ name :=
          fun hmem => (hbefore.trans (hlt _ hmem)).ne'
        simp only [List.mem_cons, Prod.mk.injEq]
        grind
      · simp only [List.mem_cons, Prod.mk.injEq, ih htable]
        grind

/-- Binding a name keeps the names in ascending order. -/
theorem pairwise_insertField (name : String) (t : Ty)
    (h : table.Pairwise fun x y => x.1 < y.1) :
    (insertField name t table).Pairwise fun x y => x.1 < y.1 := by
  induction table with
  | nil => exact List.pairwise_singleton ..
  | cons field table ih =>
    obtain ⟨first, v⟩ := field
    obtain ⟨hlt, htable⟩ := List.pairwise_cons.mp h
    rw [insertField]
    split
    · next heq => exact List.pairwise_cons.mpr ⟨heq ▸ hlt, htable⟩
    · next hne =>
      split
      · next hbefore =>
        refine List.pairwise_cons.mpr ⟨fun x hx => ?_, h⟩
        rcases List.mem_cons.mp hx with rfl | hx
        · exact hbefore
        · exact hbefore.trans (hlt x hx)
      · next hafter =>
        have hfirst : first < name := lt_of_le_of_ne (not_lt.mp hafter) (Ne.symm hne)
        refine List.pairwise_cons.mpr ⟨fun x hx => ?_, ih htable⟩
        rcases (mem_insertField_iff htable).mp hx with ⟨hname, -⟩ | ⟨-, hx⟩
        · exact hname ▸ hfirst
        · exact hlt x hx

/-- One more field is bound in place of those of its name before it. -/
theorem Tabulates.insertField (h : Tabulates table fields) (name : String) (t : Ty) :
    Tabulates (insertField name t table) (fields ++ [(name, t)]) where
  ascending := pairwise_insertField name t h.ascending
  mem_iff other u := by
    rw [mem_insertField_iff h.ascending, h.mem_iff]
    constructor
    · rintro (⟨rfl, rfl⟩ | ⟨hne, before, after, rfl, hlast⟩)
      · exact ⟨fields, [], rfl, by simp⟩
      · exact ⟨before, after ++ [(name, t)], by simp, by simpa [hne] using hlast⟩
    · rintro ⟨before, after, hfields, hlast⟩
      rcases List.eq_nil_or_concat after with rfl | ⟨after, last, rfl⟩
      · obtain ⟨-, hfield⟩ := List.append_inj' hfields rfl
        exact Or.inl (Prod.mk.inj (List.singleton_inj.mp hfield.symm))
      · rw [List.concat_eq_append, ← List.cons_append, ← List.append_assoc] at hfields
        obtain ⟨rfl, hfield⟩ := List.append_inj' hfields rfl
        obtain rfl := List.singleton_inj.mp hfield
        rw [List.concat_eq_append, List.map_append, List.mem_append, not_or] at hlast
        exact Or.inr ⟨by simpa using hlast.2, before, after, rfl, hlast.1⟩

/-- Fields are kept in a table of them. -/
theorem exists_structOf (name : String) (fields : List (String × Ty)) :
    ∃ table, structOf name fields = .struct name table ∧ Tabulates table fields := by
  refine ⟨_, rfl, ?_⟩
  induction fields using List.reverseRecOn with
  | nil => exact ⟨.nil, by simp⟩
  | append_singleton fields field ih =>
    rw [List.foldl_append]
    exact ih.insertField field.1 field.2

/-- Only one table is one of given fields. -/
theorem Tabulates.unique (h : Tabulates table fields) (h' : Tabulates table' fields) :
    table = table' := by
  have hnodup : ∀ {l : List (String × Ty)}, l.Pairwise (fun x y => x.1 < y.1) → l.Nodup :=
    fun hl => hl.imp fun hlt heq => hlt.ne (congrArg Prod.fst heq)
  have hperm := (List.perm_ext_iff_of_nodup (hnodup h.ascending) (hnodup h'.ascending)).mpr
    fun field => (h.mem_iff field.1 field.2).trans (h'.mem_iff field.1 field.2).symm
  exact hperm.eq_of_pairwise (fun x y _ _ hxy hyx => absurd hyx hxy.asymm) h.ascending h'.ascending

theorem structOf_eq_iff : structOf name fields = .struct name table ↔ Tabulates table fields := by
  obtain ⟨table', hstruct, htable'⟩ := exists_structOf name fields
  rw [hstruct]
  constructor
  · intro h
    obtain ⟨-, rfl⟩ := Ty.struct.inj h
    exact htable'
  · exact fun h => by rw [htable'.unique h]

/-- The table holds the names of the fields, and no others. -/
theorem Tabulates.mem_names_iff (h : Tabulates table fields) :
    name ∈ table.map Prod.fst ↔ name ∈ fields.map Prod.fst := by
  -- A name in a list of fields has a last field there.
  have hlast : name ∈ fields.map Prod.fst → ∃ t before after,
      fields = before ++ (name, t) :: after ∧ name ∉ after.map Prod.fst := by
    clear h
    induction fields using List.reverseRecOn with
    | nil => exact fun hname => absurd hname List.not_mem_nil
    | append_singleton fields field ih =>
      obtain ⟨other, u⟩ := field
      intro hname
      by_cases hne : name = other
      · exact ⟨u, fields, [], by rw [hne], List.not_mem_nil⟩
      · obtain ⟨t, before, after, rfl, hafter⟩ := ih (by simpa [hne] using hname)
        exact ⟨t, before, after ++ [(other, u)], by simp, by simpa [hne] using hafter⟩
  constructor
  · intro hname
    obtain ⟨⟨_, t⟩, hmem, rfl⟩ := List.mem_map.mp hname
    obtain ⟨before, after, rfl, -⟩ := (h.mem_iff _ t).mp hmem
    simp
  · intro hname
    obtain ⟨t, before, after, hfields, hafter⟩ := hlast hname
    exact List.mem_map_of_mem ((h.mem_iff name t).mpr ⟨before, after, hfields, hafter⟩)

end Sable.Ty
