import Sable.Proofs.Syntax.Paired
import Sable.Proofs.Syntax.Places

/-!
# Prefaces

The preface of a program is the run of imports that it begins with, and its body is the rest. A
program imports first if its body holds no import, however deeply. What a pass does to such a
program falls into two parts: it follows the imports of the preface, and then it walks the body
without turning to any other module.
-/

namespace Sable

/-- The imports that statements begin with. -/
def Stmt.prefaceOf : List Stmt → List Import
  | .importing i :: stmts => i :: Stmt.prefaceOf stmts
  | _ => []

/-- The statements behind the imports that statements begin with. -/
def Stmt.bodyOf : List Stmt → List Stmt
  | .importing _ :: stmts => Stmt.bodyOf stmts
  | stmts => stmts

/-- The imports that a program begins with. -/
def Program.preface (p : Program) : List Import := Stmt.prefaceOf p.stmts

/-- The statements behind the preface. -/
def Program.body (p : Program) : List Stmt := Stmt.bodyOf p.stmts

/-- Whether all imports of a program stand in its preface. -/
def Program.ImportsFirst (p : Program) : Prop := ∀ i, .importing i ∉ Stmt.placesAll p.body

theorem Stmt.prefaceOf_append_bodyOf :
    ∀ stmts : List Stmt, (Stmt.prefaceOf stmts).map .importing ++ Stmt.bodyOf stmts = stmts
  | [] => rfl
  | .importing i :: stmts => by
    rw [Stmt.prefaceOf, Stmt.bodyOf, List.map_cons, List.cons_append,
      Stmt.prefaceOf_append_bodyOf stmts]
  | .function _ :: _ | .method _ _ :: _ | .varDecl _ _ _ _ :: _ | .typeDecl _ :: _
  | .assign _ _ _ :: _ | .conditional _ :: _ | .ret _ _ :: _ | .block _ :: _ | .expr _ :: _ => rfl

/-- A program is its preface followed by its body. -/
theorem Program.preface_append_body (p : Program) :
    p.preface.map .importing ++ p.body = p.stmts := Stmt.prefaceOf_append_bodyOf p.stmts

/-- An import of the preface is enclosed by no function. -/
theorem Program.mem_outerImports_of_mem_preface {p : Program} {i : Import} (h : i ∈ p.preface) :
    i ∈ p.outerImports := by
  refine Stmt.mem_outerImportsAll ?_
  rw [← p.preface_append_body]
  exact List.mem_append_left _ (List.mem_map_of_mem h)

/-- Where imports come first, every import stands in the preface. -/
theorem Program.ImportsFirst.mem_preface {p : Program} (h : p.ImportsFirst) {i : Import}
    (hi : .importing i ∈ p.places) : i ∈ p.preface := by
  obtain ⟨stmt, hstmt, hmem⟩ := Stmt.mem_placesAll.mp hi
  rw [← p.preface_append_body] at hstmt
  rcases List.mem_append.mp hstmt with hstmt | hstmt
  · obtain ⟨j, hj, rfl⟩ := List.mem_map.mp hstmt
    obtain rfl : i = j := by simpa [Stmt.places] using hmem
    exact hj
  · exact absurd (Stmt.mem_placesAll.mpr ⟨stmt, hstmt, hmem⟩) (h i)

/-- A place of the body is a place of the program. -/
theorem Program.placesAll_body_subset (p : Program) : Stmt.placesAll p.body ⊆ p.places := by
  intro q hq
  obtain ⟨stmt, hstmt, hmem⟩ := Stmt.mem_placesAll.mp hq
  refine Stmt.mem_placesAll.mpr ⟨stmt, ?_, hmem⟩
  rw [← p.preface_append_body]
  exact List.mem_append_right _ hstmt

/-! ### The same program twice -/

variable {N T : Span → Span → Prop}

/-- The same statements begin with the same imports, and the same statements follow. -/
theorem Stmt.paired_prefaceOf {xs ys : List Stmt} (h : List.Forall₂ (Stmt.Paired N T) xs ys) :
    List.Forall₂ (Import.Paired N T) (Stmt.prefaceOf xs) (Stmt.prefaceOf ys) ∧
      List.Forall₂ (Stmt.Paired N T) (Stmt.bodyOf xs) (Stmt.bodyOf ys) := by
  induction h with
  | nil => exact ⟨.nil, .nil⟩
  | cons hstmt hrest ih =>
    cases hstmt with
    | importing hi => exact ⟨.cons hi ih.1, ih.2⟩
    | function h => exact ⟨.nil, .cons (.function h) hrest⟩
    | method h h' => exact ⟨.nil, .cons (.method h h') hrest⟩
    | varDecl isConst h h' h'' => exact ⟨.nil, .cons (.varDecl isConst h h' h'') hrest⟩
    | typeDecl h => exact ⟨.nil, .cons (.typeDecl h) hrest⟩
    | assign h h' h'' => exact ⟨.nil, .cons (.assign h h' h'') hrest⟩
    | conditional h => exact ⟨.nil, .cons (.conditional h) hrest⟩
    | ret h h' => exact ⟨.nil, .cons (.ret h h') hrest⟩
    | block h => exact ⟨.nil, .cons (.block h) hrest⟩
    | expr h => exact ⟨.nil, .cons (.expr h) hrest⟩

/-- The same program has the same preface and the same body. -/
theorem Program.Paired.preface {p q : Program} (h : p.Paired N T q) :
    List.Forall₂ (Import.Paired N T) p.preface q.preface := (Stmt.paired_prefaceOf h).1

@[inherit_doc Program.Paired.preface]
theorem Program.Paired.body {p q : Program} (h : p.Paired N T q) :
    List.Forall₂ (Stmt.Paired N T) p.body q.body := (Stmt.paired_prefaceOf h).2

end Sable
