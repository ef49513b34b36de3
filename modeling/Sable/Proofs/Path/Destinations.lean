import Sable.Proofs.Path.Normal

/-!
# Where paths lead

Steps lead from a directory to a place: a parent step goes up one level and stays at the root, a
name goes down. A place is the names that lead to it from the root. Steps without one to the root
climb some levels above the directory they start in and leave the rest of it in place. Two parent
steps that find no name to cancel cancel each other in normalized steps, so these climb one level
or none, as the number of levels is odd or even. So a path and its normal form lead to one place
from every directory exactly if the path climbs one level at most.
-/

namespace Sable

/-- The place that one step leads to, as the names from the root to it, the last one first. -/
def PathComponent.goFrom (place : List (List Char)) : PathComponent → List (List Char)
  | root => []
  | here => place
  | up => place.tail
  | name s => s :: place

namespace Path

open PathComponent

/-- The place that steps lead to. -/
def destination (start : List (List Char)) (steps : List PathComponent) : List (List Char) :=
  steps.foldl goFrom start

/-- The number of levels by which steps climb above the directory that they start in. -/
def climb : List PathComponent → Nat
  | [] => 0
  | .root :: _ => 0
  | .here :: steps => climb steps
  | .up :: steps => climb steps + 1
  | .name _ :: steps => climb steps - 1

variable {start : List (List Char)} {steps : List PathComponent}

theorem destination_cons (c : PathComponent) :
    destination start (c :: steps) = destination (c.goFrom start) steps := rfl

theorem destination_append (front : List PathComponent) :
    destination start (front ++ steps) = destination (destination start front) steps :=
  List.foldl_append

/-- Steps leave a directory in place but for the levels that they climb. -/
theorem destination_eq_append (hroot : .root ∉ steps) :
    destination start steps = destination [] steps ++ start.drop (climb steps) := by
  induction steps generalizing start with
  | nil => simp [destination, climb]
  | cons c steps ih =>
    rw [List.mem_cons, not_or] at hroot
    have ih {start} := @ih start hroot.2
    cases c with
    | root => exact absurd rfl hroot.1
    | here => exact ih
    | up =>
      rw [destination_cons, destination_cons, goFrom, goFrom, ih, climb, List.tail_nil,
        List.drop_tail]
    | name s =>
      rw [destination_cons, destination_cons, goFrom, goFrom, ih, @ih [s], climb]
      cases climb steps with
      | zero => simp
      | succ n => simp

/-! ### Normalized steps -/

/-- The parent steps that stay of those that climb some levels, since they cancel in pairs. -/
def keptUps (levels : Nat) : List PathComponent := List.replicate (levels % 2) .up

/-- One more parent step cancels the kept one, or is kept. -/
theorem foldStep_keptUps {base : List PathComponent} (hbase : foldStep base .up = .up :: base)
    (levels : Nat) : foldStep (keptUps levels ++ base) .up = keptUps (levels + 1) ++ base := by
  rcases Nat.mod_two_eq_zero_or_one levels with h | h
  · have hnext : (levels + 1) % 2 = 1 := by omega
    rw [keptUps, keptUps, h, hnext]
    exact hbase
  · have hnext : (levels + 1) % 2 = 0 := by omega
    rw [keptUps, keptUps, h, hnext]
    rfl

/-- Kept parent steps lead up one level or none, and names down again. -/
theorem destination_keptUps_append (levels : Nat) (names : List (List Char)) :
    destination start (keptUps levels ++ (names.map .name).reverse) =
      names ++ start.drop (levels % 2) := by
  have hups : ∀ n, destination start (List.replicate n .up) = start.drop n := by
    intro n
    induction n generalizing start with
    | zero => rfl
    | succ n ih => rw [List.replicate_succ, destination_cons, ih, goFrom, List.drop_tail]
  rw [destination_append, keptUps, hups]
  induction names with
  | nil => rfl
  | cons s names ih =>
    rw [List.map_cons, List.reverse_cons, destination_append, ih]
    rfl

/--
Normalizing steps behind names that stand behind climbing parent steps, all of them behind steps
in which a parent step cancels nothing.
-/
theorem foldl_foldStep {base : List PathComponent} (hbase : foldStep base .up = .up :: base)
    (hroot : .root ∉ steps) (names : List (List Char)) (levels : Nat) :
    steps.foldl foldStep (names.map .name ++ (keptUps levels ++ base)) =
      (destination names steps).map .name ++
        (keptUps (levels + (climb steps - names.length)) ++ base) := by
  induction steps generalizing names levels with
  | nil =>
    rw [climb, Nat.zero_sub]
    rfl
  | cons c steps ih =>
    rw [List.mem_cons, not_or] at hroot
    have ih := ih hroot.2
    rw [List.foldl_cons, destination_cons]
    cases c with
    | root => exact absurd rfl hroot.1
    | here => exact ih names levels
    | name s =>
      have hlevels : climb (.name s :: steps) - names.length =
          climb steps - (s :: names).length := by
        rw [climb, List.length_cons]
        omega
      rw [hlevels]
      exact ih (s :: names) levels
    | up =>
      cases names with
      | nil =>
        have hlevels : levels + (climb (.up :: steps) - 0) = levels + 1 + (climb steps - 0) := by
          rw [climb]
          omega
        rw [List.map_nil, List.nil_append, foldStep_keptUps hbase, List.length_nil, hlevels]
        exact ih [] (levels + 1)
      | cons s names =>
        have hlevels : climb (.up :: steps) - (s :: names).length =
            climb steps - names.length := by
          rw [climb, List.length_cons]
          omega
        rw [hlevels]
        exact ih names levels

theorem normalComponents_of_relative {p : Path} (h : p.isAbsolute = false) :
    p.normalComponents =
      keptUps (climb p.components) ++ ((destination [] p.components).map .name).reverse := by
  have hstart : foldStep [] .up = .up :: [] := rfl
  have hfold := foldl_foldStep hstart (root_notMem_components h) [] 0
  simp only [List.map_nil, List.nil_append, List.append_nil, List.length_nil, Nat.sub_zero,
    Nat.zero_add] at hfold
  have hempty : keptUps 0 = [] := rfl
  rw [hempty] at hfold
  rw [normalComponents, hfold, List.reverse_append, keptUps, List.reverse_replicate]

theorem normalComponents_of_absolute {p : Path} (h : p.isAbsolute = true) :
    p.normalComponents =
      .root :: (keptUps (climb p.inner) ++ ((destination [] p.inner).map .name).reverse) := by
  have hroot : foldStep [.root] .up = .up :: [.root] := rfl
  have hfold := foldl_foldStep hroot p.root_notMem_inner [] 0
  simp only [List.map_nil, List.nil_append, List.length_nil, Nat.sub_zero, Nat.zero_add] at hfold
  have hstart : foldStep [] .root = keptUps 0 ++ [.root] := rfl
  rw [normalComponents, components_of_absolute h, List.foldl_cons, hstart, hfold,
    List.reverse_append, List.reverse_append, keptUps, List.reverse_replicate, List.append_assoc]
  rfl

/--
A path from the root leads to one place, and so does its normal form. Any other path leaves the
directory that it starts in but for the levels that it climbs, and its normal form but for one
level or none.
-/
theorem destination_cases (p : Path) :
    (climb p.components = 0 ∧ ∃ place, ∀ start, destination start p.components = place ∧
      destination start p.normalize.components = place) ∨
    ∃ names, ∀ start, destination start p.components = names ++ start.drop (climb p.components) ∧
      destination start p.normalize.components =
        names ++ start.drop (climb p.components % 2) := by
  cases habs : p.isAbsolute with
  | true =>
    have hsteps := components_of_absolute habs
    refine .inl ⟨by rw [hsteps, climb], destination [] p.inner, fun start => ⟨?_, ?_⟩⟩
    · rw [hsteps]
      rfl
    · rw [components_normalize, normalComponents_of_absolute habs, destination_cons, goFrom,
        destination_keptUps_append, List.drop_nil, List.append_nil]
  | false =>
    have hroot := root_notMem_components habs
    refine .inr ⟨destination [] p.components, fun start => ⟨destination_eq_append hroot, ?_⟩⟩
    rw [components_normalize, normalComponents_of_relative habs, destination_keptUps_append]

/-- A path leads to where its normal form leads from an even number of levels above. -/
theorem destination_eq_destination_drop (p : Path) (start : List (List Char)) :
    destination start p.components =
      destination (start.drop (2 * (climb p.components / 2))) p.normalize.components := by
  rcases p.destination_cases with ⟨-, place, hplace⟩ | ⟨names, hnames⟩
  · rw [(hplace _).1, (hplace _).2]
  · rw [(hnames _).1, (hnames _).2, List.drop_drop, Nat.div_add_mod]

theorem destination_normalize_eq_iff (p : Path) (start : List (List Char)) :
    destination start p.normalize.components = destination start p.components ↔
      climb p.components ≤ 1 ∨ start.length ≤ climb p.components % 2 := by
  rcases p.destination_cases with ⟨hclimb, place, hplace⟩ | ⟨names, hnames⟩
  · exact iff_of_true ((hplace start).2.trans (hplace start).1.symm) (.inl (by omega))
  · rw [(hnames start).1, (hnames start).2, List.append_cancel_left_eq, List.drop_eq_drop_iff]
    omega

/-- What is left of a directory depends on the directory. -/
private theorem not_forall_eq_append_drop {place names : List (List Char)} {levels : Nat}
    (h : ∀ start : List (List Char), place = names ++ start.drop (levels % 2)) : False := by
  have hshort := congrArg List.length (h [])
  have hlong := congrArg List.length (h [[], []])
  simp only [List.length_append, List.length_drop, List.length_cons, List.length_nil] at hshort hlong
  omega

theorem destination_eq_iff_of_normalize_eq {p q : Path} (h : p.normalize = q.normalize)
    (start : List (List Char)) :
    destination start p.components = destination start q.components ↔
      min (climb p.components) start.length = min (climb q.components) start.length := by
  rcases p.destination_cases with ⟨hclimb, place, hplace⟩ | ⟨names, hnames⟩ <;>
    rcases q.destination_cases with ⟨hclimb', place', hplace'⟩ | ⟨names', hnames'⟩
  · have hsame : place = place' := by rw [← (hplace start).2, h, (hplace' start).2]
    rw [(hplace start).1, (hplace' start).1, hclimb, hclimb', hsame]
    exact iff_of_true rfl rfl
  · exact (not_forall_eq_append_drop fun start =>
      (hplace start).2.symm.trans (h ▸ (hnames' start).2)).elim
  · exact (not_forall_eq_append_drop fun start =>
      (hplace' start).2.symm.trans (h ▸ (hnames start).2)).elim
  · have hsame : names = names' := by
      have hroot := (hnames []).2.symm.trans (h ▸ (hnames' []).2)
      simpa using hroot
    rw [(hnames start).1, (hnames' start).1, hsame, List.append_cancel_left_eq,
      List.drop_eq_drop_iff]

/--
A path leads from a directory to where its normal form leads from some levels above that
directory: those that the path climbs, without the last one if they are odd in number. So the
path and its normal form lead to one place exactly if the path climbs one level at most or there
are no more levels than its normal form climbs, and paths with one normal form lead to one place
exactly if they climb equally far, as far as there are levels.
-/
theorem destination_normalize (p : Path) (start : List (List Char)) :
    destination start p.components =
        destination (start.drop (2 * (climb p.components / 2))) p.normalize.components ∧
      (destination start p.normalize.components = destination start p.components ↔
        climb p.components ≤ 1 ∨ start.length ≤ climb p.components % 2) ∧
      ∀ q : Path, q.normalize = p.normalize →
        (destination start q.components = destination start p.components ↔
          min (climb q.components) start.length = min (climb p.components) start.length) :=
  ⟨p.destination_eq_destination_drop start, p.destination_normalize_eq_iff start,
    fun _ h => destination_eq_iff_of_normalize_eq h start⟩

/-- Two parent steps are lost, so a path out of a directory shares its normal form with one in it. -/
theorem destination_normalize_twoUps :
    (⟨"../../a"⟩ : Path).normalize = (⟨"a"⟩ : Path).normalize ∧
      destination [['x'], ['y']] (⟨"../../a"⟩ : Path).components ≠
        destination [['x'], ['y']] (⟨"a"⟩ : Path).components := by
  have hsame : (⟨"../../a"⟩ : Path).normalize = (⟨"a"⟩ : Path).normalize := by decide +kernel
  refine ⟨hsame, fun h => ?_⟩
  have hclimb := ((destination_normalize ⟨"a"⟩ [['x'], ['y']]).2.2 _ hsame).mp h
  revert hclimb
  decide +kernel

end Path

end Sable
