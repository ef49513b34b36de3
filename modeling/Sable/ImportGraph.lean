import Sable.Syntax.Alias

/-!
# The graph of imports

An edge leads from an importing module to the module it imports. An edge is recorded only if
it closes no cycle, so the recorded edges never hold one. Modules go by their keys, in which
a backslash counts as a slash.
-/

namespace Sable

/-- The recorded imports between modules. -/
structure ImportGraph where
  /-- For each module that ever had an edge, the modules it imports, in order of recording. -/
  entries : List (String × List String)
  deriving DecidableEq, Repr

namespace ImportGraph

/-- The graph without edges. -/
def empty : ImportGraph := ⟨[]⟩

/-- The modules that a module imports, by normalized keys. -/
def targets (g : ImportGraph) (key : String) : List String := (g.entries.lookup key).getD []

/-- The modules that a module imports, in the order in which the edges were recorded. -/
def importsOf (g : ImportGraph) (key : String) : List String := g.targets (slashed key)

/-- Whether an edge is recorded. -/
def hasEdge (g : ImportGraph) (source target : String) : Bool :=
  (g.importsOf source).contains (slashed target)

/-- Changes the targets of a module, which have to be recorded already. -/
def modifyEntry (key : String) (f : List String → List String) :
    List (String × List String) → List (String × List String)
  | [] => []
  | (k, ts) :: rest => if k = key then (k, f ts) :: rest else (k, ts) :: modifyEntry key f rest

/-- Adds a target that is not there yet behind the others. -/
def addTarget (target : String) (ts : List String) : List String :=
  if ts.contains target then ts else ts ++ [target]

/-- The graph with one more edge between normalized keys. -/
def addEdge (g : ImportGraph) (source target : String) : ImportGraph :=
  match g.entries.lookup source with
  | some _ => ⟨modifyEntry source (addTarget target) g.entries⟩
  | none => ⟨g.entries ++ [(source, [target])]⟩

/--
A depth-first search for `goal` at most `fuel` edges deep. It yields the modules from
`current` to the one in front of `goal` if it finds a way, and the modules it has seen, which
are not searched again.
-/
def search (g : ImportGraph) (goal : String) :
    Nat → String → List String → Option (List String) × List String
  | 0, _, seen => (none, seen)
  | fuel + 1, current, seen =>
    if current = goal then (some [], seen)
    else if seen.contains current then (none, seen)
    else
      let (found, seen) := (g.targets current).foldl
        (fun (found, seen) next =>
          match found with
          | some way => (some way, seen)
          | none => g.search goal fuel next seen)
        (none, current :: seen)
      (found.map (current :: ·), seen)

/--
The modules on a way from `source` up to but not including `goal`. No way without repetition
follows more edges than there are modules with edges.
-/
def path? (g : ImportGraph) (source goal : String) : Option (List String) :=
  (g.search goal (g.entries.length + 1) source []).1

/--
Records an edge unless it closes a cycle, which is then stated from the source of the edge to
itself.
-/
def insert (g : ImportGraph) (source target : String) : Except (List String) ImportGraph :=
  let source := slashed source
  let target := slashed target
  match g.path? target source with
  | some way => .error (source :: way ++ [source])
  | none => .ok (g.addEdge source target)

/-- Drops an edge if it is recorded. A module without edges left stays a node. -/
def erase (g : ImportGraph) (source target : String) : ImportGraph :=
  let target := slashed target
  ⟨modifyEntry (slashed source) (List.filter (· != target)) g.entries⟩

/-- Every module at either end of an edge, or once at the start of one, in ascending order. -/
def nodes (g : ImportGraph) : List String :=
  ((g.entries.flatMap fun (key, ts) => key :: ts).mergeSort fun a b => decide (a ≤ b)).eraseDups

/-! ### Targets after a change -/

/-- Changing the targets of one key changes what is looked up under it, and nothing else. -/
theorem lookup_modifyEntry (key : String) (f : List String → List String)
    (entries : List (String × List String)) (k : String) :
    (modifyEntry key f entries).lookup k =
      if k = key then (entries.lookup k).map f else entries.lookup k := by
  induction entries with
  | nil => simp [modifyEntry]
  | cons entry rest ih =>
    obtain ⟨k', ts⟩ := entry
    by_cases hk : k' = key
    · subst hk
      by_cases hkk : k = k'
      · simp [modifyEntry, hkk]
      · simp [modifyEntry, List.lookup_cons, hkk, beq_eq_false_iff_ne.mpr hkk]
    · by_cases hkk : k = k'
      · subst hkk
        simp [modifyEntry, hk]
      · simp [modifyEntry, List.lookup_cons, hk, beq_eq_false_iff_ne.mpr hkk, ih]

/-- A new edge adds its target to the targets of its source. -/
theorem targets_addEdge (g : ImportGraph) (source target key : String) :
    (g.addEdge source target).targets key =
      if key = source then addTarget target (g.targets key) else g.targets key := by
  unfold addEdge targets
  cases h : g.entries.lookup source with
  | some ts =>
    by_cases hk : key = source
    · simp [lookup_modifyEntry, hk, h]
    · simp [lookup_modifyEntry, hk]
  | none =>
    by_cases hk : key = source
    · subst hk
      simp [List.lookup_append, h, addTarget]
    · simp [List.lookup_append, List.lookup_cons, hk, beq_eq_false_iff_ne.mpr hk]

/-- A dropped edge takes its target from the targets of its source. -/
theorem targets_erase (g : ImportGraph) (source target key : String) :
    (g.erase source target).targets key =
      if key = slashed source then (g.targets key).filter (· != slashed target)
      else g.targets key := by
  unfold erase targets
  rw [lookup_modifyEntry]
  split
  · cases g.entries.lookup key <;> rfl
  · rfl

/-- An edge is recorded exactly if no way leads back along it. -/
theorem insert_eq_ok_iff {g h : ImportGraph} {source target : String} :
    g.insert source target = .ok h ↔
      g.path? (slashed target) (slashed source) = none ∧
        h = g.addEdge (slashed source) (slashed target) := by
  simp only [insert]
  cases g.path? (slashed target) (slashed source) <;> simp [eq_comm]

end ImportGraph

end Sable
