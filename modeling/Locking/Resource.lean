import Std.Data.ExtTreeMap

/-!
# Resources

A resource is named by its path in a tree: the segments from the root down. The path without
segments names no resource of a tree, but it can be read from outside, so it is kept.

* `Resource.isBelow`: a resource is below every proper beginning of its path.
* Resources are ordered segment by segment, each segment by its characters, so that the resources
  below one resource stand together directly after it.
-/

namespace Locking

/-- A resource, named by its path. -/
structure Resource where
  /-- The path, from the root down. -/
  segments : List String
  deriving DecidableEq, Repr, Inhabited

namespace Resource

/-- The root of a tree. -/
def root (segment : String) : Resource := ⟨[segment]⟩

/-- The resource one level down. -/
def child (r : Resource) (segment : String) : Resource := ⟨r.segments ++ [segment]⟩

/-- The number of segments. -/
def depth (r : Resource) : Nat := r.segments.length

/-- The enclosing resource; a root has none. -/
def parent? (r : Resource) : Option Resource :=
  if r.depth ≤ 1 then none else some ⟨r.segments.dropLast⟩

/-- The path of `r` continues that of `other`. -/
def isBelow (r other : Resource) : Bool :=
  other.depth < r.depth && other.segments.isPrefixOf r.segments

/-- The path, with a slash between segments. -/
def text (r : Resource) : String := "/".intercalate r.segments

instance : ToString Resource := ⟨text⟩

instance : Ord Resource := ⟨fun a b => compare a.segments b.segments⟩

instance : LT Resource := ⟨fun a b => compare a b = .lt⟩

instance : LE Resource := ⟨fun a b => (compare a b).isLE⟩

theorem compare_def (a b : Resource) : compare a b = compare a.segments b.segments := rfl

instance : Std.TransOrd Resource where
  eq_swap {a b} := (Std.OrientedOrd.eq_swap : compare a.segments b.segments = _)
  isLE_trans {a b c} h h' := by
    rw [compare_def] at *
    exact Std.TransOrd.isLE_trans h h'

instance : Std.LawfulEqOrd Resource where
  eq_of_compare {a b} h := by
    have : a.segments = b.segments := Std.LawfulEqOrd.eq_of_compare h
    cases a; cases b; simp_all

/-- The resources in ascending order; equal ones stay in place. -/
def sort (rs : List Resource) : List Resource :=
  rs.mergeSort fun a b => (compare a b).isLE

/-- One move of a walk through the tree. -/
inductive Move where
  | up
  | down (segment : String)
  deriving DecidableEq, Repr

/-- Where a move leads; there is no way up from a root. -/
def move? (r : Resource) : Move → Option Resource
  | .up => r.parent?
  | .down segment => some (r.child segment)

/-- A walk through the tree: what each move led to, and where the walk ends. A move that leads
nowhere leaves the walk where it is. -/
def walk (r : Resource) : List Move → List (Option Resource) × Resource
  | [] => ([], r)
  | m :: ms =>
    let found := r.move? m
    let rest := (found.getD r).walk ms
    (found :: rest.1, rest.2)

@[simp] theorem depth_root (segment : String) : (root segment).depth = 1 := rfl

@[simp] theorem depth_child (r : Resource) (segment : String) :
    (r.child segment).depth = r.depth + 1 := by
  simp [child, depth]

/-- A child leads back up, unless it stands directly below the empty path. -/
theorem parent?_child {r : Resource} (h : 0 < r.depth) (segment : String) :
    (r.child segment).parent? = some r := by
  have : ¬ r.segments.length + 1 ≤ 1 := by have : 0 < r.segments.length := h; omega
  simp only [parent?, child, depth, List.length_append, List.length_singleton, if_neg this,
    List.dropLast_concat]

theorem isBelow_iff {a b : Resource} :
    a.isBelow b ↔ b.segments <+: a.segments ∧ b.segments.length < a.segments.length := by
  rw [isBelow, Bool.and_eq_true, decide_eq_true_iff, List.isPrefixOf_iff_prefix, and_comm]
  rfl

end Resource

end Locking
