import Locking.Resource

/-!
# Hierarchies

A hierarchy is the tree of resources under one root. A manager hands out one per name.
-/

namespace Locking

/-- The tree of resources under one root. -/
structure Hierarchy where
  /-- The root of the tree. -/
  root : Resource
  deriving DecidableEq, Repr

namespace Hierarchy

/-- The hierarchy with this name. -/
def named (name : String) : Hierarchy := ⟨.root name⟩

/-- The resource directly below the root. -/
def child (h : Hierarchy) (segment : String) : Resource := h.root.child segment

end Hierarchy

end Locking
