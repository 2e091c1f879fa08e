import Locking.Proofs.Run

/-!
# Mutual exclusion

* `System.exclusion`: in every run, with any arguments, the locks granted on one resource to
  different transactions agree, and no transaction is granted two locks on one resource.
-/

namespace Locking

/-- The locks granted on a resource of a sound table belong to different owners, and agree. -/
theorem Table.Sound.pairwise_locksOn {t : Table} (h : t.Sound) (r : Resource) :
    (t.locksOn r).Pairwise fun a b => a.owner ≠ b.owner ∧ a.mode.compatible b.mode :=
  (h.entry r).pairwise_locks

/-- **Mutual exclusion in every run**: whatever was called, by whom, and whatever was done to gates
from outside, the locks of different transactions on one resource agree, and no transaction is
granted two locks on it. -/
theorem System.exclusion (settings : Settings) (as : List Action) (m : Nat) (r : Resource) :
    let locks := (((start settings).after as).table m).locksOn r
    (∀ a ∈ locks, ∀ b ∈ locks, a.owner ≠ b.owner → a.mode.compatible b.mode) ∧
      (locks.map Lock.owner).Nodup := by
  have h := sound_run settings as m
  intro locks
  constructor
  · intro a ha b hb hne
    obtain ⟨-, slot, hs⟩ := h.held?_eq_some_iff.1 (h.mem_locksOn_iff.1 ha)
    obtain ⟨-, slot', hs'⟩ := h.held?_eq_some_iff.1 (h.mem_locksOn_iff.1 hb)
    exact (h.entry r).compatible hs hs' hne
  · exact List.pairwise_map.2 ((h.pairwise_locksOn r).imp And.left)

end Locking
