import Mathlib.Algebra.BigOperators.Finprod
import Mathlib.Algebra.Order.BigOperators.Group.List
import Locking.Map.Total

/-!
# Weights compared, and summed up over all keys

* `le_sumOf_of_mem`: what is in a list weighs at most as much as all of it.
* `total_add`, `total_le_total`: totals by different weights.
* `total_eq_finsum`: the total of a map is the sum over all keys.
-/

namespace Locking

open Std

theorem sumOf_eq_sum {A : Type} (w : A → Nat) (as : List A) : sumOf w as = (as.map w).sum := rfl

theorem le_sumOf_of_mem {A : Type} {w : A → Nat} {a : A} {as : List A} (h : a ∈ as) :
    w a ≤ sumOf w as :=
  List.le_sum_of_mem (List.mem_map_of_mem h)

namespace Map

variable {K V : Type} {cmp : K → K → Ordering} [TransCmp cmp]

theorem total_add (weight weight' : V → Nat) (m : ExtTreeMap K V cmp) :
    total (fun v => weight v + weight' v) m = total weight m + total weight' m :=
  List.sum_map_add

theorem mem_of_weigh_ne_zero {weight : V → Nat} {m : ExtTreeMap K V cmp} {k : K}
    (h : weigh weight m[k]? ≠ 0) : k ∈ m := by
  rw [ExtTreeMap.mem_iff_isSome_getElem?]
  cases hv : m[k]? with
  | none => simp [hv] at h
  | some v => rfl

variable [LawfulEqCmp cmp]

theorem total_le_total {weight weight' : V → Nat} {m : ExtTreeMap K V cmp}
    (h : ∀ (k : K) v, m[k]? = some v → weight v ≤ weight' v) :
    total weight m ≤ total weight' m := by
  refine List.sum_le_sum ?_
  rintro ⟨k, v⟩ hm
  exact h k v (ExtTreeMap.mem_toList_iff_getElem?_eq_some.1 hm)

theorem finite_weigh (weight : V → Nat) (m : ExtTreeMap K V cmp) :
    {k : K | weigh weight m[k]? ≠ 0}.Finite :=
  m.keys.finite_toSet.subset fun _ hk => ExtTreeMap.mem_keys.2 (mem_of_weigh_ne_zero hk)

/-- **The total of a map is the sum over all keys**, where no value weighs nothing. -/
theorem total_eq_finsum (weight : V → Nat) (m : ExtTreeMap K V cmp) :
    total weight m = ∑ᶠ k : K, weigh weight m[k]? := by
  classical
  have hnodup : m.keys.Nodup := m.nodup_keys
  rw [finsum_eq_sum_of_support_subset (s := m.keys.toFinset), List.sum_toFinset _ hnodup,
    ← ExtTreeMap.map_fst_toList_eq_keys, List.map_map, total, sumOf_eq_sum]
  · refine congrArg List.sum (List.map_congr_left ?_)
    rintro ⟨k, v⟩ hm
    rw [ExtTreeMap.mem_toList_iff_getElem?_eq_some] at hm
    simp [hm]
  · exact fun k hk => by simpa using mem_of_weigh_ne_zero hk

/-- Only finitely many lists are not empty, if their lengths are the weights in a map. -/
theorem finite_of_weigh {A : Type} {weight : V → Nat} {m : ExtTreeMap K V cmp} {lists : K → List A}
    (h : ∀ k, weigh weight m[k]? = (lists k).length) : {k | lists k ≠ []}.Finite := by
  refine (finite_weigh weight m).subset fun k hk h0 => hk ?_
  rw [h] at h0
  exact List.length_eq_zero_iff.1 h0

end Map

end Locking
