import Locking.Map.Total

/-!
# How a map is listed

A map is listed in ascending order of its keys, so a list in this order is told by what is in it.

* `toList_eq_of_ascending`: a list in ascending order that holds what the map holds is its list.
* `toList_insert_of_some`: a new value under a key stands where the old one stood.
* `toList_insert_of_last`: what comes under a key above all others is listed last.
* `toList_erase`: what remains keeps its place.
-/

namespace Locking.Map

open Std

variable {K V : Type} {cmp : K → K → Ordering} [TransCmp cmp] [LawfulEqCmp cmp]
  {m : ExtTreeMap K V cmp} {k : K} {v : V}

/-- A list in ascending order of keys that holds what a map holds is the list of the map. -/
theorem toList_eq_of_ascending {l : List (K × V)}
    (hasc : l.Pairwise fun a b => cmp a.1 b.1 = .lt)
    (hmem : ∀ k v, (k, v) ∈ l ↔ m[k]? = some v) : m.toList = l := by
  have hne : ∀ a b : K × V, cmp a.1 b.1 = .lt → a ≠ b := by
    rintro a b hlt rfl
    rw [(ReflCmp.compare_self : cmp a.1 a.1 = .eq)] at hlt
    cases hlt
  have hperm : m.toList.Perm l := by
    refine (List.perm_ext_iff_of_nodup (nodup_toList m) (hasc.imp (hne _ _))).2 ?_
    rintro ⟨k, v⟩
    rw [ExtTreeMap.mem_toList_iff_getElem?_eq_some, hmem]
  refine hperm.eq_of_pairwise ?_ m.ordered_keys_toList hasc
  -- no key is below and above another
  intro a b _ _ hab hba
  exact (OrientedCmp.not_lt_of_lt hab hba).elim

/-- A new value under a key stands where the old one stood. -/
theorem toList_insert_of_some {old : V} (h : m[k]? = some old) :
    (m.insert k v).toList = m.toList.map fun p => if cmp k p.1 = .eq then (p.1, v) else p := by
  refine toList_eq_of_ascending ?_ fun k' v' => ?_
  · refine List.pairwise_map.2 (m.ordered_keys_toList.imp fun {a b} hab => ?_)
    split <;> split <;> exact hab
  · rw [ExtTreeMap.getElem?_insert, List.mem_map]
    constructor
    · rintro ⟨⟨k₀, v₀⟩, hm, he⟩
      rw [ExtTreeMap.mem_toList_iff_getElem?_eq_some] at hm
      by_cases hk : cmp k k₀ = .eq
      · rw [if_pos hk] at he
        cases he
        rw [if_pos hk]
      · rw [if_neg hk] at he
        cases he
        rw [if_neg hk]
        exact hm
    · intro hv
      by_cases hk : cmp k k' = .eq
      · obtain rfl := LawfulEqCmp.eq_of_compare hk
        rw [if_pos hk] at hv
        cases hv
        refine ⟨(k, old), ExtTreeMap.mem_toList_iff_getElem?_eq_some.2 h, ?_⟩
        exact if_pos hk
      · rw [if_neg hk] at hv
        exact ⟨(k', v'), ExtTreeMap.mem_toList_iff_getElem?_eq_some.2 hv, if_neg hk⟩

/-- What comes under a key above all others is listed last. -/
theorem toList_insert_of_last (h : ∀ k' v', m[k']? = some v' → cmp k' k = .lt) :
    (m.insert k v).toList = m.toList ++ [(k, v)] := by
  refine toList_eq_of_ascending ?_ fun k' v' => ?_
  · refine List.pairwise_append.2 ⟨m.ordered_keys_toList, List.pairwise_singleton _ _, ?_⟩
    rintro ⟨k', v'⟩ hm b hb
    rw [List.mem_singleton.1 hb]
    exact h k' v' (ExtTreeMap.mem_toList_iff_getElem?_eq_some.1 hm)
  · rw [ExtTreeMap.getElem?_insert, List.mem_append, List.mem_singleton,
      ExtTreeMap.mem_toList_iff_getElem?_eq_some]
    by_cases hk : cmp k k' = .eq
    · obtain rfl := LawfulEqCmp.eq_of_compare hk
      have hfree : m[k]? ≠ some v' := by
        intro hv
        have hlt := h k v' hv
        rw [hk] at hlt
        cases hlt
      rw [if_pos hk]
      simp [hfree, eq_comm]
    · have hne : k' ≠ k := by
        rintro rfl
        exact hk ReflCmp.compare_self
      simp [hk, hne]

/-- What remains after a key has been erased keeps its place. -/
theorem toList_erase : (m.erase k).toList = m.toList.filter fun p => cmp k p.1 ≠ .eq := by
  refine toList_eq_of_ascending (m.ordered_keys_toList.filter _) fun k' v' => ?_
  rw [List.mem_filter, ExtTreeMap.mem_toList_iff_getElem?_eq_some, ExtTreeMap.getElem?_erase]
  by_cases hk : cmp k k' = .eq
  · simp [hk]
  · simp [hk]

end Locking.Map
