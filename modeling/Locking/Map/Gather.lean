import Mathlib.Data.List.Nodup
import Locking.Map.Total

/-!
# All that the values of a map list

Where every value of a map lists something, all of it may be put into one list, key after key.

* `gather`: what the values list.
* `length_gather`, `mem_gather`: how much it is, and what.
* `nodup_gather`: nothing is listed twice, if what is listed tells the key under which it is.
-/

namespace Locking.Map

open Std

variable {K V A : Type} {cmp : K → K → Ordering} [TransCmp cmp]

/-- What the values of a map list, key after key. -/
def gather (lists : V → List A) (m : ExtTreeMap K V cmp) : List A :=
  m.toList.flatMap fun p => lists p.2

theorem length_gather (lists : V → List A) (m : ExtTreeMap K V cmp) :
    (gather lists m).length = total (fun v => (lists v).length) m :=
  List.length_flatMap

variable [LawfulEqCmp cmp] {lists : V → List A} {m : ExtTreeMap K V cmp}

theorem mem_gather {a : A} : a ∈ gather lists m ↔ ∃ (k : K) (v : V), m[k]? = some v ∧ a ∈ lists v := by
  rw [gather, List.mem_flatMap]
  constructor
  · rintro ⟨⟨k, v⟩, hm, ha⟩
    exact ⟨k, v, ExtTreeMap.mem_toList_iff_getElem?_eq_some.1 hm, ha⟩
  · rintro ⟨k, v, hv, ha⟩
    exact ⟨(k, v), ExtTreeMap.mem_toList_iff_getElem?_eq_some.2 hv, ha⟩

/-- **Nothing is listed twice** if no value lists anything twice, and what is listed tells the key
under which it is. -/
theorem nodup_gather (keyOf : A → K)
    (hnodup : ∀ (k : K) v, m[k]? = some v → (lists v).Nodup)
    (hkey : ∀ (k : K) v, m[k]? = some v → ∀ a ∈ lists v, keyOf a = k) :
    (gather lists m).Nodup := by
  refine List.nodup_flatMap.2 ⟨?_, ?_⟩
  · rintro ⟨k, v⟩ hm
    exact hnodup k v (ExtTreeMap.mem_toList_iff_getElem?_eq_some.1 hm)
  · refine m.distinct_keys_toList.imp_of_mem ?_
    rintro ⟨k, v⟩ ⟨k', v'⟩ hm hm' hne a ha ha'
    rw [ExtTreeMap.mem_toList_iff_getElem?_eq_some] at hm hm'
    refine hne ?_
    rw [← hkey k v hm a ha, ← hkey k' v' hm' a ha']
    exact ReflCmp.compare_self

end Locking.Map
