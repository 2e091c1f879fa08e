import Std.Data.ExtTreeMap

/-!
# Sums over lists, sizes and totals of maps

The sum of a weight over a list, and over the values of a map, and the number of keys of a map, and
how they change when one key changes.

* `sumOf`: the sum over a list, which only depends on what is in it and how often (`sumOf_perm`).
* `size_insert_of_some`, `size_insert_of_none`, `size_erase_of_some`: the number of keys.
* `total_insert`, `total_erase`: only the weight under the key that changes is exchanged.
* `total_eq_zero_iff`, `total_eq_one_iff`: a small total tells where the weight is.
-/

namespace Locking

open Std

section Sum

variable {A : Type} (w : A → Nat)

/-- The sum of a weight over a list. It is the sum of the library, with the zero named, so that it is
the same term whatever else is imported. -/
def sumOf (as : List A) : Nat := @List.sum Nat _ Zero.ofOfNat0 (as.map w)

@[simp] theorem sumOf_nil : sumOf w [] = 0 := rfl

@[simp] theorem sumOf_cons (a : A) (as : List A) : sumOf w (a :: as) = w a + sumOf w as := rfl

@[simp] theorem sumOf_append (as bs : List A) : sumOf w (as ++ bs) = sumOf w as + sumOf w bs :=
  (congrArg _ List.map_append).trans List.sum_append_nat

variable {w}

theorem sumOf_perm {as bs : List A} (h : as.Perm bs) : sumOf w as = sumOf w bs := (h.map w).sum_nat

theorem sumOf_eq_zero_iff {as : List A} : sumOf w as = 0 ↔ ∀ a ∈ as, w a = 0 :=
  List.sum_eq_zero_iff_forall_eq_nat.trans List.forall_mem_map

theorem exists_of_sumOf_ne_zero {as : List A} (h : sumOf w as ≠ 0) : ∃ a ∈ as, w a ≠ 0 := by
  simpa [sumOf_eq_zero_iff] using h

theorem sumOf_one (as : List A) : sumOf (fun _ => 1) as = as.length := by
  rw [sumOf, List.map_const', List.sum_replicate_nat, Nat.mul_one]

end Sum

namespace Map

variable {K V : Type} {cmp : K → K → Ordering} [TransCmp cmp]

theorem size_insert_of_some {m : ExtTreeMap K V cmp} {k : K} {v v' : V} (h : m[k]? = some v') :
    (m.insert k v).size = m.size := by
  simp [ExtTreeMap.size_insert, ExtTreeMap.contains_eq_isSome_getElem?, h]

theorem size_insert_of_none {m : ExtTreeMap K V cmp} {k : K} {v : V} (h : m[k]? = none) :
    (m.insert k v).size = m.size + 1 := by
  simp [ExtTreeMap.size_insert, ExtTreeMap.contains_eq_isSome_getElem?, h]

/-- The sum of `weight` over all values. -/
def total (weight : V → Nat) (m : ExtTreeMap K V cmp) : Nat :=
  sumOf (fun p => weight p.2) m.toList

/-- The weight of an optional value; no value weighs nothing. -/
def weigh (weight : V → Nat) (v : Option V) : Nat := (v.map weight).getD 0

@[simp] theorem weigh_none (weight : V → Nat) : weigh weight none = 0 := rfl

@[simp] theorem weigh_some (weight : V → Nat) (v : V) : weigh weight (some v) = weight v := rfl

@[simp] theorem total_empty (weight : V → Nat) :
    total weight (∅ : ExtTreeMap K V cmp) = 0 := rfl

theorem total_one (m : ExtTreeMap K V cmp) : total (fun _ => 1) m = m.size := by
  rw [total, sumOf_one, ExtTreeMap.length_toList]

variable [LawfulEqCmp cmp]

theorem nodup_toList (m : ExtTreeMap K V cmp) : m.toList.Nodup :=
  m.distinct_keys_toList.imp fun h he => h (by rw [he]; exact ReflCmp.compare_self)

theorem toList_perm {m : ExtTreeMap K V cmp} {k : K} {v : V} (h : m[k]? = some v) :
    m.toList.Perm ((k, v) :: (m.erase k).toList) := by
  refine (List.perm_ext_iff_of_nodup (nodup_toList m) ?_).2 ?_
  · refine List.nodup_cons.2 ⟨?_, nodup_toList _⟩
    rw [ExtTreeMap.mem_toList_iff_getElem?_eq_some, ExtTreeMap.getElem?_erase]
    simp
  · rintro ⟨k', v'⟩
    rw [List.mem_cons, ExtTreeMap.mem_toList_iff_getElem?_eq_some,
      ExtTreeMap.mem_toList_iff_getElem?_eq_some, ExtTreeMap.getElem?_erase]
    by_cases hk : k = k'
    · subst hk
      simp [h, eq_comm]
    · have : cmp k k' ≠ .eq := fun hc => hk (LawfulEqCmp.eq_of_compare hc)
      simp [this, Ne.symm hk]

theorem size_erase_of_some {m : ExtTreeMap K V cmp} {k : K} {v : V} (h : m[k]? = some v) :
    (m.erase k).size + 1 = m.size := by
  have := (toList_perm h).length_eq
  rw [List.length_cons, ExtTreeMap.length_toList, ExtTreeMap.length_toList] at this
  exact this.symm

/-- What stands under a key, and the rest, make up the total. -/
theorem total_eq (weight : V → Nat) (m : ExtTreeMap K V cmp) (k : K) :
    total weight m = weigh weight m[k]? + total weight (m.erase k) := by
  cases h : m[k]? with
  | none =>
    have : m.erase k = m := by
      refine ExtTreeMap.ext_getElem? fun k' => ?_
      rw [ExtTreeMap.getElem?_erase]
      split
      · rename_i hc
        rw [← LawfulEqCmp.eq_of_compare hc, h]
      · rfl
    simp [this]
  | some v =>
    exact sumOf_perm (toList_perm h)

/-- Erasing a key takes away what stood there. -/
theorem total_erase (weight : V → Nat) (m : ExtTreeMap K V cmp) (k : K) :
    total weight (m.erase k) + weigh weight m[k]? = total weight m := by
  rw [total_eq weight m k, Nat.add_comm]

/-- What stands under a key weighs at most as much as everything. -/
theorem weigh_le_total (weight : V → Nat) (m : ExtTreeMap K V cmp) (k : K) :
    weigh weight m[k]? ≤ total weight m := by
  rw [total_eq weight m k]
  exact Nat.le_add_right _ _

theorem total_eq_zero_iff {weight : V → Nat} {m : ExtTreeMap K V cmp} :
    total weight m = 0 ↔ ∀ k : K, weigh weight m[k]? = 0 := by
  constructor
  · intro h k
    exact Nat.le_zero.1 (h ▸ weigh_le_total weight m k)
  · intro h
    refine sumOf_eq_zero_iff.2 ?_
    rintro ⟨k, v⟩ hm
    have := h k
    rwa [ExtTreeMap.mem_toList_iff_getElem?_eq_some.1 hm] at this

/-- A total of one is a weight of one under a single key. -/
theorem total_eq_one_iff {weight : V → Nat} {m : ExtTreeMap K V cmp} :
    total weight m = 1 ↔
      ∃ k : K, weigh weight m[k]? = 1 ∧ ∀ k', k ≠ k' → weigh weight m[k']? = 0 := by
  have hne : ∀ {k k' : K}, k ≠ k' → cmp k k' ≠ .eq := fun hk hc => hk (LawfulEqCmp.eq_of_compare hc)
  constructor
  · intro h
    obtain ⟨k, hk⟩ : ∃ k : K, weigh weight m[k]? ≠ 0 := by
      refine Classical.byContradiction fun hn => ?_
      have := total_eq_zero_iff.2 fun k => Classical.not_not.1 (not_exists.1 hn k)
      omega
    -- what weighs under one key leaves nothing for the others
    have ht := total_eq weight m k
    have hrest : total weight (m.erase k) = 0 := by omega
    refine ⟨k, by omega, fun k' hk' => ?_⟩
    have := total_eq_zero_iff.1 hrest k'
    rwa [ExtTreeMap.getElem?_erase, if_neg (hne hk')] at this
  · rintro ⟨k, hk, hothers⟩
    have hrest : total weight (m.erase k) = 0 := by
      refine total_eq_zero_iff.2 fun k' => ?_
      rw [ExtTreeMap.getElem?_erase]
      split
      · rfl
      · rename_i hc
        refine hothers k' ?_
        rintro rfl
        exact hc ReflCmp.compare_self
    rw [total_eq weight m k, hk, hrest]

/-- Writing a key exchanges what stood there for the new value. -/
theorem total_insert (weight : V → Nat) (m : ExtTreeMap K V cmp) (k : K) (v : V) :
    total weight (m.insert k v) + weigh weight m[k]? = total weight m + weight v := by
  have he : (m.insert k v).erase k = m.erase k := by
    refine ExtTreeMap.ext_getElem? fun k' => ?_
    simp only [ExtTreeMap.getElem?_erase, ExtTreeMap.getElem?_insert]
    split <;> rfl
  rw [total_eq weight (m.insert k v) k, he, ExtTreeMap.getElem?_insert_self,
    ← total_erase weight m k, weigh_some]
  omega

end Map

end Locking
