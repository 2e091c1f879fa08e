import Mathlib.Logic.Relation
import Locking.Resource

/-!
# Paths and their order

That one resource is below another one can be told in three ways: by their paths, by going up from
the one to the other, and, among resources in ascending order, by where they stand.

* `isBelow_trans`, `eq_or_isBelow`: what is above a resource is a chain.
* `isBelow_iff_transGen`: a resource is below those that are reached by going up.
* `lt_of_isBelow`, `isBelow_of_between`: in ascending order what is below a resource comes after it,
  with nothing else in between.
* `exists_block`: so it forms one block.
* `hierarchy_fits_order`: all this together.
-/

namespace Locking.Resource

variable {a b c : Resource}

/-! ## Above and below -/

theorem not_isBelow_self (a : Resource) : ¬ a.isBelow a := fun h =>
  Nat.lt_irrefl _ (isBelow_iff.1 h).2

theorem isBelow_trans (h : a.isBelow b) (h' : b.isBelow c) : a.isBelow c := by
  rw [isBelow_iff] at *
  exact ⟨h'.1.trans h.1, Nat.lt_trans h'.2 h.2⟩

/-- A path continues that of another resource if it is the same, or below it. -/
theorem eq_or_isBelow_of_continues (h : b.segments <+: a.segments) : b = a ∨ a.isBelow b := by
  rcases Nat.eq_or_lt_of_le h.length_le with hl | hl
  · exact .inl (congrArg mk (h.eq_of_length hl))
  · exact .inr (isBelow_iff.2 ⟨h, hl⟩)

/-- What is above a resource is a chain. -/
theorem eq_or_isBelow (h : a.isBelow b) (h' : a.isBelow c) :
    b = c ∨ b.isBelow c ∨ c.isBelow b := by
  rcases List.prefix_or_prefix_of_prefix (isBelow_iff.1 h).1 (isBelow_iff.1 h').1 with hp | hp
  · exact (eq_or_isBelow_of_continues hp).imp_right .inr
  · exact (eq_or_isBelow_of_continues hp).imp Eq.symm .inl

/-! ## Going up -/

theorem parent?_eq_some_iff :
    a.parent? = some b ↔ 1 < a.depth ∧ b.segments = a.segments.dropLast := by
  cases b
  rw [parent?, Option.ite_none_left_eq_some, Nat.not_le, Option.some.injEq, mk.injEq, eq_comm]

/-- A resource is below the one that encloses it. -/
theorem isBelow_of_parent? (h : a.parent? = some b) : a.isBelow b := by
  obtain ⟨hd, hb⟩ := parent?_eq_some_iff.1 h
  rw [isBelow_iff, hb, List.length_dropLast]
  exact ⟨List.dropLast_prefix _, Nat.sub_lt (Nat.lt_trans Nat.one_pos hd) Nat.one_pos⟩

/-- What is below a resource that is in a tree is enclosed by it, or by something below it. -/
theorem exists_parent? (h : a.isBelow b) (hb : 0 < b.depth) :
    ∃ p, a.parent? = some p ∧ (b = p ∨ p.isBelow b) := by
  obtain ⟨hbegins, hl⟩ := isBelow_iff.1 h
  have hcontinues : b.segments <+: a.segments.dropLast := by
    refine List.prefix_of_prefix_length_le hbegins (List.dropLast_prefix _) ?_
    rw [List.length_dropLast]
    omega
  exact ⟨⟨a.segments.dropLast⟩, parent?_eq_some_iff.2 ⟨Nat.lt_of_le_of_lt hb hl, rfl⟩,
    eq_or_isBelow_of_continues hcontinues⟩

/-- **A resource is below those that are reached by going up**, as far as they are in a tree. -/
theorem isBelow_iff_transGen (hb : 0 < b.depth) :
    a.isBelow b ↔ Relation.TransGen (fun x y => x.parent? = some y) a b := by
  constructor
  · intro h
    induction hd : a.depth using Nat.strongRecOn generalizing a with
    | ind n ih =>
      obtain ⟨p, hp, rfl | hbelow⟩ := exists_parent? h hb
      · exact .single hp
      · have hlt : p.depth < n := hd ▸ (isBelow_iff.1 (isBelow_of_parent? hp)).2
        exact .head hp (ih _ hlt hbelow rfl)
  · intro h
    induction h using Relation.TransGen.head_induction_on with
    | single hp => exact isBelow_of_parent? hp
    | head hp _ ih => exact isBelow_trans (isBelow_of_parent? hp) ih

/-! ## Ascending order -/

theorem lt_of_le_of_ne (h : a ≤ b) (hne : a ≠ b) : a < b := by
  change (compare a b).isLE at h
  change compare a b = .lt
  cases hc : compare a b with
  | lt => rfl
  | eq => exact absurd (Std.LawfulEqOrd.eq_of_compare hc) hne
  | gt => rw [hc] at h; cases h

theorem not_lt_of_le (h : a ≤ b) : ¬ b < a := by
  intro hlt
  change (compare a b).isLE at h
  rw [Std.OrientedOrd.eq_swap (a := a), show compare b a = .lt from hlt] at h
  cases h

section Lists

variable {xs ys zs : List String}

/-- A list comes before all that continue it. -/
theorem compare_append_of_ne_nil (h : ys ≠ []) (xs : List String) :
    compare xs (xs ++ ys) = .lt := by
  induction xs with
  | nil =>
    cases ys with
    | nil => exact absurd rfl h
    | cons y ys => exact List.compare_nil_cons
  | cons x xs ih =>
    rw [List.cons_append, List.compare_cons_cons, ih, Std.ReflOrd.compare_self]
    rfl

/-- What comes between a list and one that continues it, continues it as well. -/
theorem prefix_of_between (h : compare xs ys = .lt) (h' : (compare ys (xs ++ zs)).isLE) :
    xs <+: ys := by
  induction xs generalizing ys with
  | nil => exact List.nil_prefix
  | cons x xs ih =>
    cases ys with
    | nil =>
      rw [List.compare_cons_nil] at h
      cases h
    | cons y ys =>
      rw [List.compare_cons_cons] at h
      rw [List.cons_append, List.compare_cons_cons, Std.OrientedOrd.eq_swap (a := y)] at h'
      -- the first elements are the same, for neither can come before the other
      cases hc : compare x y with
      | lt =>
        rw [hc] at h'
        cases h'
      | eq =>
        obtain rfl := Std.LawfulEqOrd.eq_of_compare hc
        rw [hc] at h h'
        exact List.cons_prefix_cons.2 ⟨rfl, ih h h'⟩
      | gt =>
        rw [hc] at h
        cases h

end Lists

/-- **What is below a resource comes after it.** -/
theorem lt_of_isBelow (h : a.isBelow b) : b < a := by
  obtain ⟨⟨more, hmore⟩, hl⟩ := isBelow_iff.1 h
  change compare b.segments a.segments = .lt
  rw [← hmore]
  refine compare_append_of_ne_nil ?_ _
  rintro rfl
  rw [← hmore, List.append_nil] at hl
  exact Nat.lt_irrefl _ hl

/-- **Between a resource and what is below it there is nothing else.** -/
theorem isBelow_of_between (h : a.isBelow b) (hlt : b < c) (hle : c ≤ a) : c.isBelow b := by
  obtain ⟨more, hmore⟩ := (isBelow_iff.1 h).1
  change (compare c.segments a.segments).isLE at hle
  rw [← hmore] at hle
  rcases eq_or_isBelow_of_continues (prefix_of_between hlt hle) with rfl | hbelow
  · change compare b b = .lt at hlt
    rw [Std.ReflOrd.compare_self] at hlt
    cases hlt
  · exact hbelow

/-- In ascending order what is below a resource comes directly after it. -/
theorem exists_block {rs : List Resource} (h : (b :: rs).Pairwise (· ≤ ·)) (hb : b ∉ rs) :
    ∃ below later, rs = below ++ later ∧ (∀ a ∈ below, a.isBelow b) ∧
      ∀ a ∈ later, ¬ a.isBelow b := by
  induction rs with
  | nil => exact ⟨[], [], rfl, by simp, by simp⟩
  | cons r rs ih =>
    obtain ⟨hfirst, hrest⟩ := List.pairwise_cons.1 h
    by_cases hr : r.isBelow b
    · obtain ⟨below, later, rfl, hbelow, hlater⟩ :=
        ih (h.sublist ((List.sublist_cons_self r rs).cons_cons b)) fun hm => hb (.tail r hm)
      refine ⟨r :: below, later, rfl, fun a hm => ?_, hlater⟩
      rcases List.mem_cons.1 hm with rfl | hm
      · exact hr
      · exact hbelow a hm
    · refine ⟨[], r :: rs, rfl, by simp, fun a hm hbelow => hr ?_⟩
      have hle : r ≤ a := by
        rcases List.mem_cons.1 hm with rfl | hm
        · exact absurd hbelow hr
        · exact (List.pairwise_cons.1 hrest).1 a hm
      exact isBelow_of_between hbelow
        (lt_of_le_of_ne (hfirst r List.mem_cons_self) fun he => hb (he ▸ List.mem_cons_self)) hle

/-- The last occurrence of an element. -/
theorem exists_last {rs : List Resource} (h : b ∈ rs) :
    ∃ earlier rest, rs = earlier ++ b :: rest ∧ b ∉ rest := by
  obtain ⟨rest, earlier, hsplit, hout⟩ := List.eq_append_cons_of_mem (List.mem_reverse.2 h)
  refine ⟨earlier.reverse, rest.reverse, ?_, by simpa using hout⟩
  rw [← List.reverse_reverse rs, hsplit]
  simp

/-- **The hierarchy of resources fits their order.** No resource is below itself, what is below
something below a resource is below it, and of two resources above a third one is above the other,
if they are not the same. Whatever is in a tree, the resources below it are those from which it is
reached by going up, once or more often. In ascending order the resources below a resource come
after it, and what lies in between is below it as well. So in every ascending list they form one
block, directly after the last copy of it. -/
theorem hierarchy_fits_order :
    (∀ a : Resource, ¬ a.isBelow a) ∧
    (∀ a b c : Resource, a.isBelow b → b.isBelow c → a.isBelow c) ∧
    (∀ a b c : Resource, a.isBelow b → a.isBelow c → b = c ∨ b.isBelow c ∨ c.isBelow b) ∧
    (∀ a b : Resource, 0 < b.depth →
      (a.isBelow b ↔ Relation.TransGen (fun x y => x.parent? = some y) a b)) ∧
    (∀ a b : Resource, a.isBelow b → b < a) ∧
    (∀ a b c : Resource, a.isBelow b → b < c → c ≤ a → c.isBelow b) ∧
    ∀ (rs : List Resource) (b : Resource), rs.Pairwise (· ≤ ·) → b ∈ rs →
      ∃ earlier below later, rs = earlier ++ b :: (below ++ later) ∧ b ∉ below ++ later ∧
        (∀ a ∈ below, a.isBelow b) ∧ ∀ a ∈ earlier ++ later, ¬ a.isBelow b := by
  refine ⟨not_isBelow_self, fun _ _ _ => isBelow_trans, fun _ _ _ => eq_or_isBelow,
    fun _ _ => isBelow_iff_transGen, fun _ _ => lt_of_isBelow, fun _ _ _ => isBelow_of_between, ?_⟩
  intro rs b hsorted hb
  obtain ⟨earlier, rest, rfl, hout⟩ := exists_last hb
  obtain ⟨-, hrest, hacross⟩ := List.pairwise_append.1 hsorted
  obtain ⟨below, later, rfl, hbelow, hlater⟩ := exists_block hrest hout
  refine ⟨earlier, below, later, rfl, hout, hbelow, fun a hm => ?_⟩
  rcases List.mem_append.1 hm with hm | hm
  · exact fun h => not_lt_of_le (hacross a hm b List.mem_cons_self) (lt_of_isBelow h)
  · exact hlater a hm

/-- Two copies of a resource, what is below it, and what only looks like it. -/
def pages : List Resource :=
  [⟨[]⟩, .root "db", ⟨["db", "t"]⟩, ⟨["db", "t"]⟩, ⟨["db", "t", ""]⟩, ⟨["db", "t", "p", "q"]⟩,
    ⟨["db", "t2"]⟩]

theorem hierarchy_fits_order_pages :
    pages.Pairwise (· ≤ ·) ∧
      (∃ earlier below later, pages = earlier ++ ⟨["db", "t"]⟩ :: (below ++ later) ∧
        ⟨["db", "t"]⟩ ∉ below ++ later ∧ (∀ a ∈ below, a.isBelow ⟨["db", "t"]⟩) ∧
        ∀ a ∈ earlier ++ later, ¬ a.isBelow ⟨["db", "t"]⟩) ∧
      Relation.TransGen (fun x y : Resource => x.parent? = some y) ⟨["db", "t", "p", "q"]⟩
        (.root "db") := by
  obtain ⟨-, -, -, hup, -, -, hblock⟩ := hierarchy_fits_order
  have hsorted : pages.Pairwise (· ≤ ·) := by decide +kernel
  exact ⟨hsorted, hblock pages ⟨["db", "t"]⟩ hsorted (by decide),
    (hup ⟨["db", "t", "p", "q"]⟩ (.root "db") (by decide)).1 (by decide)⟩

end Locking.Resource
