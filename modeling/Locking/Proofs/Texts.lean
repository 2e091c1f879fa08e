import Locking.Resource

/-!
# Texts of resources

Messages, log records and the texts of locks name a resource by its text alone. A text is cut at its
slashes again, and where no segment contains one this gives back the path. So a text tells which
resource is meant, and two texts tell whether one resource is below the other.

* `Resource.Plain`: the resource is in a tree, and no segment contains a slash.
* `Resource.cut`: the segments that a text consists of.
* `cut_text`: a path is read back from its text.
* `text_identifies`: what follows for two resources.
-/

namespace Locking.Resource

variable {a b : Resource}

/-- The resource is in a tree, and its segments contain no slash. They may be empty. -/
structure Plain (r : Resource) : Prop where
  inTree : 0 < r.depth
  noSlash : ∀ segment ∈ r.segments, '/' ∉ segment.toList

/-- The segments that a text consists of, from one slash to the next. -/
def cut (text : String) : List String := (text.toList.splitOn '/').map String.ofList

theorem toList_text (r : Resource) :
    r.text.toList = ['/'].intercalate (r.segments.map String.toList) :=
  String.toList_intercalate

/-- There is at least one segment in a text. -/
theorem cut_ne_nil (text : String) : cut text ≠ [] := by
  rw [cut, ne_eq, List.map_eq_nil_iff]
  exact List.splitOn_ne_nil '/' text.toList

/-- **A path is read back from its text.** -/
theorem cut_text (h : a.Plain) : cut a.text = a.segments := by
  have hne : a.segments.map String.toList ≠ [] := by
    rw [ne_eq, List.map_eq_nil_iff, ← List.length_eq_zero_iff]
    exact Nat.ne_of_gt h.inTree
  have hfree : ∀ cs ∈ a.segments.map String.toList, '/' ∉ cs := by
    intro cs hm
    obtain ⟨segment, hsegment, rfl⟩ := List.mem_map.1 hm
    exact h.noSlash segment hsegment
  rw [cut, toList_text, List.splitOn_intercalate '/' hfree hne, List.map_map]
  simp

/-- A slash separates the segments before it from those behind it. -/
theorem cut_append (before after : String) :
    cut (before ++ "/" ++ after) = cut before ++ cut after := by
  have hlist : (before ++ "/" ++ after).toList = before.toList ++ '/' :: after.toList := by
    simp
  rw [cut, hlist, List.splitOn_append_cons_self, List.map_append]
  rfl

/-- Resources with the same text are the same. -/
theorem eq_of_text_eq (ha : a.Plain) (hb : b.Plain) (h : a.text = b.text) : a = b := by
  have hcut := congrArg cut h
  rw [cut_text ha, cut_text hb] at hcut
  exact congrArg mk hcut

/-- The text of a longer path begins with that of a shorter one, and goes on behind a slash. -/
theorem text_of_isBelow (hb : 0 < b.depth) (h : a.isBelow b) :
    ∃ rest, a.text = b.text ++ "/" ++ rest := by
  obtain ⟨⟨more, hmore⟩, hl⟩ := isBelow_iff.1 h
  have hne : b.segments ≠ [] := List.length_pos_iff.1 hb
  have hmore' : more ≠ [] := by
    rintro rfl
    rw [← hmore, List.append_nil] at hl
    exact Nat.lt_irrefl _ hl
  refine ⟨"/".intercalate more, ?_⟩
  rw [text, ← hmore, String.intercalate_append_of_ne_nil hne hmore']
  rfl

/-- What a text says behind that of a resource and a slash is below this resource. -/
theorem isBelow_of_text (ha : a.Plain) (hb : b.Plain) {rest : String}
    (h : a.text = b.text ++ "/" ++ rest) : a.isBelow b := by
  have hsegments : a.segments = b.segments ++ cut rest := by
    rw [← cut_text ha, h, cut_append, cut_text hb]
  have hpos := List.length_pos_iff.2 (cut_ne_nil rest)
  rw [isBelow_iff, hsegments, List.length_append]
  exact ⟨List.prefix_append _ _, Nat.lt_add_of_pos_right hpos⟩

/-- **The text of a resource identifies it**, among resources whose segments contain no slash, and
tells where it is: one of them is below another one exactly if its text begins with the text of the
other and a slash. -/
theorem text_identifies (ha : a.Plain) (hb : b.Plain) :
    (a.text = b.text ↔ a = b) ∧ (a.isBelow b ↔ a.text.startsWith (b.text ++ "/")) := by
  refine ⟨⟨eq_of_text_eq ha hb, congrArg text⟩, ?_⟩
  rw [String.startsWith_string_iff]
  constructor
  · intro h
    obtain ⟨rest, hrest⟩ := text_of_isBelow hb.inTree h
    rw [hrest]
    exact ⟨rest.toList, String.toList_append.symm⟩
  · rintro ⟨rest, hrest⟩
    have htext : a.text = b.text ++ "/" ++ String.ofList rest := by
      rw [← String.toList_inj, String.toList_append, String.toList_ofList, hrest]
    exact isBelow_of_text ha hb htext

/-- Below the table `t` there is a page under an empty segment, but not a page of the table `t2`. -/
theorem text_identifies_pages :
    (⟨["db", "t", "", "p"]⟩ : Resource).Plain ∧ (⟨["db", "t"]⟩ : Resource).Plain ∧
      (⟨["db", "t2", "p"]⟩ : Resource).Plain ∧
      (⟨["db", "t", "", "p"]⟩ : Resource).text.startsWith ((⟨["db", "t"]⟩ : Resource).text ++ "/") ∧
      ¬ (⟨["db", "t2", "p"]⟩ : Resource).text.startsWith ((⟨["db", "t"]⟩ : Resource).text ++ "/") := by
  have hp : (⟨["db", "t", "", "p"]⟩ : Resource).Plain := ⟨by decide, by decide⟩
  have ht : (⟨["db", "t"]⟩ : Resource).Plain := ⟨by decide, by decide⟩
  have hq : (⟨["db", "t2", "p"]⟩ : Resource).Plain := ⟨by decide, by decide⟩
  exact ⟨hp, ht, hq, (text_identifies hp ht).2.1 (by decide),
    mt (text_identifies hq ht).2.2 (by decide)⟩

/-- A slash in a segment cannot be told from one between segments. -/
example : (⟨["a/b"]⟩ : Resource).text = (⟨["a", "b"]⟩ : Resource).text := by decide

end Locking.Resource
