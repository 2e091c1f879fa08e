import Locking.Json.Forms

/-!
# What is read and what is written

More is read than is written. What is read is told here by its forms, so that it can be compared
with what the readers do. Whatever form a value has, written down again it has the one written form,
and reading that changes nothing.

* `Json.IsRecord`, `Json.IsChoice`: the forms of records and of optional fields.
* `Mode.Form`, `Resource.Form`, `Lock.Form`, `Settings.Form`: the forms of each kind, made up from
  these.
* `Normalises`: a reader accepts just these forms, and writing brings them to one.
* `forms_normalised`: all four kinds do so.
-/

namespace Locking

/-! ## Forms of values -/

namespace Json

/-- A record is an object that has the fields among others, each of them once or not at all, or an
array of exactly the fields. -/
inductive IsRecord (names : List String) : Json → List (Option Json) → Prop where
  | object {fields : List (String × Json)}
    (h : ∀ name ∈ names, (fields.map Prod.fst).count name ≤ 1) :
    IsRecord names (.obj fields) (names.map fun name => fields.lookup name)
  | array {items : List Json} (h : items.length = names.length) :
    IsRecord names (.arr items) (items.map some)

/-- An optional field is left out or null if nothing is chosen, and else it holds what is chosen. -/
inductive IsChoice {A : Type} (write : A → Json) : Option Json → Option A → Prop where
  | absent : IsChoice write none none
  | null : IsChoice write (some .null) none
  | chosen (a : A) : IsChoice write (some (write a)) (some a)

variable {names : List String} {value : Json} {fields : List (Option Json)}

theorem record?_eq_some_iff : value.record? names = some fields ↔ IsRecord names value fields := by
  constructor
  · intro h
    cases value with
    | obj found =>
      rw [record?, Option.ite_none_right_eq_some] at h
      obtain ⟨honce, h⟩ := h
      cases h
      exact .object honce
    | arr items =>
      rw [record?, Option.ite_none_right_eq_some] at h
      obtain ⟨hl, h⟩ := h
      cases h
      exact .array hl
    | _ => cases h
  · rintro (honce | hl)
    · exact if_pos honce
    · exact if_pos hl

theorem str?_eq_some_iff {text : String} : value.str? = some text ↔ value = .str text := by
  cases value <;> simp [str?]

theorem bool?_eq_some_iff {choice : Bool} : value.bool? = some choice ↔ value = .bool choice := by
  cases value <;> simp [bool?]

/-- A list of texts is read item by item. -/
theorem mapM_str?_eq_some_iff {items : List Json} {texts : List String} :
    items.mapM str? = some texts ↔ items = texts.map .str := by
  induction items generalizing texts with
  | nil => cases texts <;> simp
  | cons item items ih =>
    simp only [List.mapM_cons, Option.bind_eq_bind, Option.bind_eq_some_iff, Option.pure_def,
      Option.some.injEq, str?_eq_some_iff, ih]
    constructor
    · rintro ⟨text, rfl, rest, rfl, rfl⟩
      rfl
    · intro h
      cases texts with
      | nil => cases h
      | cons text texts =>
        obtain ⟨rfl, rfl⟩ := List.cons.inj h
        exact ⟨text, rfl, texts, rfl, rfl⟩

theorem strings?_eq_some_iff {texts : List String} :
    value.strings? = some texts ↔ value = .arr (texts.map .str) := by
  cases value with
  | arr items => rw [strings?, mapM_str?_eq_some_iff, arr.injEq]
  | _ => exact iff_of_false nofun nofun

theorem word?_eq_some_iff {word : UInt64} : value.word? = some word ↔ value = .int word.toNat := by
  cases value with
  | int n =>
    rw [word?, Option.ite_none_right_eq_some, int.injEq, Option.some.injEq]
    constructor
    · rintro ⟨⟨hpos, hlt⟩, rfl⟩
      rw [UInt64.toNat_ofNat_of_lt' (by omega), Int.toNat_of_nonneg hpos]
    · rintro rfl
      have hlt := word.toNat_lt
      refine ⟨⟨Int.natCast_nonneg _, by exact_mod_cast hlt⟩, ?_⟩
      rw [Int.toNat_natCast, UInt64.ofNat_toNat]
  | _ => exact iff_of_false nofun nofun

theorem optional?_eq_some_iff {A : Type} {read : Json → Option A} {write : A → Json}
    (hread : ∀ {value a}, read value = some a ↔ value = write a) (hnull : ∀ a, write a ≠ .null)
    {field : Option Json} {choice : Option A} :
    optional? read field = some choice ↔ IsChoice write field choice := by
  constructor
  · intro h
    unfold optional? at h
    split at h
    · cases h
      exact .absent
    · cases h
      exact .null
    · obtain ⟨a, ha, rfl⟩ := Option.map_eq_some_iff.1 h
      rw [hread.1 ha]
      exact .chosen a
  · rintro (_ | _ | a)
    · rfl
    · rfl
    · -- what is written is not null, so it is read
      unfold optional?
      split
      · rename_i hn
        cases hn
      · rename_i hn
        exact absurd (Option.some.inj hn) (hnull a)
      · rename_i hn
        rw [← Option.some.inj hn, hread.2 rfl]
        rfl

end Json

open Json

/-- A mode is its code, or an object that holds nothing but null under its code. -/
inductive Mode.Form : Json → Mode → Prop where
  | code (m : Mode) : Form (.str m.code) m
  | tagged (m : Mode) : Form (.obj [(m.code, .null)]) m

/-- A resource is a record of its segments. -/
inductive Resource.Form : Json → Resource → Prop where
  | record {value : Json} {segments : List String}
    (h : IsRecord ["segments"] value [some (.arr (segments.map .str))]) : Form value ⟨segments⟩

/-- A lock is a record of its resource, its mode and its owner, the first two in any form. -/
inductive Lock.Form : Json → Lock → Prop where
  | record {value resource mode : Json} {l : Lock}
    (h : IsRecord ["name", "lock_type", "transaction"] value
      [some resource, some mode, some (.int l.owner.toNat)])
    (hresource : Resource.Form resource l.resource) (hmode : Mode.Form mode l.mode) : Form value l

/-- Settings are a record of optional choices. -/
inductive Settings.Form : Json → Settings → Prop where
  | record {value : Json} {name check : Option Json} {s : Settings}
    (h : IsRecord ["database-context-name", "check-invariants"] value [name, check])
    (hname : IsChoice .str name s.databaseName?)
    (hcheck : IsChoice .bool check s.checkInvariants?) : Form value s

/-! ## Readers accept these forms -/

variable {value : Json}

theorem Mode.ofJson?_eq_some_iff {m : Mode} : ofJson? value = some m ↔ Form value m := by
  constructor
  · intro h
    unfold ofJson? at h
    split at h
    · rw [ofCode?_eq_some_iff] at h
      exact h ▸ .code m
    · rw [ofCode?_eq_some_iff] at h
      exact h ▸ .tagged m
    · cases h
  · rintro (_ | _)
    · exact ofCode?_code m
    · exact ofCode?_code m

theorem Resource.ofJson?_eq_some_iff {r : Resource} : ofJson? value = some r ↔ Form value r := by
  constructor
  · intro h
    unfold ofJson? at h
    split at h
    · rename_i segments hrecord
      obtain ⟨texts, htexts, rfl⟩ := Option.map_eq_some_iff.1 h
      rw [strings?_eq_some_iff.1 htexts, record?_eq_some_iff] at hrecord
      exact .record hrecord
    · cases h
  · rintro ⟨h⟩
    simp only [ofJson?, record?_eq_some_iff.2 h, strings?_eq_some_iff.2 rfl, Option.map_some]

theorem Lock.ofJson?_eq_some_iff {l : Lock} : ofJson? value = some l ↔ Form value l := by
  constructor
  · intro h
    unfold ofJson? at h
    split at h
    · rename_i resource mode owner hrecord
      simp only [Option.bind_eq_bind, Option.bind_eq_some_iff, Option.some.injEq] at h
      obtain ⟨r, hr, m, hm, txn, htxn, rfl⟩ := h
      rw [word?_eq_some_iff.1 htxn, record?_eq_some_iff] at hrecord
      exact .record hrecord (Resource.ofJson?_eq_some_iff.1 hr) (Mode.ofJson?_eq_some_iff.1 hm)
    · cases h
  · rintro ⟨h, hresource, hmode⟩
    simp only [ofJson?, record?_eq_some_iff.2 h, Resource.ofJson?_eq_some_iff.2 hresource,
      Mode.ofJson?_eq_some_iff.2 hmode, word?_eq_some_iff.2 rfl, Option.bind_eq_bind,
      Option.bind_some]

theorem Settings.ofJson?_eq_some_iff {s : Settings} : ofJson? value = some s ↔ Form value s := by
  have hname : ∀ {field choice}, optional? str? field = some choice ↔ IsChoice .str field choice :=
    optional?_eq_some_iff str?_eq_some_iff nofun
  have hcheck : ∀ {field choice}, optional? bool? field = some choice ↔
      IsChoice .bool field choice :=
    optional?_eq_some_iff bool?_eq_some_iff nofun
  constructor
  · intro h
    unfold ofJson? at h
    split at h
    · rename_i name check hrecord
      simp only [Option.bind_eq_bind, Option.bind_eq_some_iff, Option.some.injEq, hname,
        hcheck] at h
      obtain ⟨name?, hn, check?, hc, rfl⟩ := h
      exact .record (record?_eq_some_iff.1 hrecord) hn hc
    · cases h
  · rintro ⟨h, hn, hc⟩
    simp only [ofJson?, record?_eq_some_iff.2 h, hname.2 hn, hcheck.2 hc, Option.bind_eq_bind,
      Option.bind_some]

/-! ## What is written has such a form -/

theorem Mode.form_toJson (m : Mode) : Form m.toJson m := .code m

theorem Resource.form_toJson (r : Resource) : Form r.toJson r := .record (.object (by simp))

theorem Lock.form_toJson (l : Lock) : Form l.toJson l :=
  .record (.object (by simp)) l.resource.form_toJson l.mode.form_toJson

theorem Settings.form_toJson (s : Settings) : Form s.toJson s := by
  rcases s with ⟨_ | name, _ | check⟩
  · exact .record (.object (by simp)) .absent .absent
  · exact .record (.object (by simp)) .absent (.chosen check)
  · exact .record (.object (by simp)) (.chosen name) .absent
  · exact .record (.object (by simp)) (.chosen name) (.chosen check)

/-- **A reader accepts just the values of certain forms, and writing brings each of them to one**:
what has been written is read back, and what has been read in any form, written down and read again
is the same as before, and so is its written form. -/
structure Normalises {A : Type} (read : Json → Option A) (write : A → Json)
    (form : Json → A → Prop) : Prop where
  reads : ∀ value a, read value = some a ↔ form value a
  back : ∀ a, read (write a) = some a
  again : ∀ value a, read value = some a →
    ∃ b, read (write a) = some b ∧ b = a ∧ write b = write a

theorem Normalises.of_form {A : Type} {read : Json → Option A} {write : A → Json}
    {form : Json → A → Prop} (hreads : ∀ {value a}, read value = some a ↔ form value a)
    (hwrites : ∀ a, form (write a) a) : Normalises read write form where
  reads := fun _ _ => hreads
  back := fun a => hreads.2 (hwrites a)
  again := fun _ a _ => ⟨a, hreads.2 (hwrites a), rfl, rfl⟩

/-- **Whatever is read is brought to its written form.** Modes, resources of any depth, locks of any
transaction and settings are read back as they were written. What is read as one of them are the
values of the forms above, mixed in any way and with any further fields; each of them leads to the
written form of what it is read as, and from there nowhere else. -/
theorem forms_normalised :
    Normalises Mode.ofJson? Mode.toJson Mode.Form ∧
      Normalises Resource.ofJson? Resource.toJson Resource.Form ∧
      Normalises Lock.ofJson? Lock.toJson Lock.Form ∧
      Normalises Settings.ofJson? Settings.toJson Settings.Form :=
  ⟨.of_form Mode.ofJson?_eq_some_iff Mode.form_toJson,
    .of_form Resource.ofJson?_eq_some_iff Resource.form_toJson,
    .of_form Lock.ofJson?_eq_some_iff Lock.form_toJson,
    .of_form Settings.ofJson?_eq_some_iff Settings.form_toJson⟩

/-- A lock as an array, its resource with a further field, and its mode as an object. -/
example :
    let value : Json := .arr [.obj [("segments", .arr [.str "db", .str ""]), ("kind", .null)],
      .obj [("SIX", .null)], .int 18446744073709551615]
    (Lock.ofJson? value).map Lock.toJson =
      some (Lock.toJson ⟨⟨["db", ""]⟩, .six, 18446744073709551615⟩) := by
  rfl

end Locking
