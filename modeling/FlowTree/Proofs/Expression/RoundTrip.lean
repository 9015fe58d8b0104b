import FlowTree.Expression.Basic
import FlowTree.Proofs.Expression.Registry

/-!
# FlowTree.Proofs.Expression.RoundTrip

Reading what was written, and writing back what was read.

A written holder has one language under the wrapper and none beside it, so that the
reading cannot take another one:

* `firstNamed_singleton` — the only key of a wrapper is the one that is taken;
* `modelName_notMem_dropLanguages` — a written holder has no language key of its own;
* `ofHolder_write` — what is written is what is read;
* `ofHolder_writeBack` — a holder reads the same after its expression is written
  back into it, in whichever form it was written before.

The registry has to be `Coherent`: every language is found under its id and under
its model name.  One of them may have the wrapper's own key as its model name.
-/

namespace FlowTree

/-- Every listed language has an id, and is the one found under its id and under its
model name. -/
structure Languages.Coherent (ls : Languages) : Prop where
  id_ne : ∀ l ∈ ls.list, l.id ≠ ""
  get?_id : ∀ l ∈ ls.list, ls.get? l.id = some l
  byModelName?_modelName : ∀ l ∈ ls.list, ls.byModelName? l.modelName = some l

theorem Languages.coherent_builtin : builtin.Coherent :=
  ⟨by decide +kernel, by decide +kernel, by decide +kernel⟩

namespace Expression

/-! ## Language keys -/

theorem firstNamed_eq_none_iff {fields : Fields Json} {list : List Language} :
    firstNamed fields list = none ↔ ∀ l ∈ list, fields.get? l.modelName = none := by
  induction list with
  | nil => simp [firstNamed]
  | cons l rest ih =>
      cases h : fields.get? l.modelName with
      | none => simp [firstNamed, h, ih]
      | some value => simp [firstNamed, h]

theorem exists_of_firstNamed {fields : Fields Json} {list : List Language}
    {found : String × Json} (h : firstNamed fields list = some found) :
    ∃ l ∈ list, l.modelName = found.1 ∧ fields.get? found.1 = some found.2 := by
  induction list with
  | nil => contradiction
  | cons l rest ih =>
      rw [firstNamed] at h
      split at h
      · rename_i value hv
        rw [← Option.some.inj h]
        exact ⟨l, by simp, rfl, hv⟩
      · obtain ⟨other, ho, hn⟩ := ih h
        exact ⟨other, by simp [ho], hn⟩

/-- The key of a language is taken when the object has no key of another one. -/
theorem firstNamed_of_only {fields : Fields Json} {list : List Language} {l : Language}
    {value : Json} (hl : l ∈ list) (hv : fields.get? l.modelName = some value)
    (honly : ∀ other ∈ list, other.modelName ≠ l.modelName →
      fields.get? other.modelName = none) :
    firstNamed fields list = some (l.modelName, value) := by
  cases hf : firstNamed fields list with
  | none =>
      rw [firstNamed_eq_none_iff.1 hf l hl] at hv
      contradiction
  | some found =>
      obtain ⟨other, ho, hm, hg⟩ := exists_of_firstNamed hf
      have hname : other.modelName = l.modelName := by
        by_contra hne
        rw [← hm, honly other ho hne] at hg
        contradiction
      rw [← hm, hname, hv] at hg
      rw [← hname, hm, Option.some.inj hg]

/-- The only key of an object is taken when a language has it. -/
theorem firstNamed_singleton {list : List Language} {l : Language} (h : l ∈ list) (value : Json) :
    firstNamed [(l.modelName, value)] list = some (l.modelName, value) := by
  have hv : Fields.get? l.modelName [(l.modelName, value)] = some value := if_pos rfl
  refine firstNamed_of_only h hv fun other _ hne => ?_
  rw [Fields.get?_cons, if_neg (Ne.symm hne), Fields.get?_nil]

/-! ## Dropping languages -/

/-- Whether a key is the model name of no language. -/
def isFree (list : List Language) (key : String) : Bool := list.all (·.modelName ≠ key)

theorem isFree_iff {list : List Language} {key : String} :
    isFree list key = true ↔ ∀ l ∈ list, l.modelName ≠ key := by
  simp [isFree]

/-- Dropping languages keeps the fields of all other keys, in order. -/
theorem dropLanguages_eq_filter (list : List Language) (fields : Fields Json) :
    dropLanguages list fields = fields.filter fun field => isFree list field.1 := by
  unfold dropLanguages
  induction list generalizing fields with
  | nil => exact (List.filter_eq_self.2 fun _ _ => rfl).symm
  | cons l rest ih =>
      rw [List.foldl_cons, ih, Fields.drop_eq_filter, List.filter_filter]
      refine List.filter_congr fun field _ => ?_
      simp [isFree, Bool.and_comm, eq_comm]

/-- A key that is left is free. -/
theorem isFree_of_mem_keys {list : List Language} {fields : Fields Json} {key : String}
    (h : key ∈ Fields.keys (dropLanguages list fields)) : isFree list key = true := by
  rw [dropLanguages_eq_filter] at h
  exact (Fields.mem_keys_filter_iff.1 h).2

/-- No language key is left. -/
theorem modelName_notMem_dropLanguages {list : List Language} {l : Language} (h : l ∈ list)
    (fields : Fields Json) : l.modelName ∉ Fields.keys (dropLanguages list fields) :=
  fun hkey => isFree_iff.1 (isFree_of_mem_keys hkey) l h rfl

/-! ## The two ways of writing -/

theorem wrapped_put (inner fields : Fields Json) :
    wrapped (fields.put wrapperKey (.obj inner)) = inner := by
  rw [wrapped, Fields.get?_put_self]

theorem wrapped_drop (fields : Fields Json) : wrapped (fields.drop wrapperKey) = [] := by
  rw [wrapped, Fields.get?_drop_self]

/-- A language under the wrapper is read, whatever stands beside it. -/
theorem ofHolder_put {languages : Languages} (h : languages.Coherent) {l : Language}
    (hl : l ∈ languages.list) (model : Json) (fields : Fields Json) :
    ofHolder languages
        (.obj (fields.put wrapperKey (.obj [(l.modelName, payload model)]))) = of l.id model := by
  rw [ofHolder, wrapped_put, firstNamed_singleton hl, Option.some_or]
  simp [ofNamed, h.byModelName?_modelName l hl, of]

/-- Without language keys and wrapper there is nothing to read. -/
theorem ofHolder_drop (languages : Languages) (fields : Fields Json) :
    ofHolder languages (.obj ((dropLanguages languages.list fields).drop wrapperKey)) = empty := by
  have hw : firstNamed [] languages.list = none := firstNamed_eq_none_iff.2 fun _ _ => rfl
  have hb : firstNamed ((dropLanguages languages.list fields).drop wrapperKey) languages.list =
      none :=
    firstNamed_eq_none_iff.2 fun l hl => Fields.get?_eq_none fun hkey =>
      modelName_notMem_dropLanguages hl fields (Fields.mem_keys_drop_iff.1 hkey).1
  simp only [ofHolder, wrapped_drop, hw, hb, Option.none_or]

/-- A coherent registry chooses the language that an id asks for. -/
theorem chosen?_of_get? {languages : Languages} (h : languages.Coherent) {id : String}
    {l : Language} (hl : languages.get? id = some l) : chosen? languages (some id) = some l := by
  have hne : id ≠ "" := Languages.id_of_get? hl ▸ h.id_ne l (Languages.mem_of_get? hl)
  simp [chosen?, Option.filter, hne, hl]

theorem write_obj (languages : Languages) (id : Option String) (model : Json)
    (fields : Fields Json) :
    write languages id model (.obj fields) =
      (.obj (writeFields languages id model fields), .applied) := rfl

/-- What is written is what is read. -/
theorem ofHolder_writeFields {languages : Languages} (h : languages.Coherent) {id : String}
    {l : Language} (hl : languages.get? id = some l) (model : Json) (fields : Fields Json) :
    ofHolder languages (.obj (writeFields languages (some id) model fields)) = of id model := by
  rw [writeFields, chosen?_of_get? h hl, ← Languages.id_of_get? hl]
  exact ofHolder_put h (Languages.mem_of_get? hl) model _

/-- Without a language nothing is left to read. -/
theorem ofHolder_writeFields_none (languages : Languages) (model : Json) (fields : Fields Json) :
    ofHolder languages (.obj (writeFields languages none model fields)) = empty :=
  ofHolder_drop languages fields

/-- A holder that takes an expression holds the one that is written. -/
theorem ofHolder_write {languages : Languages} (h : languages.Coherent) {holder : Json}
    (hh : holder = .null ∨ ∃ fields, holder = .obj fields) {id : String}
    (hid : (languages.get? id).isSome = true) (model : Json) :
    (write languages (some id) model holder).2 = .applied ∧
      ofHolder languages (write languages (some id) model holder).1 = of id model := by
  obtain ⟨l, hl⟩ := Option.isSome_iff_exists.1 hid
  rcases hh with rfl | ⟨fields, rfl⟩
  · exact ⟨rfl, ofHolder_writeFields h hl model []⟩
  · exact ⟨rfl, ofHolder_writeFields h hl model fields⟩

/-! ## Writing back -/

/-- A holder with the expression that is read in it written back into it. -/
def writeBack (languages : Languages) (holder : Json) : Json :=
  let read := ofHolder languages holder
  (write languages read.language (read.model.getD .null) holder).1

/-- An expression that is read is none, or that of a listed language. -/
theorem ofHolder_cases {languages : Languages} (h : languages.Coherent) (fields : Fields Json) :
    ofHolder languages (.obj fields) = empty ∨
      ∃ l ∈ languages.list, ∃ value, ofHolder languages (.obj fields) = of l.id value := by
  rw [ofHolder]
  cases hn : (firstNamed (wrapped fields) languages.list).or
      (firstNamed fields languages.list) with
  | none => exact .inl rfl
  | some found =>
      have hf : ∃ inner, firstNamed inner languages.list = some found := by
        rcases Option.or_eq_some_iff.1 hn with hw | ⟨-, hb⟩
        · exact ⟨_, hw⟩
        · exact ⟨_, hb⟩
      obtain ⟨inner, hf⟩ := hf
      obtain ⟨l, hl, hm, -⟩ := exists_of_firstNamed hf
      refine .inr ⟨l, hl, found.2, ?_⟩
      simp [ofNamed, ← hm, h.byModelName?_modelName l hl]

/-- A holder reads the same after its expression was written back. -/
theorem ofHolder_writeBack {languages : Languages} (h : languages.Coherent) (holder : Json) :
    ofHolder languages (writeBack languages holder) = ofHolder languages holder := by
  cases holder with
  | obj fields =>
      rcases ofHolder_cases h fields with he | ⟨l, hl, value, he⟩
      · rw [writeBack, he]
        exact ofHolder_writeFields_none languages .null fields
      · rw [writeBack, he, of, Option.getD_some, write_obj,
          ofHolder_writeFields h (h.get?_id l hl), of, payload_payload]
  | null => exact ofHolder_writeFields_none languages .null []
  | bool | num | str | arr => rfl

/-- **Round trip.** Where every language is found under its id and its model name, an
expression written into a null holder or an object is the one that is read, its
payload as an object; and any holder at all reads the same after what is read in it
is written back. -/
theorem write_read_roundTrip {languages : Languages} (h : languages.Coherent) :
    (∀ (holder : Json) (id : String) (model : Json),
      (holder = .null ∨ ∃ fields, holder = .obj fields) → (languages.get? id).isSome = true →
      (write languages (some id) model holder).2 = .applied ∧
        ofHolder languages (write languages (some id) model holder).1 = of id model) ∧
    ∀ holder, ofHolder languages (writeBack languages holder) = ofHolder languages holder :=
  ⟨fun _ _ model hh hid => ofHolder_write h hh hid model, ofHolder_writeBack h⟩

/-- A language whose model name is the wrapper's own key, and a holder that has it
both bare and wrapped, beside another language and a key of none. -/
theorem write_read_roundTrip_nested :
    let nested : Language := ⟨"nested", "expression", "Nested", none⟩
    let languages := Languages.ofList [nested, .ofId "simple" "Simple"]
    let holder : Json := .obj [("mvel", .null), ("simple", .str "a"),
      ("expression", .obj [("jq", .bool true), ("expression", .arr [.null])])]
    languages.Coherent ∧
      (write languages (some "nested") (.str "b") holder).2 = .applied ∧
      ofHolder languages (write languages (some "nested") (.str "b") holder).1 =
        of "nested" (.str "b") ∧
      ofHolder languages holder = of "nested" (.arr [.null]) ∧
      ofHolder languages (writeBack languages holder) = of "nested" (.arr [.null]) := by
  intro nested languages holder
  have hc : languages.Coherent :=
    ⟨by decide +kernel, by decide +kernel, by decide +kernel⟩
  have hr : ofHolder languages holder = of "nested" (.arr [.null]) := by decide +kernel
  have hw := (write_read_roundTrip hc).1 holder "nested" (.str "b") (.inr ⟨_, rfl⟩)
    (by decide +kernel)
  exact ⟨hc, hw.1, hw.2, hr, ((write_read_roundTrip hc).2 holder).trans hr⟩

end Expression

end FlowTree
