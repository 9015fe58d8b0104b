import FlowTree.Proofs.Editor.Expression

/-!
# FlowTree.Proofs.Expression.Canonical

What a holder looks like once an expression was written into it.

Writing drops the key of every language, and then stores the wrapper with one language in it
or drops the wrapper as well.  One of the languages may have the wrapper's own key as its model
name: then the wrapper is dropped with the others and comes back behind them, and the second
write does the same again.

* `Expression.writeFields_writeFields` — a second write changes nothing;
* `Expression.Canonical` — the form of a written holder;
* `Expression.canonical_writeFields` — every write leads to it;
* `Expression.write_canonical` — the two for holders.
-/

namespace FlowTree

namespace Expression

/-! ## Writing twice -/

/-- Where all keys are free nothing is dropped. -/
theorem dropLanguages_of_isFree {list : List Language} {fields : Fields Json}
    (h : ∀ key ∈ Fields.keys fields, isFree list key = true) :
    dropLanguages list fields = fields := by
  rw [dropLanguages_eq_filter]
  exact Fields.filter_eq_self h

theorem dropLanguages_dropLanguages (list : List Language) (fields : Fields Json) :
    dropLanguages list (dropLanguages list fields) = dropLanguages list fields :=
  dropLanguages_of_isFree fun _ => isFree_of_mem_keys

/-- The wrapper that was stored goes with the languages if its key is one of them, and stays
if it is free. -/
theorem dropLanguages_put (list : List Language) (value : Json) (fields : Fields Json) :
    dropLanguages list ((dropLanguages list fields).put wrapperKey value) =
      if isFree list wrapperKey then (dropLanguages list fields).put wrapperKey value
      else dropLanguages list fields := by
  split
  case isTrue hfree =>
    refine dropLanguages_of_isFree fun key hkey => ?_
    cases Fields.mem_keys_put_iff.1 hkey with
    | inl hwrapper => rwa [hwrapper]
    | inr hrest => exact isFree_of_mem_keys hrest
  case isFalse hfree =>
    rw [dropLanguages_eq_filter, Fields.filter_put (Bool.not_eq_true _ ▸ hfree),
      ← dropLanguages_eq_filter, dropLanguages_dropLanguages]

theorem dropLanguages_drop (list : List Language) (key : String) (fields : Fields Json) :
    dropLanguages list ((dropLanguages list fields).drop key) =
      (dropLanguages list fields).drop key := by
  refine dropLanguages_of_isFree fun other hother => ?_
  exact isFree_of_mem_keys (Fields.mem_keys_drop_iff.1 hother).1

/-- The wrapper of a holder takes the same place again, whether it was dropped in between
or not. -/
theorem writeFields_writeFields (languages : Languages) (id : Option String) (model : Json)
    (fields : Fields Json) :
    writeFields languages id model (writeFields languages id model fields) =
      writeFields languages id model fields := by
  unfold writeFields
  cases chosen? languages id with
  | none =>
      simp only [dropLanguages_drop]
      rw [Fields.drop_eq_filter, Fields.drop_eq_filter, List.filter_filter]
      simp
  | some l =>
      simp only [dropLanguages_put]
      split
      · exact Fields.put_put_self _ _ _ _
      · rfl

/-! ## The form of a written holder -/

/-- Whether a language is registered under an id that is asked for; no language is under an
empty one. -/
def AsksFor (languages : Languages) (id : Option String) (l : Language) : Prop :=
  ∃ text, id = some text ∧ text ≠ "" ∧ languages.get? text = some l

theorem chosen?_eq_some_iff {languages : Languages} {id : Option String} {l : Language} :
    chosen? languages id = some l ↔ AsksFor languages id l := by
  cases id with
  | none => simp [chosen?, AsksFor]
  | some text => by_cases h : text = "" <;> simp [chosen?, AsksFor, Option.filter, h]

theorem exists_payload_eq_obj (model : Json) : ∃ fields, payload model = .obj fields := by
  cases model <;> exact ⟨_, rfl⟩

/-- The fields of a holder after an expression was written, given those before. -/
structure Canonical (languages : Languages) (id : Option String) (model : Json)
    (before after : Fields Json) : Prop where
  /-- No language has a key of its own, the wrapper's apart. -/
  bare : ∀ l ∈ languages.list, l.modelName ≠ wrapperKey → l.modelName ∉ Fields.keys after
  /-- The wrapper is there exactly for a language. -/
  wrapper_iff : wrapperKey ∈ Fields.keys after ↔ ∃ l, AsksFor languages id l
  /-- It holds this language and nothing else, with a payload that is an object. -/
  wrapper : ∀ l, AsksFor languages id l → ∃ fields, payload model = .obj fields ∧
    after.get? wrapperKey = some (.obj [(l.modelName, .obj fields)])
  /-- All other fields keep their values and their order. -/
  unrelated : unrelated languages after = unrelated languages before

/-- Every write leads to the canonical form. -/
theorem canonical_writeFields (languages : Languages) (id : Option String) (model : Json)
    (before : Fields Json) :
    Canonical languages id model before (writeFields languages id model before) := by
  have hunrelated := unrelated_writeFields languages id model before
  have hleft : ∀ l ∈ languages.list,
      l.modelName ∉ Fields.keys (dropLanguages languages.list before) :=
    fun _ hl => modelName_notMem_dropLanguages hl before
  unfold writeFields at hunrelated ⊢
  cases hc : chosen? languages id with
  | none =>
      have hnone : ∀ l, ¬ AsksFor languages id l := fun l hl => by
        rw [chosen?_eq_some_iff.2 hl] at hc
        contradiction
      rw [hc] at hunrelated
      exact {
        bare := fun l hl _ hkey => hleft l hl (Fields.mem_keys_drop_iff.1 hkey).1
        wrapper_iff :=
          ⟨fun hkey => absurd rfl (Fields.mem_keys_drop_iff.1 hkey).2,
            fun ⟨l, hl⟩ => absurd hl (hnone l)⟩
        wrapper := fun l hl => absurd hl (hnone l)
        unrelated := hunrelated }
  | some chosen =>
      have hasked := chosen?_eq_some_iff.1 hc
      obtain ⟨fields, hfields⟩ := exists_payload_eq_obj model
      rw [hc] at hunrelated
      exact {
        bare := fun l hl hne hkey =>
          (Fields.mem_keys_put_iff.1 hkey).elim hne (hleft l hl)
        wrapper_iff :=
          ⟨fun _ => ⟨chosen, hasked⟩, fun _ => Fields.mem_keys_put_iff.2 (.inl rfl)⟩
        wrapper := fun l hl => by
          obtain rfl : chosen = l := Option.some.inj (hc.symm.trans (chosen?_eq_some_iff.2 hl))
          exact ⟨fields, hfields, by rw [hfields, Fields.get?_put_self]⟩
        unrelated := hunrelated }

/-- **Writing an expression.** Whatever the registry, the id that is asked for and the payload
are, a write into an object is carried out and leads to the canonical form; and the same write
again leaves the holder as it is. -/
theorem write_canonical (languages : Languages) (id : Option String) (model : Json)
    (before : Fields Json) :
    ∃ after, write languages id model (.obj before) = (.obj after, .applied) ∧
      Canonical languages id model before after ∧
      write languages id model (.obj after) = (.obj after, .applied) := by
  refine ⟨writeFields languages id model before, rfl, canonical_writeFields _ _ _ _, ?_⟩
  rw [write_obj, writeFields_writeFields]

/-- A wrapper whose key is a model name comes back behind the other fields. -/
example :
    let nested : Language := ⟨"nested", "expression", "Nested", none⟩
    writeFields (.ofList [nested, .ofId "simple" "Simple"]) (some "simple") (.str "a")
        [("expression", .null), ("simple", .null), ("id", .str "i")] =
      [("id", .str "i"),
        ("expression", .obj [("simple", .obj [("expression", .str "a")])])] := by
  decide +kernel

end Expression

end FlowTree
