import FlowTree.Proofs.Expression.RoundTrip

/-!
# FlowTree.Proofs.Expression.Dialects

The four forms of an expression are read alike.

A form is one more field of a holder that has no expression yet: the wrapper or the model name
of a language, with the payload in one of two ways under it.  The wrapper decides by the only
key in it, and a bare key by being the only one that a language has.  A language whose model
name is the wrapper's own key has two of its forms in common, and is read by either rule.

* `Expression.dialects` — the four forms;
* `Expression.ofHolder_of_wrapped`, `Expression.ofHolder_of_bare` — the two ways of reading;
* `Expression.ofHolder_dialects` — all forms are read as the payload in the language.
-/

namespace FlowTree

namespace Fields

variable {α : Type} {key : String} {before behind : Fields α}

/-- A field whose key does not stand before it is the one that is found. -/
theorem get?_append_cons_self (h : key ∉ keys before) (value : α) :
    get? key (before ++ (key, value) :: behind) = some value := by
  induction before with
  | nil => exact if_pos rfl
  | cons head rest ih =>
      obtain ⟨k, v⟩ := head
      simp only [keys, List.map_cons, List.mem_cons, not_or] at h
      rw [List.cons_append, get?_cons, if_neg (Ne.symm h.1)]
      exact ih h.2

/-- A field of another key is not. -/
theorem get?_append_cons_of_ne {other : String} (h : other ≠ key) (value : α) :
    get? other (before ++ (key, value) :: behind) = get? other (before ++ behind) := by
  induction before with
  | nil => exact if_neg (Ne.symm h)
  | cons head rest ih => rw [List.cons_append, List.cons_append, get?_cons, get?_cons, ih]

end Fields

namespace Expression

/-! ## One language -/

section

variable {languages : Languages} {l : Language} (hl : l ∈ languages.list)
  (hfound : languages.byModelName? l.modelName = some l) {fields : Fields Json} {value : Json}

include hfound in
theorem ofNamed_modelName (value : Json) : ofNamed languages l.modelName value = of l.id value := by
  simp [ofNamed, hfound]

include hl hfound

/-- The only key under the wrapper is read. -/
theorem ofHolder_of_wrapped (hw : wrapped fields = [(l.modelName, value)]) :
    ofHolder languages (.obj fields) = of l.id value := by
  rw [ofHolder, hw, firstNamed_singleton hl, Option.some_or]
  exact ofNamed_modelName hfound value

/-- Without a wrapper the only key of a language is read. -/
theorem ofHolder_of_bare (hw : wrapped fields = []) (hv : fields.get? l.modelName = some value)
    (honly : ∀ other ∈ languages.list, other.modelName ≠ l.modelName →
      fields.get? other.modelName = none) :
    ofHolder languages (.obj fields) = of l.id value := by
  have hnone : firstNamed [] languages.list = none := firstNamed_eq_none_iff.2 fun _ _ => rfl
  rw [ofHolder, hw, hnone, Option.none_or, firstNamed_of_only hl hv honly]
  exact ofNamed_modelName hfound value

end

/-! ## The four forms -/

/-- The forms of an expression, each with its key and what is under it. -/
def dialects (modelName : String) (value : Json) : List (String × Json) :=
  [ (wrapperKey, .obj [(modelName, .obj [(wrapperKey, value)])]),
    (wrapperKey, .obj [(modelName, value)]),
    (modelName, .obj [(wrapperKey, value)]),
    (modelName, value) ]

/-- A payload that has to be made an object. -/
def IsBare (value : Json) : Prop := value ≠ .null ∧ ∀ fields, value ≠ .obj fields

/-- Such a payload can be given as the object that it is made. -/
theorem IsBare.of_obj {value : Json} (h : IsBare value) (language : String) :
    of language (.obj [(wrapperKey, value)]) = of language value := by
  cases value with
  | null => exact absurd rfl h.1
  | obj fields => exact absurd rfl (h.2 fields)
  | bool | num | str | arr => rfl

/-- Fields among which there is no expression in any form. -/
structure HasNone (languages : Languages) (fields : Fields Json) : Prop where
  wrapper : wrapperKey ∉ Fields.keys fields
  modelName : ∀ l ∈ languages.list, l.modelName ∉ Fields.keys fields

section

variable {languages : Languages} {before behind : Fields Json}
  (hnone : HasNone languages (before ++ behind))

include hnone

theorem HasNone.left : HasNone languages before := by
  constructor
  · exact fun h => hnone.wrapper (List.map_subset _ (List.subset_append_left _ _) h)
  · exact fun l hl h => hnone.modelName l hl (List.map_subset _ (List.subset_append_left _ _) h)

/-- A wrapper that is added is the one that is found. -/
theorem HasNone.wrapped_obj (inner : Fields Json) :
    wrapped (before ++ (wrapperKey, .obj inner) :: behind) = inner := by
  rw [wrapped, Fields.get?_append_cons_self hnone.left.wrapper]

/-- There is nothing under the wrapper when another key is added, or a bare payload. -/
theorem HasNone.wrapped_eq_nil {key : String} {value : Json}
    (h : key ≠ wrapperKey ∨ IsBare value) : wrapped (before ++ (key, value) :: behind) = [] := by
  by_cases hk : key = wrapperKey
  · have hbare := h.resolve_left (absurd hk)
    rw [hk, wrapped, Fields.get?_append_cons_self hnone.left.wrapper]
    cases value with
    | obj fields => exact absurd rfl (hbare.2 fields)
    | null | bool | num | str | arr => rfl
  · rw [wrapped, Fields.get?_append_cons_of_ne (Ne.symm hk), Fields.get?_eq_none hnone.wrapper]

/-- A bare key of a language is read when there is nothing under the wrapper. -/
theorem HasNone.ofHolder_bare {l : Language} (hl : l ∈ languages.list)
    (hfound : languages.byModelName? l.modelName = some l) {value : Json}
    (hw : l.modelName ≠ wrapperKey ∨ IsBare value) :
    ofHolder languages (.obj (before ++ (l.modelName, value) :: behind)) = of l.id value := by
  have hkey := hnone.left.modelName l hl
  refine ofHolder_of_bare hl hfound (hnone.wrapped_eq_nil hw)
    (Fields.get?_append_cons_self hkey value) fun other ho hne => ?_
  rw [Fields.get?_append_cons_of_ne hne, Fields.get?_eq_none (hnone.modelName other ho)]

end

/-- **Dialects.** Where every language is found under its model name, the four forms of a
scalar or an array in a language are read as one expression, wherever in a holder without
another expression they stand. -/
theorem ofHolder_dialects {languages : Languages}
    (hfound : ∀ l ∈ languages.list, languages.byModelName? l.modelName = some l)
    {l : Language} (hl : l ∈ languages.list) {value : Json} (hv : IsBare value)
    {before behind : Fields Json} (hnone : HasNone languages (before ++ behind)) :
    ∀ form ∈ dialects l.modelName value,
      ofHolder languages (.obj (before ++ form :: behind)) = of l.id value := by
  intro form hform
  have hfound := hfound l hl
  have hobj := hv.of_obj l.id
  simp only [dialects, List.mem_cons, List.not_mem_nil, or_false] at hform
  obtain rfl | rfl | rfl | rfl := hform
  · rw [ofHolder_of_wrapped hl hfound (hnone.wrapped_obj _), hobj]
  · exact ofHolder_of_wrapped hl hfound (hnone.wrapped_obj _)
  · by_cases hm : l.modelName = wrapperKey
    · -- a language of the wrapper's name: its bare form is the short one under the wrapper
      have hw : wrapped (before ++ (l.modelName, .obj [(wrapperKey, value)]) :: behind) =
          [(l.modelName, value)] := by rw [hm, hnone.wrapped_obj]
      exact ofHolder_of_wrapped hl hfound hw
    · rw [hnone.ofHolder_bare hl hfound (.inl hm), hobj]
  · exact hnone.ofHolder_bare hl hfound (.inr hv)

/-- A text in a language, and an array in the one that has the wrapper's name, are each read
in all forms between two fields of a holder. -/
theorem ofHolder_dialects_nested :
    let nested : Language := ⟨"nested", "expression", "Nested", none⟩
    let simple : Language := .ofId "simple" "Simple"
    let languages := Languages.ofList [nested, simple]
    let holder (form : String × Json) : Json :=
      .obj ([("id", .str "h")] ++ form :: [("jq", .null)])
    (∀ form ∈ dialects "simple" (.str "a"),
        ofHolder languages (holder form) = of "simple" (.str "a")) ∧
      ∀ form ∈ dialects "expression" (.arr [.null]),
        ofHolder languages (holder form) = of "nested" (.arr [.null]) := by
  intro nested simple languages holder
  have hfound : ∀ l ∈ languages.list, languages.byModelName? l.modelName = some l := by
    decide +kernel
  have hnone : HasNone languages ([("id", .str "h")] ++ [("jq", .null)]) :=
    ⟨by decide +kernel, by decide +kernel⟩
  have hsimple : simple ∈ languages.list := by decide +kernel
  have hnested : nested ∈ languages.list := by decide +kernel
  exact ⟨ofHolder_dialects hfound hsimple ⟨by simp, by simp⟩ hnone,
    ofHolder_dialects hfound hnested ⟨by simp, by simp⟩ hnone⟩

end Expression

end FlowTree
