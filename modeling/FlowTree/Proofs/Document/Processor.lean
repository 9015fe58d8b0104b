import FlowTree.Document.Basic
import FlowTree.Proofs.Tree.Child
import FlowTree.Proofs.Tree.Splice
import FlowTree.Proofs.Tree.Walk

/-!
# FlowTree.Proofs.Document.Processor

The processor that a path addresses.

A path that ends in a key addresses what is stored there.  The path of an array element
addresses the step in the element when it is a step holder, an object with a single key in
an array that is called `steps`; any other element is named for its array.

* `Document.StepHolderAt` — a path leads to a step holder;
* `Document.processorAt?_elementAt` — the processor that an element addresses;
* `Document.processorAt?_cases` — a path addresses what it leads to, or the step in the
  step holder there.
-/

namespace FlowTree

open FlowTree.Json FlowTree.Path

/-- A definition that has fields is opened as the object of them. -/
theorem Json.opened_of_definitionFields? {definition : Json} {fields : Fields Json}
    (h : definitionFields? definition = some fields) (key : String) :
    opened (.name key) definition = .obj fields := by
  cases definition with
  | null | obj =>
      rw [← Option.some.inj h]
      rfl
  | bool | num | str | arr => contradiction

namespace Document

variable {d : Document}

/-! ## What is found below a node -/

/-- The path of the root has a single step. -/
theorem isRootPath_join (d : Document) (p : Path) (step : Segment) :
    d.isRootPath (p.join step) = false := by
  have hp : 0 < p.segments.length := List.length_pos_iff.2 p.nonempty
  rw [isRootPath, beq_eq_false_iff_ne]
  intro heq
  have hlength := congrArg List.length heq
  simp only [join, List.length_append, List.length_singleton] at hlength
  omega

/-- What is stored under a key of a definition that is null or an object. -/
theorem resolve_child {path : Path} {definition : Json} {fields : Fields Json}
    (hr : d.resolve path = some definition) (hf : definitionFields? definition = some fields)
    (key : String) : d.resolve (path.child key) = Fields.get? key fields := by
  rw [resolve, Json.resolve] at hr ⊢
  rw [segments_child, get?_append, hr, Option.bind_some, get?_cons,
    ← step?_opened (.name key), opened_of_definitionFields? hf, step?]
  cases Fields.get? key fields <;> rfl

/-- What is found under a key is a field of the object above it. -/
theorem exists_fields_of_resolve_child {path : Path} {key : String} {value : Json}
    (h : d.resolve (path.child key) = some value) :
    ∃ fields, d.resolve path = some (.obj fields) ∧ Fields.get? key fields = some value := by
  rw [resolve, Json.resolve, segments_child, get?_append] at h
  obtain ⟨node, hn, hk⟩ := Option.bind_eq_some_iff.1 h
  rw [get?_cons] at hk
  obtain ⟨child, hc, hv⟩ := Option.bind_eq_some_iff.1 hk
  cases node with
  | obj fields =>
      rw [← Option.some.inj hv]
      exact ⟨fields, hn, hc⟩
  | null | bool | num | str | arr => contradiction

/-! ## Step holders -/

/-- A path leads to a step holder: an element with a single key, of an array that is called
`steps`. -/
def StepHolderAt (d : Document) (path : Path) : Prop :=
  ∃ (array : Path) (i : Nat) (field : String × Json), path = array.elementAt i ∧
    array.lastName? = some "steps" ∧ d.resolve path = some (.obj [field])

section

variable {path : Path} {key : String} {value : Json}

/-- A key that leads on from a step holder is its only one. -/
theorem resolve_child_stepHolder (h : d.resolve path = some (.obj [(key, value)]))
    {other : String} {found : Json} (hother : d.resolve (path.child other) = some found) :
    other = key ∧ found = value := by
  have hchild : d.resolve (path.child other) = Fields.get? other [(key, value)] :=
    resolve_child h rfl other
  rw [hother, Fields.get?_cons] at hchild
  split at hchild
  · rename_i heq
    exact ⟨heq.symm, Option.some.inj hchild⟩
  · contradiction

/-- The step in a step holder. -/
theorem resolve_stepHolder (h : d.resolve path = some (.obj [(key, value)])) :
    d.resolve (path.child key) = some value := by
  rw [resolve_child h rfl, Fields.get?_cons, if_pos rfl]

end

/-! ## The processor at a path -/

theorem exists_resolve_of_processorAt? {path : Path} {found : Path × String}
    (h : d.processorAt? path = some found) : ∃ value, d.resolve path = some value := by
  unfold processorAt? at h
  obtain ⟨value, hv, -⟩ := Option.bind_eq_some_iff.1 h
  exact ⟨value, hv⟩

theorem processorAt?_of_last {path : Path} {value : Json} {key : String}
    (hr : d.resolve path = some value) (hl : path.last = .name key) :
    d.processorAt? path = some (path, key) := by
  simp [processorAt?, hr, hl]

/-- The processor that an array element addresses: the step in it, when it is a step
holder, else the element named for its array. -/
def processorOf (element : Path) (array : String) : Json → Path × String
  | .obj [(key, _)] => if array = "steps" then (element.child key, key) else (element, array)
  | _ => (element, array)

/-- Only what is in an array called `steps`, and has a single key, is the step under it. -/
theorem processorOf_cases {element found : Path} {array name : String} {value : Json}
    (h : processorOf element array value = (found, name)) :
    (found = element ∧ name = array ∧ ∀ field, array = "steps" → value ≠ .obj [field]) ∨
      (found = element.child name ∧ array = "steps" ∧
        ∃ definition, value = .obj [(name, definition)]) := by
  unfold processorOf at h
  split at h
  · rename_i key definition
    split at h
    · rename_i hsteps
      obtain ⟨rfl, rfl⟩ := Prod.mk.inj h
      exact .inr ⟨rfl, hsteps, definition, rfl⟩
    · rename_i hsteps
      obtain ⟨rfl, rfl⟩ := Prod.mk.inj h
      exact .inl ⟨rfl, rfl, fun _ hcalled => absurd hcalled hsteps⟩
  · rename_i hmore
    obtain ⟨rfl, rfl⟩ := Prod.mk.inj h
    exact .inl ⟨rfl, rfl, fun field _ => hmore field.1 field.2⟩

theorem processorAt?_elementAt {array : Path} {i : Nat} {value : Json}
    (hr : d.resolve (array.elementAt i) = some value) :
    d.processorAt? (array.elementAt i) =
      array.lastName?.map fun name => processorOf (array.elementAt i) name value := by
  have hparent : (array.elementAt i).parent = some array := ancestor_one_elementAt array i
  simp only [processorAt?, hr, last_elementAt, hparent, Option.bind_eq_bind, Option.bind_some]
  cases array.lastName? with
  | none => rfl
  | some name =>
      rw [Option.bind_some, Option.map_some]
      cases value with
      | obj fields =>
          rcases fields with - | ⟨⟨key, stored⟩, - | ⟨field, more⟩⟩
          · rfl
          · simp only [processorOf]
            split <;> rfl
          · rfl
      | null | bool | num | str | arr => rfl

/-- The path of a step holder addresses the step in it. -/
theorem processorAt?_stepHolder {steps : Path} {i : Nat} {key : String} {value : Json}
    (hsteps : steps.lastName? = some "steps")
    (h : d.resolve (steps.elementAt i) = some (.obj [(key, value)])) :
    d.processorAt? (steps.elementAt i) = some ((steps.elementAt i).child key, key) := by
  rw [processorAt?_elementAt h, hsteps]
  simp [processorOf]

/-- A path addresses what it leads to, by its last key, or the step in the step holder that
it leads to. -/
theorem processorAt?_cases {path found : Path} {name : String}
    (h : d.processorAt? path = some (found, name)) :
    (found = path ∧ path.lastName? = some name ∧ ¬ d.StepHolderAt path) ∨
      (found = path.child name ∧ d.StepHolderAt path ∧
        ∃ definition, d.resolve path = some (.obj [(name, definition)])) := by
  obtain ⟨value, hr⟩ := exists_resolve_of_processorAt? h
  cases hl : path.last with
  | name key =>
      rw [processorAt?_of_last hr hl] at h
      obtain ⟨rfl, rfl⟩ := Prod.mk.inj (Option.some.inj h)
      refine .inl ⟨rfl, lastName?_of_last hl, ?_⟩
      rintro ⟨array, i, -, rfl, -⟩
      rw [last_elementAt] at hl
      contradiction
  | index i =>
      cases hp : path.parent with
      | none => simp [processorAt?, hr, hl, hp] at h
      | some array =>
          obtain rfl := eq_elementAt_of_parent hl hp
          rw [processorAt?_elementAt hr] at h
          obtain ⟨called, hcalled, hof⟩ := Option.map_eq_some_iff.1 h
          rw [lastName?_elementAt, hcalled]
          rcases processorOf_cases hof with ⟨rfl, rfl, hmore⟩ | ⟨rfl, rfl, definition, rfl⟩
          · refine .inl ⟨rfl, rfl, ?_⟩
            rintro ⟨array', j, field, heq, hsteps, hfield⟩
            rw [← lastName?_elementAt array' j, ← heq, lastName?_elementAt, hcalled] at hsteps
            rw [hr] at hfield
            exact hmore field (Option.some.inj hsteps) (Option.some.inj hfield)
          · exact .inr ⟨rfl, ⟨array, i, _, rfl, hcalled, hr⟩, definition, hr⟩

/-- The processor that a path addresses has a definition. -/
theorem exists_definition_of_processorAt? {path found : Path} {name : String}
    (h : d.processorAt? path = some (found, name)) :
    ∃ definition, d.resolve found = some definition := by
  cases processorAt?_cases h with
  | inl hself =>
      obtain ⟨rfl, -, -⟩ := hself
      exact exists_resolve_of_processorAt? h
  | inr hstep =>
      obtain ⟨rfl, -, definition, hholder⟩ := hstep
      exact ⟨definition, resolve_stepHolder hholder⟩

end Document

end FlowTree
