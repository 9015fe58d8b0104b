import FlowTree.Editor
import FlowTree.Proofs.Expression.RoundTrip
import FlowTree.Proofs.Tree.Lens

/-!
# FlowTree.Proofs.Editor.Expression

Writing the expression of the holder at a path.

The holder may be an object, null, or missing where the place for it exists; the last
becomes a null one first.  In each of these cases the write is one of fields into fields
(`Expression.holderFields?`), and so both what is read afterwards and what stays is told
by what the fields say:

* `Expression.unrelated_writeFields` — fields that are no expression keep their values and
  their order;
* `Editor.withHolder_applied` — once there is a holder, nothing has changed apart from it;
* `Editor.writeExpression_applied_iff` — when an expression is written;
* `Editor.writeExpression_applied` — the document after it was;
* `Editor.expression_written` — the three things a written expression leaves behind.
-/

namespace FlowTree

/-! ## Fields that are kept -/

namespace Expression

/-- Whether a key is neither the wrapper nor a model name. -/
def isUnrelated (languages : Languages) (key : String) : Bool :=
  key ≠ wrapperKey && languages.list.all (·.modelName ≠ key)

/-- The fields of a holder that are no expression in any form, in order. -/
def unrelated (languages : Languages) (fields : Fields Json) : Fields Json :=
  fields.filter fun field => isUnrelated languages field.1

theorem unrelated_dropLanguages (languages : Languages) (fields : Fields Json) :
    unrelated languages (dropLanguages languages.list fields) = unrelated languages fields := by
  rw [unrelated, dropLanguages_eq_filter, List.filter_filter]
  refine List.filter_congr fun field _ => ?_
  rw [isUnrelated, isFree, Bool.and_assoc, Bool.and_self]

/-- Writing an expression leaves every other field alone. -/
theorem unrelated_writeFields (languages : Languages) (id : Option String) (model : Json)
    (fields : Fields Json) :
    unrelated languages (writeFields languages id model fields) = unrelated languages fields := by
  have hw : isUnrelated languages wrapperKey = false := by simp [isUnrelated]
  rw [writeFields, ← unrelated_dropLanguages languages fields]
  split
  · exact Fields.filter_put hw _ _
  · exact Fields.filter_drop hw _

/-- The fields of a holder that takes an expression; a null one has none. -/
def holderFields? : Json → Option (Fields Json)
  | .null => some []
  | .obj fields => some fields
  | _ => none

theorem write_of_holderFields? {holder : Json} {fields : Fields Json}
    (h : holderFields? holder = some fields) (languages : Languages) (id : Option String)
    (model : Json) :
    write languages id model holder =
      (.obj (writeFields languages id model fields), .applied) := by
  cases holder with
  | null =>
      obtain rfl : [] = fields := Option.some.inj h
      rfl
  | obj own =>
      obtain rfl : own = fields := Option.some.inj h
      rfl
  | bool | num | str | arr => contradiction

/-- A holder of another form is left as it is. -/
theorem write_of_holderFields?_eq_none {holder : Json} (h : holderFields? holder = none)
    (languages : Languages) (id : Option String) (model : Json) :
    write languages id model holder = (holder, .skipped) := by
  cases holder with
  | null | obj => contradiction
  | bool | num | str | arr => rfl

end Expression

namespace Editor

open FlowTree.Json FlowTree.Path FlowTree.Expression

/-! ## The holder at a path -/

/-- Once there is a holder at a path, it is the one that was there or a null one, and no
path apart from it has noticed. -/
theorem withHolder_applied {d : Document} {path : Path}
    (h : (withHolder d path).2 = .applied) :
    (withHolder d path).1.resolve path = some ((d.resolve path).getD .null) ∧
      ∀ other : Path, Apart path.segments other.segments →
        (withHolder d path).1.resolve other = d.resolve other := by
  unfold withHolder at h ⊢
  cases hd : d.resolve path with
  | some holder => exact ⟨hd, fun _ _ => rfl⟩
  | none =>
      rw [hd] at h
      exact ⟨get?_setAt_self h, fun _ ho => get?_setAt_of_apart ho _ _⟩

/-- What comes of a write once there is a holder. -/
theorem writeExpression_of_withHolder {d : Document} {path : Path}
    (h : (withHolder d path).2 = .applied) (languages : Languages) (language : Option String)
    (model : Json) :
    let written := Expression.write languages language model ((d.resolve path).getD .null)
    writeExpression languages d path language model =
      ({ (withHolder d path).1 with
          value := overwrite path.segments written.1 (withHolder d path).1.value }, written.2) := by
  have hr := (withHolder_applied h).1
  unfold writeExpression
  split
  · rename_i made hm
    rw [hm] at h
    contradiction
  · rename_i made hm
    rw [hm] at hr ⊢
    simp only [hr]

/-- An expression is written exactly when there can be a holder at the path, and the holder
takes it. -/
theorem writeExpression_applied_iff {languages : Languages} {d : Document} {path : Path}
    {language : Option String} {model : Json} :
    (writeExpression languages d path language model).2 = .applied ↔
      (withHolder d path).2 = .applied ∧
        (holderFields? ((d.resolve path).getD .null)).isSome = true := by
  cases hw : (withHolder d path).2 with
  | skipped =>
      have hs : (writeExpression languages d path language model).2 = .skipped := by
        unfold writeExpression
        split
        · rfl
        · rename_i made hm
          rw [hm] at hw
          contradiction
      simp [hs]
  | applied =>
      rw [writeExpression_of_withHolder hw]
      cases hf : holderFields? ((d.resolve path).getD .null) with
      | some fields => simp [write_of_holderFields? hf]
      | none => simp [write_of_holderFields?_eq_none hf]

/-- Where an expression was written, the holder has its fields with the expression written
into them, and no path apart from it has noticed. -/
theorem writeExpression_applied {languages : Languages} {d : Document} {path : Path}
    {language : Option String} {model : Json}
    (h : (writeExpression languages d path language model).2 = .applied) :
    ∃ fields, holderFields? ((d.resolve path).getD .null) = some fields ∧
      (writeExpression languages d path language model).1.resolve path =
        some (.obj (writeFields languages language model fields)) ∧
      ∀ other : Path, Apart path.segments other.segments →
        (writeExpression languages d path language model).1.resolve other = d.resolve other := by
  obtain ⟨hw, hf⟩ := writeExpression_applied_iff.1 h
  obtain ⟨fields, hf⟩ := Option.isSome_iff_exists.1 hf
  obtain ⟨hr, ho⟩ := withHolder_applied hw
  rw [writeExpression_of_withHolder hw, write_of_holderFields? hf]
  refine ⟨fields, hf, get?_overwrite_self _ hr, fun other ha => ?_⟩
  rw [← ho other ha]
  change get? other.segments (overwrite path.segments _ _) = _
  rw [overwrite_eq_modify, get?_modify_of_apart ha]
  rfl

/-! ## Reading it back -/

/-- The fields of the object at a path; where there is none, no fields. -/
def fieldsAt (d : Document) (path : Path) : Fields Json :=
  match d.resolve path with
  | some (.obj fields) => fields
  | _ => []

theorem fieldsAt_of_holderFields? {d : Document} {path : Path} {fields : Fields Json}
    (h : holderFields? ((d.resolve path).getD .null) = some fields) :
    fieldsAt d path = fields := by
  unfold fieldsAt
  cases hd : d.resolve path with
  | none =>
      rw [hd] at h
      exact Option.some.inj h
  | some holder =>
      rw [hd, Option.getD_some] at h
      cases holder with
      | null | obj => exact Option.some.inj h
      | bool | num | str | arr => contradiction

/-- **Expressions by path.** With the built-in languages, once an expression is written at a
path it is the one that is read there; the holder is an object whose fields other than
expressions keep their values and their order; and every path that is neither above nor
below finds what it found before. -/
theorem expression_written (e : Editor) (hl : e.context.languages = .builtin) {path : Path}
    {id : String} (hid : (Languages.builtin.get? id).isSome = true) {model : Json}
    (h : (e.perform (.writeExpression path (some id) model)).2 = .done .applied) :
    let after := (e.perform (.writeExpression path (some id) model)).1
    after.expression path = .of id model ∧
      (∃ fields, after.document.resolve path = some (.obj fields) ∧
        unrelated .builtin fields = unrelated .builtin (fieldsAt e.document path)) ∧
      ∀ other : Path, Apart path.segments other.segments →
        after.document.resolve other = e.document.resolve other := by
  intro after
  have hw : (writeExpression .builtin e.document path (some id) model).2 = .applied := by
    rw [← hl]
    exact Verdict.done.inj h
  have hafter : after.document =
      (writeExpression .builtin e.document path (some id) model).1 := by
    rw [← hl]
    rfl
  obtain ⟨fields, hf, hr, ho⟩ := writeExpression_applied hw
  rw [← hafter] at hr ho
  refine ⟨?_, ⟨_, hr, ?_⟩, ho⟩
  · obtain ⟨l, hl'⟩ := Option.isSome_iff_exists.1 hid
    have hc : after.context.languages = .builtin := hl
    rw [expression, hr, hc]
    exact ofHolder_writeFields Languages.coherent_builtin hl' model fields
  · rw [unrelated_writeFields, fieldsAt_of_holderFields? hf]

/-- A holder with bare languages among other keys, a null one that becomes an object, and a
missing one behind the last step that makes a holder of its own. -/
theorem expression_written_thrice :
    let before : Fields Json :=
      [("name", .str "h"), ("jq", .str "a"), ("id", .str "i"), ("simple", .str "b")]
    let steps : Json := .arr [.obj [("setHeader", .obj before)], .obj [("filter", .null)]]
    let e : Editor := ⟨.builtin, ⟨.obj [("intercept", .obj [("steps", steps)])], "intercept"⟩⟩
    let element (i : Nat) : Path := ((Path.root "intercept").child "steps").elementAt i
    let write (path : Path) : Action := .writeExpression path (some "xpath") (.str "c")
    let filled := (e.perform (write ((element 0).child "setHeader"))).1
    let opened := (e.perform (write ((element 1).child "filter"))).1
    let appended := (e.perform (write ((element 2).child "script"))).1
    filled.expression ((element 0).child "setHeader") = .of "xpath" (.str "c") ∧
      opened.expression ((element 1).child "filter") = .of "xpath" (.str "c") ∧
      appended.expression ((element 2).child "script") = .of "xpath" (.str "c") ∧
      (∃ fields, filled.document.resolve ((element 0).child "setHeader") = some (.obj fields) ∧
        unrelated .builtin fields = [("name", .str "h"), ("id", .str "i")]) ∧
      appended.document.resolve (element 0) = some (.obj [("setHeader", .obj before)]) := by
  intro before steps e element write filled opened appended
  have hid : (Languages.builtin.get? "xpath").isSome = true := by decide +kernel
  obtain ⟨hfilled, ⟨fields, hfields, hkept⟩, -⟩ := expression_written e rfl hid
    (show (e.perform (write ((element 0).child "setHeader"))).2 = .done .applied by decide +kernel)
  obtain ⟨hopened, -⟩ := expression_written e rfl hid
    (show (e.perform (write ((element 1).child "filter"))).2 = .done .applied by decide +kernel)
  obtain ⟨happended, -, hframe⟩ := expression_written e rfl hid
    (show (e.perform (write ((element 2).child "script"))).2 = .done .applied by decide +kernel)
  have hapart : Apart ((element 2).child "script").segments (element 0).segments := by
    constructor <;> decide +kernel
  have hbefore : unrelated .builtin (fieldsAt e.document ((element 0).child "setHeader")) =
      [("name", .str "h"), ("id", .str "i")] := by decide +kernel
  exact ⟨hfilled, hopened, happended, ⟨fields, hfields, hkept.trans hbefore⟩,
    (hframe (element 0) hapart).trans (by decide +kernel)⟩

end Editor

end FlowTree
