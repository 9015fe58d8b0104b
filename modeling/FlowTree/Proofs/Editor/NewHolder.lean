import FlowTree.Proofs.Editor.Expression
import FlowTree.Proofs.Path.Element
import FlowTree.Proofs.Tree.Settable
import FlowTree.Proofs.Tree.Skip

/-!
# FlowTree.Proofs.Editor.NewHolder

Writing an expression where there is no holder yet.

The holder is made by a general write, and so is whatever is missing above it: the
result is that of writing the finished holder at the path
(`writeExpression_of_resolve_eq_none`).  Hence a missing parent does not keep an
expression from being written; only a node that is there can.

* `setAt_of_skipped` — a skipped write does not depend on the value;
* `writeExpression_of_parent_missing` — what comes of a write below a missing parent.
-/

namespace FlowTree

namespace Json

/-! ## Skipped writes -/

/-- A skipped write does not depend on the value. -/
theorem setAt_of_skipped {path : List Segment} {value doc : Json}
    (h : (setAt path value doc).2 = .skipped) (other : Json) :
    setAt path other doc = setAt path value doc := by
  induction path generalizing doc with
  | nil => simp at h
  | cons s rest ih =>
      cases ha : admits s (opened s doc) with
      | false => rw [setAt_cons_of_not_admits rest other ha, setAt_cons_of_not_admits rest value ha]
      | true =>
          rw [setAt_cons_of_admits rest value ha] at h
          rw [setAt_cons_of_admits rest other ha, setAt_cons_of_admits rest value ha, ih h]

/-- A write comes to nothing at all exactly when it is barred. -/
theorem setAt_eq_skipped_iff {path : List Segment} {doc : Json} (value : Json) :
    setAt path value doc = (doc, .skipped) ↔ Barred path doc := by
  constructor
  · intro h
    have hs : (setAt path value doc).2 = .skipped := by rw [h]
    cases setAt_skipped_cases hs with
    | inl hb => exact hb
    | inr hl => exact absurd (by rw [h]) hl.ne
  · intro hb
    exact setAt_of_barred hb value

end Json

/-- A write at a path of a document is one at the steps of the path. -/
theorem Document.set_eq (d : Document) (path : Path) (value : Json) :
    d.set path value =
      ({ d with value := (Json.setAt path.segments value d.value).1 },
        (Json.setAt path.segments value d.value).2) := rfl

namespace Editor

open FlowTree.Json

variable {languages : Languages} {d : Document} {path : Path} {language : Option String}
  {model : Json}

/-! ## The new holder -/

/-- The holder that an expression is written into where there is none. -/
def newHolder (languages : Languages) (language : Option String) (model : Json) : Json :=
  (Expression.write languages language model .null).1

/-- Where there is no holder, writing an expression is a write of the finished holder. -/
theorem writeExpression_of_resolve_eq_none (h : d.resolve path = none) :
    writeExpression languages d path language model =
      d.set path (newHolder languages language model) := by
  have hmade : withHolder d path = d.set path .null := by simp [withHolder, h]
  cases hw : (withHolder d path).2 with
  | applied =>
      have hnull : (setAt path.segments .null d.value).2 = .applied := by
        rw [hmade] at hw
        exact hw
      have hthere : get? path.segments (setAt path.segments .null d.value).1 = some .null :=
        get?_setAt_self hnull
      have hset : setAt path.segments (newHolder languages language model) d.value =
          (overwrite path.segments (newHolder languages language model)
            (setAt path.segments .null d.value).1, .applied) := by
        rw [← setAt_of_resolve hthere, setAt_setAt]
      rw [writeExpression_of_withHolder hw, h, hmade, Document.set_eq, Document.set_eq, hset]
      rfl
  | skipped =>
      have hnull : (setAt path.segments .null d.value).2 = .skipped := by
        rw [hmade] at hw
        exact hw
      have hset : d.set path (newHolder languages language model) = d.set path .null := by
        rw [Document.set_eq, setAt_of_skipped hnull, Document.set_eq]
      rw [hset, ← hmade, writeExpression]
      split
      · rename_i made hm
        rw [hm]
      · rename_i made hm
        simp [hm] at hw

/-- Below a missing node nothing is found. -/
theorem resolve_eq_none_of_parent {parent : Path} (hp : path.parent = some parent)
    (h : d.resolve parent = none) : d.resolve path = none := by
  obtain ⟨back, -, hs⟩ := Path.ancestor_eq_some_iff.1 hp
  show get? path.segments d.value = none
  rw [hs, get?_append]
  show (d.resolve parent).bind _ = none
  rw [h, Option.bind_none]

/-- **Below a missing parent.** An expression that is written at a path whose parent leads
nowhere is skipped, and the document stays as it is, exactly when a node that is there
bars the way.  Otherwise the missing nodes are made, whatever their number: the
expression is written when the rest of the path grows from where the nodes end, and
there is a parent then; and when it does not, an array made on the way stays behind. -/
theorem writeExpression_of_parent_missing {parent : Path} (hp : path.parent = some parent)
    (h : d.resolve parent = none) :
    let result := writeExpression languages d path language model
    (result = (d, .skipped) ↔ Barred path.segments d.value) ∧
      (result.2 = .skipped → result.1 ≠ d →
        LeftArray path.segments d.value result.1.value) ∧
      (result.2 = .applied →
        result.1.resolve path = some (newHolder languages language model) ∧
          ∃ container, result.1.resolve parent = some container) ∧
      ∃ front node back, Halts path.segments d.value front node back ∧
        (result.2 = .applied ↔ Grows node back) := by
  intro result
  let holder := newHolder languages language model
  have hresult : result = ({ d with value := (setAt path.segments holder d.value).1 },
      (setAt path.segments holder d.value).2) :=
    writeExpression_of_resolve_eq_none (resolve_eq_none_of_parent hp h)
  rw [hresult]
  constructor
  case left =>
    rw [← setAt_eq_skipped_iff holder]
    constructor
    · intro he
      obtain ⟨hd, hs⟩ := Prod.mk.inj he
      exact Prod.ext (congrArg Document.value hd) hs
    · intro he
      rw [he]
  case right =>
    refine ⟨?_, ?_, ?_⟩
    · intro hs hne
      cases setAt_skipped_cases hs with
      | inl hb =>
          rw [setAt_of_barred hb] at hne
          exact absurd rfl hne
      | inr hl => exact hl
    · intro ha
      have hfound : get? path.segments (setAt path.segments holder d.value).1 = some holder :=
        get?_setAt_self ha
      obtain ⟨back, -, hback⟩ := Path.ancestor_eq_some_iff.1 hp
      have hsplit := hfound
      rw [hback, get?_append] at hsplit
      obtain ⟨container, hcontainer, -⟩ := Option.bind_eq_some_iff.1 hsplit
      rw [← hback] at hcontainer
      exact ⟨hfound, container, hcontainer⟩
    · obtain ⟨front, node, back, hhalts⟩ := exists_halts path.segments d.value
      exact ⟨front, node, back, hhalts, hhalts.setAt_applied_iff holder⟩

/-- A text bars the way; null becomes two new objects with the holder in them; and an array
is left behind where a second element is asked for. -/
theorem writeExpression_of_parent_missing_thrice :
    let d : Document :=
      ⟨.obj [("intercept", .obj [("id", .str "i"), ("filter", .null)])], "intercept"⟩
    let root : Path := .root "intercept"
    let barred : Path := ((root.child "id").child "a").child "b"
    let grown : Path := ((root.child "filter").child "a").child "b"
    let left : Path := ((root.child "list").elementAt 1).child "a"
    let write (path : Path) : Document × Outcome :=
      writeExpression .builtin d path (some "simple") (.str "x")
    write barred = (d, .skipped) ∧
      ((write grown).1.resolve grown = some (newHolder .builtin (some "simple") (.str "x")) ∧
        ∃ container, (write grown).1.resolve ((root.child "filter").child "a") = some container) ∧
      LeftArray left.segments d.value (write left).1.value := by
  intro d root barred grown left write
  have hbarred : Barred barred.segments d.value :=
    ⟨[.name "intercept", .name "id"], .name "a", [.name "b"], .str "i", rfl, by decide +kernel,
      rfl⟩
  have hgrown : (write grown).2 = .applied := by decide +kernel
  have hleft : (write left).2 = .skipped := by decide +kernel
  have hchanged : (write left).1 ≠ d := by decide +kernel
  have hb := @writeExpression_of_parent_missing .builtin d barred (some "simple") (.str "x")
    ((root.child "id").child "a") (by decide +kernel) (by decide +kernel)
  have hg := @writeExpression_of_parent_missing .builtin d grown (some "simple") (.str "x")
    ((root.child "filter").child "a") (by decide +kernel) (by decide +kernel)
  have hl := @writeExpression_of_parent_missing .builtin d left (some "simple") (.str "x")
    ((root.child "list").elementAt 1) (by decide +kernel) (by decide +kernel)
  exact ⟨hb.1.2 hbarred, hg.2.2.1 hgrown, hl.2.1 hleft hchanged⟩

/-- An expression is written below a parent that was not there. -/
theorem not_writeExpression_of_parent_missing :
    ¬ ∀ (d : Document) (path parent : Path) (language : Option String) (model : Json),
      path.parent = some parent → d.resolve path = none → d.resolve parent = none →
        writeExpression .builtin d path language model = (d, .skipped) := by
  intro h
  let d : Document := ⟨.obj [("route", .obj [])], "route"⟩
  let parent : Path := (Path.root "route").child "a"
  have hs := h d (parent.child "b") parent (some "simple") (.str "x") (by decide +kernel)
    (by decide +kernel) (by decide +kernel)
  have hw : (writeExpression .builtin d (parent.child "b") (some "simple") (.str "x")).2 =
      .applied := by decide +kernel
  rw [hs] at hw
  contradiction

end Editor

end FlowTree
