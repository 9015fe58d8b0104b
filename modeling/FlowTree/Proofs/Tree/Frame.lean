import FlowTree.Tree.Lookup

/-!
# FlowTree.Proofs.Tree.Frame

Changing one node of a document, and what becomes of all the others.

Two addresses stand in one of three relations: one lies above the other, they are
the same, or they are `Apart`.  Each has its law:

* `get?_modify_append` — at and below the changed node, the changed node is read;
* `get?_modify_above` — a node above it holds the change inside;
* `get?_modify_of_apart` — apart from it nothing has happened.

Changes apart from each other can be made in either order (`modify_comm`).

`Json.overwrite` is the change that does not look at the old node, and its laws
follow from those of `Json.modify`.
-/

namespace FlowTree

/-- Neither address lies at, above or below the other one. -/
def Path.Apart (p q : List Segment) : Prop := ¬ p <+: q ∧ ¬ q <+: p

namespace Path

@[simp] theorem not_apart_nil_left (q : List Segment) : ¬ Apart [] q := fun h => h.1 List.nil_prefix

@[simp] theorem not_apart_nil_right (p : List Segment) : ¬ Apart p [] := fun h => h.2 List.nil_prefix

theorem Apart.symm {p q : List Segment} (h : Apart p q) : Apart q p := ⟨h.2, h.1⟩

/-- Addresses part at their first step or later. -/
theorem apart_cons {s t : Segment} {p q : List Segment} :
    Apart (s :: p) (t :: q) ↔ s ≠ t ∨ Apart p q := by
  by_cases h : s = t
  · subst h
    simp [Apart]
  · simp [Apart, h, Ne.symm h]

/-- Paths that leave a path by different steps are apart. -/
theorem apart_of_steps {base p q : List Segment} {a b : Segment} (h : a ≠ b)
    (hp : base ++ [a] <+: p) (hq : base ++ [b] <+: q) : Apart p q := by
  have hne {r : List Segment} (ha : base ++ [a] <+: r) (hb : base ++ [b] <+: r) : False := by
    have he := (List.prefix_of_prefix_length_le ha hb (by simp)).eq_of_length (by simp)
    exact h (List.singleton_inj.1 (List.append_cancel_left he))
  exact ⟨fun hpq => hne (hp.trans hpq) hq, fun hqp => hne hp (hq.trans hqp)⟩

/-- Nothing is below two paths that are apart. -/
theorem Apart.not_prefix_both {p q r : List Segment} (h : Apart p q) (hp : p <+: r) :
    ¬ q <+: r := fun hq =>
  (List.prefix_or_prefix_of_prefix hp hq).elim h.1 h.2

/-- What is apart from a path is apart from everything below it. -/
theorem Apart.of_below {p p' q : List Segment} (h : Apart p q) (hp : p <+: p') :
    Apart p' q := ⟨fun hq => h.1 (hp.trans hq), h.not_prefix_both hp⟩

end Path

namespace Json

open FlowTree.Path

/-- A document with the node that steps lead to replaced by what `f` makes of it;
where they lead nowhere it stays as it is. -/
def modify (f : Json → Json) : List Segment → Json → Json
  | [], doc => f doc
  | s :: rest, doc =>
    match step? s doc with
    | some child => putStep s (modify f rest child) doc
    | none => doc

/-! ## One step -/

/-- A step other than the one that was put finds what it found before. -/
theorem step?_putStep_of_ne {s t : Segment} (h : s ≠ t) (child doc : Json) :
    step? t (putStep s child doc) = step? t doc := by
  cases s with
  | name key =>
      cases doc <;> cases t <;> simp_all [step?, putStep, Fields.get?_put_of_ne]
  | index i =>
      cases doc <;> cases t <;> simp_all [step?, putStep]

@[simp] theorem putStep_putStep_self (s : Segment) (first second doc : Json) :
    putStep s second (putStep s first doc) = putStep s second doc := by
  cases s <;> cases doc <;> simp [putStep]

/-- Of two steps that differ, one that leads somewhere can be put first or last. -/
theorem putStep_comm {s t : Segment} {doc old : Json} (h : s ≠ t) (hs : step? s doc = some old)
    (first second : Json) :
    putStep s first (putStep t second doc) = putStep t second (putStep s first doc) := by
  cases doc with
  | obj fields =>
      cases s with
      | name key =>
          cases t with
          | name other =>
              have hne : key ≠ other := fun he => h (by rw [he])
              exact congrArg obj (Fields.put_comm hne hs first second)
          | index j => rfl
      | index i => contradiction
  | arr items =>
      cases s with
      | name key => contradiction
      | index i =>
          cases t with
          | name other => rfl
          | index j =>
              have hne : i ≠ j := fun he => h (by rw [he])
              exact congrArg arr (List.set_comm second first hne.symm)
  | null | bool | num | str => cases s <;> contradiction

/-! ## Equations -/

@[simp] theorem modify_nil (f : Json → Json) (doc : Json) : modify f [] doc = f doc := rfl

theorem modify_cons_of_step? {s : Segment} {doc child : Json} (f : Json → Json)
    (rest : List Segment) (h : step? s doc = some child) :
    modify f (s :: rest) doc = putStep s (modify f rest child) doc := by
  simp [modify, h]

theorem modify_cons_of_step?_eq_none {s : Segment} {doc : Json} (f : Json → Json)
    (rest : List Segment) (h : step? s doc = none) : modify f (s :: rest) doc = doc := by
  simp [modify, h]

/-- Overwriting is the change that forgets the old node. -/
theorem overwrite_eq_modify (path : List Segment) (value doc : Json) :
    overwrite path value doc = modify (fun _ => value) path doc := by
  induction path generalizing doc with
  | nil => rfl
  | cons s rest ih =>
      cases h : step? s doc with
      | none => simp only [overwrite, modify, h]
      | some child => simp only [overwrite, modify, h, ih child]

/-- Changing a node in two goes changes it once by both. -/
theorem modify_modify (f g : Json → Json) (path : List Segment) (doc : Json) :
    modify g path (modify f path doc) = modify (g ∘ f) path doc := by
  induction path generalizing doc with
  | nil => rfl
  | cons s rest ih =>
      cases h : step? s doc with
      | none => simp only [modify_cons_of_step?_eq_none _ _ h]
      | some child =>
          rw [modify_cons_of_step? f rest h, modify_cons_of_step? (g ∘ f) rest h,
            modify_cons_of_step? g rest (step?_putStep_self _ h), putStep_putStep_self, ih child]

/-- A change below a node is a change of the node. -/
theorem modify_append (f : Json → Json) (front back : List Segment) (doc : Json) :
    modify f (front ++ back) doc = modify (modify f back) front doc := by
  induction front generalizing doc with
  | nil => rfl
  | cons s rest ih =>
      rw [List.cons_append]
      cases h : step? s doc with
      | none => simp only [modify_cons_of_step?_eq_none _ _ h]
      | some child => simp only [modify_cons_of_step? _ _ h, ih child]

/-- Only what is made of the node that is there counts. -/
theorem modify_congr {f g : Json → Json} {path : List Segment} {doc : Json}
    (h : ∀ node, get? path doc = some node → f node = g node) :
    modify f path doc = modify g path doc := by
  induction path generalizing doc with
  | nil => exact h doc rfl
  | cons s rest ih =>
      cases hs : step? s doc with
      | none => simp only [modify_cons_of_step?_eq_none _ _ hs]
      | some child =>
          have hc : ∀ node, get? rest child = some node → f node = g node := fun node hn =>
            h node (by rw [get?_cons, hs]; exact hn)
          rw [modify_cons_of_step? _ _ hs, modify_cons_of_step? _ _ hs, ih hc]

@[simp] theorem modify_id (path : List Segment) (doc : Json) : modify id path doc = doc := by
  induction path generalizing doc with
  | nil => rfl
  | cons s rest ih =>
      cases h : step? s doc with
      | none => exact modify_cons_of_step?_eq_none id rest h
      | some child => rw [modify_cons_of_step? _ _ h, ih child, putStep_of_step? h]

/-- A change behind one step is not seen by the others. -/
theorem step?_modify_of_ne {s t : Segment} (h : s ≠ t) (f : Json → Json) (rest : List Segment)
    (doc : Json) : step? t (modify f (s :: rest) doc) = step? t doc := by
  cases hs : step? s doc with
  | none => rw [modify_cons_of_step?_eq_none _ _ hs]
  | some child => rw [modify_cons_of_step? _ _ hs, step?_putStep_of_ne h]

/-- Changes apart from each other can be made in either order. -/
theorem modify_comm {p q : List Segment} (h : Apart p q) (f g : Json → Json) (doc : Json) :
    modify f p (modify g q doc) = modify g q (modify f p doc) := by
  induction p generalizing q doc with
  | nil => exact absurd h (not_apart_nil_left q)
  | cons s rest ih =>
      cases q with
      | nil => exact absurd h (not_apart_nil_right _)
      | cons t others =>
          by_cases hst : s = t
          · subst hst
            have hr : Apart rest others := (apart_cons.1 h).resolve_left fun hne => hne rfl
            cases hs : step? s doc with
            | none => simp only [modify_cons_of_step?_eq_none _ _ hs]
            | some child =>
                rw [modify_cons_of_step? g others hs, modify_cons_of_step? f rest hs,
                  modify_cons_of_step? f rest (step?_putStep_self _ hs),
                  modify_cons_of_step? g others (step?_putStep_self _ hs),
                  putStep_putStep_self, putStep_putStep_self, ih hr child]
          · -- the two changes go on behind different steps, and neither sees the other
            have hs' := step?_modify_of_ne (Ne.symm hst) g others doc
            have ht' := step?_modify_of_ne hst f rest doc
            cases hs : step? s doc with
            | none =>
                rw [modify_cons_of_step?_eq_none f rest hs,
                  modify_cons_of_step?_eq_none f rest (hs'.trans hs)]
            | some child =>
                cases ht : step? t doc with
                | none =>
                    rw [modify_cons_of_step?_eq_none g others ht,
                      modify_cons_of_step?_eq_none g others (ht'.trans ht)]
                | some other =>
                    rw [modify_cons_of_step? f rest (hs'.trans hs),
                      modify_cons_of_step? g others (ht'.trans ht),
                      modify_cons_of_step? f rest hs, modify_cons_of_step? g others ht,
                      putStep_comm hst hs]

/-! ## Reading a changed document -/

/-- At and below the changed node the changed node is read. -/
theorem get?_modify_append (f : Json → Json) (path below : List Segment) (doc : Json) :
    get? (path ++ below) (modify f path doc) =
      (get? path doc).bind fun node => get? below (f node) := by
  induction path generalizing doc with
  | nil => rfl
  | cons s rest ih =>
      rw [List.cons_append, get?_cons, get?_cons]
      cases h : step? s doc with
      | none => rw [modify_cons_of_step?_eq_none _ _ h, h]; rfl
      | some child =>
          rw [modify_cons_of_step? _ _ h, step?_putStep_self _ h, Option.bind_some,
            Option.bind_some, ih child]

theorem get?_modify_self (f : Json → Json) (path : List Segment) (doc : Json) :
    get? path (modify f path doc) = (get? path doc).map f := by
  have h := get?_modify_append f path [] doc
  rw [List.append_nil] at h
  rw [h]
  cases get? path doc <;> rfl

/-- A node above the changed one holds the change inside. -/
theorem get?_modify_above (f : Json → Json) (path below : List Segment) (doc : Json) :
    get? path (modify f (path ++ below) doc) = (get? path doc).map (modify f below) := by
  rw [modify_append, get?_modify_self]

/-- Apart from the changed node nothing has happened. -/
theorem get?_modify_of_apart {path other : List Segment} (h : Apart path other)
    (f : Json → Json) (doc : Json) : get? other (modify f path doc) = get? other doc := by
  induction path generalizing other doc with
  | nil => exact absurd h (not_apart_nil_left other)
  | cons s rest ih =>
      cases other with
      | nil => exact absurd h (not_apart_nil_right _)
      | cons t others =>
          cases hs : step? s doc with
          | none => rw [modify_cons_of_step?_eq_none _ _ hs]
          | some child =>
              rw [modify_cons_of_step? _ _ hs, get?_cons, get?_cons]
              by_cases hst : s = t
              · subst hst
                have hr : Apart rest others := (apart_cons.1 h).resolve_left fun hne => hne rfl
                rw [step?_putStep_self _ hs, hs, Option.bind_some, Option.bind_some, ih hr child]
              · rw [step?_putStep_of_ne hst]

/-! ## Overwriting -/

theorem overwrite_overwrite (path : List Segment) (first second doc : Json) :
    overwrite path second (overwrite path first doc) = overwrite path second doc := by
  simp only [overwrite_eq_modify, modify_modify]
  rfl

/-- Writing over a node what it is changes nothing. -/
theorem overwrite_of_get? {path : List Segment} {doc value : Json}
    (h : get? path doc = some value) : overwrite path value doc = doc := by
  rw [overwrite_eq_modify]
  have hc : modify (fun _ => value) path doc = modify id path doc := modify_congr fun node hn => by
    rw [h] at hn
    exact Option.some.inj hn
  rw [hc, modify_id]

theorem modify_of_get? {path : List Segment} {doc node : Json} (f : Json → Json)
    (h : get? path doc = some node) : modify f path doc = overwrite path (f node) doc := by
  rw [overwrite_eq_modify]
  refine modify_congr fun other ho => ?_
  rw [h] at ho
  rw [Option.some.inj ho]

theorem get?_overwrite_append {path : List Segment} {doc old : Json} (value : Json)
    (below : List Segment) (h : get? path doc = some old) :
    get? (path ++ below) (overwrite path value doc) = get? below value := by
  rw [overwrite_eq_modify, get?_modify_append, h, Option.bind_some]

end Json

end FlowTree
