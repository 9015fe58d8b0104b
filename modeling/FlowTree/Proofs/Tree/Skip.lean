import FlowTree.Proofs.Tree.Lens

/-!
# FlowTree.Proofs.Tree.Skip

What a skipped write leaves behind.

A write can be skipped for two reasons.  Either a node that is there bars its step,
and then the document is as it was; or the fault is met in an array that was made
on the way, and then this array stays behind.  There is no third one.

* `setAt_of_barred` — a barred write is skipped and changes nothing;
* `setAt_skipped_cases` — the two reasons;
* `set_skipped` — a skipped write changes nothing exactly when it was barred, and
  leaves an empty array otherwise.
-/

namespace FlowTree

namespace Json

open FlowTree.Path

/-- Whether a node bars a step: no node is behind the step, and none can be made
there. -/
def bars : Segment → Json → Bool
  | _, .null => false
  | .name _, .obj _ => false
  | .index i, .arr items => items.length < i
  | _, _ => true

/-- The steps lead, through nodes that are there, to one that bars the next step. -/
def Barred (path : List Segment) (doc : Json) : Prop :=
  ∃ front s back node,
    path = front ++ s :: back ∧ get? front doc = some node ∧ bars s node = true

/-- A document with an empty array written where there was nothing, or null, and
where the steps ask for a position that an empty array does not take. -/
def LeftArray (path : List Segment) (doc result : Json) : Prop :=
  ∃ front i back, path = front ++ .index (i + 1) :: back ∧
    (∀ node, get? front doc = some node → node = .null) ∧
    setAt front (.arr []) doc = (result, .applied)

/-! ## Barred writes -/

/-- The nodes that bar a step are those that stay shut for it. -/
theorem bars_eq_true_iff {s : Segment} {doc : Json} :
    bars s doc = true ↔ doc.isNull = false ∧ admits s (opened s doc) = false := by
  cases hn : doc.isNull with
  | true =>
      cases doc <;> simp_all [isNull]
      cases s <;> simp [bars]
  | false =>
      rw [opened_of_isNull_eq_false s hn]
      cases s <;> cases doc <;> simp_all [bars, admits, isNull]

theorem not_barred_nil (doc : Json) : ¬ Barred [] doc := by
  rintro ⟨front, s, back, node, h, -⟩
  exact absurd h.symm (by simp)

/-- Steps are barred at the first one, or behind it. -/
theorem barred_cons {s : Segment} {rest : List Segment} {doc : Json} :
    Barred (s :: rest) doc ↔
      bars s doc = true ∨ ∃ child, step? s doc = some child ∧ Barred rest child := by
  constructor
  · rintro ⟨front, t, back, node, hp, hg, hb⟩
    cases front with
    | nil =>
        obtain ⟨rfl, -⟩ := List.cons.inj hp
        rw [Option.some.inj hg]
        exact .inl hb
    | cons u front =>
        obtain ⟨rfl, rfl⟩ := List.cons.inj hp
        rw [get?_cons] at hg
        obtain ⟨child, hs, hc⟩ := Option.bind_eq_some_iff.1 hg
        exact .inr ⟨child, hs, front, t, back, node, rfl, hc, hb⟩
  · rintro (hb | ⟨child, hs, front, t, back, node, rfl, hg, hb⟩)
    · exact ⟨[], s, rest, doc, rfl, rfl, hb⟩
    · refine ⟨s :: front, t, back, node, rfl, ?_, hb⟩
      rw [get?_cons, hs]
      exact hg

/-- A barred write is skipped and changes nothing. -/
theorem setAt_of_barred {path : List Segment} {doc : Json} (h : Barred path doc) (value : Json) :
    setAt path value doc = (doc, .skipped) := by
  induction path generalizing doc with
  | nil => exact absurd h (not_barred_nil doc)
  | cons s rest ih =>
      rcases barred_cons.1 h with hb | ⟨child, hs, hc⟩
      · obtain ⟨hn, ha⟩ := bars_eq_true_iff.1 hb
        rw [setAt_cons_of_not_admits rest value ha, opened_of_isNull_eq_false s hn]
      · rw [setAt_cons_of_step? rest value hs, ih hc, putIn_of_step? hs]

/-! ## Arrays left behind -/

/-- A new container takes its step, unless this is a later position than the first. -/
theorem exists_eq_index_of_not_admits {s : Segment} (h : admits s (containerFor s) = false) :
    ∃ i, s = .index (i + 1) := by
  cases s with
  | name key => simp [containerFor, admits] at h
  | index i =>
      cases i with
      | zero => simp [containerFor, admits] at h
      | succ i => exact ⟨i, rfl⟩

/-- Steps that the container made for them bars begin with such a position. -/
theorem exists_eq_index_of_barred {path : List Segment} (h : Barred path (placeholder path)) :
    ∃ i back, path = .index (i + 1) :: back := by
  cases path with
  | nil => exact absurd h (not_barred_nil _)
  | cons s back =>
      rw [placeholder, barred_cons] at h
      rcases h with hb | ⟨child, hs, -⟩
      · obtain ⟨hn, ha⟩ := bars_eq_true_iff.1 hb
        rw [opened_of_isNull_eq_false s hn] at ha
        obtain ⟨i, rfl⟩ := exists_eq_index_of_not_admits ha
        exact ⟨i, back, rfl⟩
      · rw [step?_containerFor] at hs
        contradiction

/-- An array left behind the first step is left in the document. -/
theorem LeftArray.cons {s : Segment} {rest : List Segment} {doc child : Json}
    (ha : admits s (opened s doc) = true) (h : LeftArray rest (entered s rest doc) child) :
    LeftArray (s :: rest) doc (putIn s child (opened s doc)) := by
  obtain ⟨front, i, back, rfl, hg, hw⟩ := h
  refine ⟨s :: front, i, back, rfl, fun node hn => ?_, ?_⟩
  · rw [get?_cons] at hn
    obtain ⟨c, hs, hc⟩ := Option.bind_eq_some_iff.1 hn
    refine hg node ?_
    rw [entered, hs, Option.getD_some]
    exact hc
  · have he : setAt front (.arr []) (entered s front doc) = (child, .applied) := by
      rw [← hw]
      cases front <;> rfl
    rw [setAt_cons_of_admits front _ ha, he]

/-- The array left behind was not there before. -/
theorem LeftArray.ne {path : List Segment} {doc result : Json} (h : LeftArray path doc result) :
    result ≠ doc := by
  obtain ⟨front, i, back, -, hg, hw⟩ := h
  have hr : get? front result = some (.arr []) := by
    have hf := @get?_setAt_self front (.arr []) doc (by rw [hw])
    rwa [hw] at hf
  intro he
  have hn : Json.arr [] = .null := hg _ (he ▸ hr)
  contradiction

/-- A write is skipped because a node bars its step, or after an array was made. -/
theorem setAt_skipped_cases {path : List Segment} {value doc : Json}
    (h : (setAt path value doc).2 = .skipped) :
    Barred path doc ∨ LeftArray path doc (setAt path value doc).1 := by
  induction path generalizing doc with
  | nil => contradiction
  | cons s rest ih =>
      cases ha : admits s (opened s doc) with
      | false =>
          rw [setAt_cons_of_not_admits rest value ha]
          cases hn : doc.isNull with
          | false => exact .inl (barred_cons.2 (.inl (bars_eq_true_iff.2 ⟨hn, ha⟩)))
          | true =>
              -- the array is made where the null node was
              have ho : opened s doc = containerFor s := by simp [opened, hn]
              have hd : doc = .null := by cases doc <;> simp_all [isNull]
              rw [ho] at ha ⊢
              obtain ⟨i, rfl⟩ := exists_eq_index_of_not_admits ha
              exact .inr ⟨[], i, rest, rfl, fun node hg => (Option.some.inj hg).symm.trans hd, rfl⟩
      | true =>
          rw [setAt_cons_of_admits rest value ha] at h ⊢
          rcases ih h with hb | hl
          · cases hs : step? s doc with
            | some child =>
                rw [entered, hs, Option.getD_some] at hb
                exact .inl (barred_cons.2 (.inr ⟨child, hs, hb⟩))
            | none =>
                -- nothing was behind the step, so the array was made there
                rw [setAt_of_barred hb]
                have he : entered s rest doc = placeholder rest := by
                  rw [entered, hs, Option.getD_none]
                rw [he] at hb ⊢
                obtain ⟨i, back, rfl⟩ := exists_eq_index_of_barred hb
                refine .inr ⟨[s], i, back, rfl, fun node hg => ?_, ?_⟩
                · rw [get?_cons, hs] at hg
                  contradiction
                · rw [setAt_cons_of_admits [] _ ha, setAt_nil]
                  rfl
          · exact .inr (hl.cons ha)

/-- **Skipped writes.** A skipped write leaves the document as it is exactly when a
node that is there bars its step.  Otherwise it leaves an empty array where there
was nothing, or null. -/
theorem set_skipped (doc : Json) (path : Path) (value : Json)
    (h : (doc.set path value).2 = .skipped) :
    ((doc.set path value).1 = doc ↔ Barred path.segments doc) ∧
      ((doc.set path value).1 ≠ doc → LeftArray path.segments doc (doc.set path value).1) := by
  rcases setAt_skipped_cases h with hb | hl
  · have he : (doc.set path value).1 = doc := congrArg Prod.fst (setAt_of_barred hb value)
    exact ⟨⟨fun _ => hb, fun _ => he⟩, fun hne => absurd he hne⟩
  · have hne : (doc.set path value).1 ≠ doc := hl.ne
    refine ⟨⟨fun he => absurd he hne, fun hb => ?_⟩, fun _ => hl⟩
    exact congrArg Prod.fst (setAt_of_barred hb value)

/-- A position behind the end of an array that is there is barred, and the document
stays as it is. -/
theorem set_skipped_at_hole :
    let doc : Json := .obj [("steps", .arr [.null])]
    let path : Path := ⟨[.name "steps", .index 2, .name "log"], by simp⟩
    (doc.set path .null).2 = .skipped ∧ (doc.set path .null).1 = doc ∧
      Barred path.segments doc := by
  refine ⟨by decide +kernel, by decide +kernel, ?_⟩
  exact ((set_skipped _ _ .null (by decide +kernel)).1.1 (by decide +kernel))

/-- A skipped write does change a document where it has made an array on the way. -/
theorem not_set_skipped_untouched :
    ¬ ∀ (doc : Json) (path : Path) (value : Json),
      (doc.set path value).2 = .skipped → (doc.set path value).1 = doc := by
  intro h
  have he := h (.obj []) ⟨[.name "a", .index 1], by simp⟩ .null (by decide +kernel)
  revert he
  decide +kernel

end Json

end FlowTree
