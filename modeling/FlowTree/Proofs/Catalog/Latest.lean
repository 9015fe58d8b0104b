/-!
# FlowTree.Proofs.Catalog.Latest

Rows of entries of which a later one takes the place of an earlier one of its name.

* `Latest` — an entry of a row that no later one has the name of;
* `exists_latest` — every name in a row has one;
* `Overlaid` — what is found by name once a row was laid over what was there;
* `overlaid_foldl` — a row laid over entry by entry, from what one entry does;
* `Overlaid.unchanged_iff` — when nothing is seen of a row.
-/

namespace FlowTree

section

variable {α : Type} {name : α → String}

/-- No later entry of the row has the name of this one. -/
def Latest (name : α → String) (row : List α) (entry : α) : Prop :=
  ∃ before after, row = before ++ entry :: after ∧ ∀ later ∈ after, name later ≠ name entry

theorem Latest.mem {row : List α} {entry : α} (h : Latest name row entry) : entry ∈ row := by
  obtain ⟨before, after, rfl, -⟩ := h
  simp

theorem not_latest_nil (entry : α) : ¬ Latest name [] entry := fun h => absurd h.mem List.not_mem_nil

/-- The first entry counts when none behind it has its name. -/
theorem latest_cons {first entry : α} {rest : List α} :
    Latest name (first :: rest) entry ↔
      Latest name rest entry ∨ entry = first ∧ ∀ later ∈ rest, name later ≠ name first := by
  constructor
  · rintro ⟨before, after, he, ha⟩
    cases before with
    | nil =>
        obtain ⟨rfl, rfl⟩ := List.cons_eq_cons.1 he
        exact .inr ⟨rfl, ha⟩
    | cons head before =>
        obtain ⟨rfl, rfl⟩ := List.cons_eq_cons.1 he
        exact .inl ⟨before, after, rfl, ha⟩
  · rintro (⟨before, after, rfl, ha⟩ | ⟨rfl, ha⟩)
    · exact ⟨first :: before, after, rfl, ha⟩
    · exact ⟨[], rest, rfl, ha⟩

/-- Every name in a row has a latest entry. -/
theorem exists_latest (name : α → String) {row : List α} {entry : α} (h : entry ∈ row) :
    ∃ latest, Latest name row latest ∧ name latest = name entry := by
  induction row generalizing entry with
  | nil => contradiction
  | cons first rest ih =>
      by_cases hlater : ∃ later ∈ rest, name later = name entry
      · obtain ⟨later, hmem, hname⟩ := hlater
        obtain ⟨latest, hlatest, hsame⟩ := ih hmem
        exact ⟨latest, latest_cons.2 (.inl hlatest), hsame.trans hname⟩
      · have hnone : ∀ later ∈ rest, name later ≠ name entry := by simpa using hlater
        obtain rfl : entry = first :=
          (List.mem_cons.1 h).resolve_right fun hmem => hnone entry hmem rfl
        exact ⟨entry, latest_cons.2 (.inr ⟨rfl, hnone⟩), rfl⟩

/-! ## lookups -/

/-- What is found by name `after` a row of entries was laid over what was found `before`. -/
structure Overlaid (name : α → String) (row : List α) (before after : String → Option α) :
    Prop where
  latest : ∀ entry, Latest name row entry → after (name entry) = some entry
  others : ∀ key, (∀ entry ∈ row, name entry ≠ key) → after key = before key

/-- Entries laid over one by one: what one of them does is all that a row does. -/
theorem overlaid_foldl {σ : Type} (insert : σ → α → σ) (find : σ → String → Option α)
    (h : ∀ s entry key, find (insert s entry) key =
      if name entry = key then some entry else find s key) (s : σ) (row : List α) :
    Overlaid name row (find s) (find (row.foldl insert s)) := by
  induction row generalizing s with
  | nil => exact ⟨fun entry hl => absurd hl (not_latest_nil entry), fun _ _ => rfl⟩
  | cons first rest ih =>
      have hrest := ih (insert s first)
      refine ⟨fun entry hl => ?_, fun key hk => ?_⟩
      · cases latest_cons.1 hl with
        | inl hlatest => exact hrest.latest entry hlatest
        | inr hfirst =>
            obtain ⟨rfl, hnone⟩ := hfirst
            rw [List.foldl_cons, hrest.others _ hnone, h, if_pos rfl]
      · obtain ⟨hfirst, hnone⟩ := List.forall_mem_cons.1 hk
        rw [List.foldl_cons, hrest.others key hnone, h, if_neg hfirst]

namespace Overlaid

variable {row : List α} {before after : String → Option α}

/-- What is found is the latest entry of the name, or what was found before. -/
theorem eq_some_iff (h : Overlaid name row before after) {key : String} {entry : α} :
    after key = some entry ↔
      name entry = key ∧ Latest name row entry ∨
        (∀ other ∈ row, name other ≠ key) ∧ before key = some entry := by
  constructor
  · intro hfound
    by_cases hrow : ∃ other ∈ row, name other = key
    · obtain ⟨other, hmem, rfl⟩ := hrow
      obtain ⟨latest, hlatest, hname⟩ := exists_latest name hmem
      rw [← hname, h.latest latest hlatest, Option.some.injEq] at hfound
      subst hfound
      exact .inl ⟨hname, hlatest⟩
    · have hnone : ∀ other ∈ row, name other ≠ key := by simpa using hrow
      rw [h.others key hnone] at hfound
      exact .inr ⟨hnone, hfound⟩
  · rintro (⟨rfl, hlatest⟩ | ⟨hnone, hfound⟩)
    · exact h.latest entry hlatest
    · rw [h.others key hnone, hfound]

/-- Nothing is seen of a row when its latest entries were there before. -/
theorem unchanged_iff (h : Overlaid name row before after) :
    (∀ key, after key = before key) ↔
      ∀ entry, Latest name row entry → before (name entry) = some entry := by
  constructor
  · intro hsame entry hlatest
    rw [← hsame, h.latest entry hlatest]
  · intro hthere key
    by_cases hrow : ∃ other ∈ row, name other = key
    · obtain ⟨other, hmem, rfl⟩ := hrow
      obtain ⟨latest, hlatest, hname⟩ := exists_latest name hmem
      rw [← hname, h.latest latest hlatest, hthere latest hlatest]
    · exact h.others key (by simpa using hrow)

end Overlaid

end

end FlowTree
