import FlowTree.Proofs.Path.Text
import FlowTree.Tree.Lookup

/-!
# FlowTree.Proofs.Path.Address

Which nodes of a document have a text that leads to them.

A node is reached by keys of objects and positions in arrays.  A text is read without
the document at hand, so a token of digits is a position even where the document has a
key of these digits, and a step of the wrong kind leads nowhere.

* `Json.LeadsTo` — a text is read as the steps to a node;
* `Segment.spells_of_letter` — one character other than a digit makes a key of a token;
* `Json.exists_leadsTo_iff` — the nodes with a text are those behind keys that spell keys;
* `Json.not_exists_text` — a key of digits alone leaves a node without one.
-/

namespace FlowTree

namespace Segment

/-- A key with a character that is no digit is not taken for a position. -/
theorem spells_of_letter {key : String} (hne : key ≠ "") (hdot : '.' ∉ key.toList)
    (hletter : ∃ c ∈ key.toList, c.isDigit = false) : Spells key := by
  obtain ⟨c, hc, hd⟩ := hletter
  refine ⟨hne, hdot, fun hdigits => ?_⟩
  rw [hdigits c hc] at hd
  contradiction

/-- A single digit is taken for a position. -/
theorem not_spells_zero : ¬ Spells "0" := by
  intro h
  have hdigits : ∀ c ∈ "0".toList, c.isDigit = true := by
    intro c hc
    have hzero : c = '0' := by simpa using hc
    rw [hzero]
    decide
  exact (h.not_position hdigits).1 (by decide)

end Segment

namespace Json

open FlowTree.Segment

/-- A text is read as a path of the given steps, and this path resolves to a node. -/
def LeadsTo (doc : Json) (text : String) (steps : List Segment) (node : Json) : Prop :=
  ∃ p : Path, Path.parse text = .ok p ∧ p.segments = steps ∧ doc.resolve p = some node

/-- **Textual addresses.** A node that keys and positions lead to has a text that leads to
it exactly when each of the keys spells a key: it is not empty, has no dot in it and, when it
consists of digits alone, does not start with a zero and is too large for a position. -/
theorem exists_leadsTo_iff {doc node : Json} {steps : List Segment} (hne : steps ≠ [])
    (hnode : doc.get? steps = some node) (hpos : ∀ i, .index i ∈ steps → i < indexLimit) :
    (∃ text, doc.LeadsTo text steps node) ↔ ∀ key, .name key ∈ steps → Spells key := by
  constructor
  · rintro ⟨text, p, hparse, rfl, -⟩ key hkey
    exact (Path.parse_eq_ok_iff.1 hparse).2 _ hkey
  · intro hspells
    let p : Path := ⟨steps, hne⟩
    have hreads : ∀ s ∈ p.segments, s.Readable := by
      intro s hs
      cases s with
      | name key => exact hspells key hs
      | index i => exact hpos i hs
    exact ⟨p.text, p, Path.parse_eq_ok_iff.2 ⟨rfl, hreads⟩, rfl, hnode⟩

/-- A key with a dash, a position, and a key of more digits than a position has. -/
theorem exists_leadsTo_beyond_positions :
    let key := "18446744073709551616"
    let doc : Json := .obj [("by-code", .arr [.null, .obj [("7", .null), (key, .str "b")]])]
    let steps : List Segment := [.name "by-code", .index 1, .name key]
    steps ≠ [] ∧ doc.get? steps = some (.str "b") ∧
      (∀ i, .index i ∈ steps → i < indexLimit) ∧
      ∃ text, doc.LeadsTo text steps (.str "b") := by
  intro key doc steps
  have hnode : doc.get? steps = some (.str "b") := by decide +kernel
  have hpos : ∀ i, .index i ∈ steps → i < indexLimit := by
    intro i hi
    have hone : i = 1 := by simpa [steps] using hi
    rw [hone]
    decide
  have hspells : ∀ k, .name k ∈ steps → Spells k := by
    intro k hk
    have hkeys : k = "by-code" ∨ k = key := by simpa [steps] using hk
    rcases hkeys with rfl | rfl
    · exact spells_of_letter (by decide) (by decide) ⟨'b', by decide, by decide⟩
    · exact ⟨by decide, by decide, fun _ => by decide +kernel⟩
  exact ⟨by simp [steps], hnode, hpos,
    (exists_leadsTo_iff (by simp [steps]) hnode hpos).2 hspells⟩

/-- A node under the key `0` of an object has no text: the token is read as a position. -/
theorem not_exists_text :
    ¬ ∀ (doc node : Json) (steps : List Segment), steps ≠ [] → doc.get? steps = some node →
      (∀ key, .name key ∈ steps → key ≠ "" ∧ '.' ∉ key.toList) →
      (∀ i, .index i ∈ steps → i < indexLimit) →
      ∃ text p, Path.parse text = .ok p ∧ doc.resolve p = some node := by
  intro h
  let doc : Json := .obj [("0", .bool true)]
  obtain ⟨text, p, hparse, hresolve⟩ := h doc (.bool true) [.name "0"] (by simp)
    (by decide +kernel) (by simp) (by simp)
  obtain ⟨s, rest, hp⟩ := List.exists_cons_of_ne_nil p.nonempty
  have hreads : s.Readable := (Path.parse_eq_ok_iff.1 hparse).2 s (by simp [hp])
  rw [resolve, hp, get?_cons] at hresolve
  obtain ⟨child, hstep, -⟩ := Option.bind_eq_some_iff.1 hresolve
  -- the only step into the document is the key, and no token is read as this key
  cases s with
  | index i => contradiction
  | name key =>
    have hfound : Fields.get? key [("0", Json.bool true)] = some child := hstep
    have hkey : key = "0" := List.mem_singleton.1 (Fields.mem_keys_of_get? hfound)
    rw [hkey] at hreads
    exact not_spells_zero hreads

end Json

end FlowTree
