import FlowTree.Proofs.Graph.Builtin
import FlowTree.Proofs.Graph.Redraw
import FlowTree.Proofs.Path.Text

/-!
# FlowTree.Proofs.Graph.Identity

Nodes are told apart by their paths, and by their ids.

The id of a node is a text, and keys of a document may hold dots, so paths that differ can
have one text.  Those of nodes do not: they leave each other at a position or at a name of
a steps property, and neither has a dot in it.

* `Path.Told.text_ne` — paths that are told apart by steps without a dot differ as texts;
* `Graph.findIdx?_of_nodup` — what no two nodes share finds the node;
* `Graph.nodes_identified` — paths and ids of the nodes of a document are distinct, and find
  the nodes that have them.
-/

namespace FlowTree

/-! ## Texts that differ -/

section Intercalate

variable {first second : List Char} {more others : List (List Char)}

/-- A text starts with its first token, if that has no dot. -/
theorem takeWhile_intercalate_cons (h : '.' ∉ first) (more : List (List Char)) :
    (['.'].intercalate (first :: more)).takeWhile (· ≠ '.') = first := by
  have hall : ∀ c ∈ first, decide (c ≠ '.') = true := by
    intro c hc
    have hne : c ≠ '.' := ne_of_mem_of_not_mem hc h
    simpa using hne
  cases more with
  | nil =>
    calc (['.'].intercalate [first]).takeWhile (· ≠ '.')
        = (first ++ []).takeWhile (· ≠ '.') := by simp
      _ = first ++ [].takeWhile (· ≠ '.') := List.takeWhile_append_of_pos hall
      _ = first := by simp
  | cons next rest =>
    rw [List.intercalate_cons_cons, List.append_assoc, List.takeWhile_append_of_pos hall]
    simp

/-- Texts that differ do so behind tokens in front. -/
theorem intercalate_append_left_cancel {front : List (List Char)}
    (h : ['.'].intercalate (front ++ first :: more) =
      ['.'].intercalate (front ++ second :: others)) :
    ['.'].intercalate (first :: more) = ['.'].intercalate (second :: others) := by
  induction front with
  | nil => exact h
  | cons token front ih =>
    rw [List.cons_append, List.cons_append, List.intercalate_cons_of_ne_nil (by simp),
      List.intercalate_cons_of_ne_nil (by simp)] at h
    exact ih (List.append_cancel_left h)

end Intercalate

namespace Path

open Segment

/-- A key has no dot in it. -/
def Dotless (key : String) : Prop := '.' ∉ key.toList

instance : DecidablePred Dotless := fun key => inferInstanceAs (Decidable ('.' ∉ key.toList))

/-- Paths that leave a third one by steps whose texts have no dot, and differ, have different
texts. -/
theorem text_ne_of_steps {p q : Path} {base : List Segment} {a b : Segment}
    (ha : '.' ∉ a.text.toList) (hb : '.' ∉ b.text.toList) (hne : a.text ≠ b.text)
    (hp : base ++ [a] <+: p.segments) (hq : base ++ [b] <+: q.segments) : p.text ≠ q.text := by
  obtain ⟨more, hp⟩ := hp
  obtain ⟨others, hq⟩ := hq
  intro htext
  have hlist := congrArg String.toList htext
  rw [toList_text, toList_text, ← hp, ← hq] at hlist
  simp only [List.append_assoc, List.singleton_append, List.map_append, List.map_cons] at hlist
  have hrest := intercalate_append_left_cancel hlist
  have hfirst := congrArg (List.takeWhile (· ≠ '.')) hrest
  rw [takeWhile_intercalate_cons ha, takeWhile_intercalate_cons hb] at hfirst
  exact hne (String.toList_inj.1 hfirst)

/-- A path above another one has a shorter text. -/
theorem text_ne_of_above {p q : Path} (h : p.segments <+: q.segments)
    (hne : p.segments ≠ q.segments) : p.text ≠ q.text := by
  obtain ⟨below, hq⟩ := h
  have hbelow : below ≠ [] := by
    rintro rfl
    rw [List.append_nil] at hq
    exact hne hq
  intro htext
  have hlength := congrArg String.length htext
  rw [text, text, ← hq, List.map_append, String.intercalate_append_of_ne_nil
    (by simpa using p.nonempty) (by simpa using hbelow)] at hlength
  have hdot : ".".length = 1 := rfl
  simp only [String.length_append, hdot] at hlength
  omega

/-- Positions that differ are written differently. -/
theorem text_index_ne {i j : Nat} (h : i ≠ j) : (index i).text ≠ (index j).text := by
  intro htext
  have hdigits := congrArg (fun text : String => Nat.ofDigitChars 10 text.toList 0) htext
  simp only [toList_text_index, Nat.ofDigitChars_ten_toDigits] at hdigits
  exact h hdigits

/-- Paths that are told apart without the help of dots have different texts. -/
theorem Told.text_ne {p q : Path} (h : Told Dotless p.segments q.segments) :
    p.text ≠ q.text := by
  have hindex (i : Nat) : '.' ∉ (index i).text.toList := by
    intro hdot
    exact absurd (isDigit_of_mem_text_index hdot) (by decide)
  cases h with
  | inl habove => exact text_ne_of_above habove.1 habove.2
  | inr hforks =>
    cases hforks with
    | positions hne hp hq => exact text_ne_of_steps (hindex _) (hindex _) (text_index_ne hne) hp hq
    | keys hne ha hb hp hq => exact text_ne_of_steps (a := .name _) (b := .name _) ha hb hne hp hq

end Path

/-! ## Names of steps properties -/

/-- No steps property of the built-in catalog or mappers has a dot in its name. -/
theorem Context.dotless_builtin (name : String) :
    (∀ p ∈ builtin.scheme.properties name, Path.Dotless p.name) ∧
      ∀ p ∈ builtin.catalog.stepsProperties name, Path.Dotless p.name :=
  forall_properties (by decide +kernel) name

theorem Document.dotless_rootReading (d : Document) :
    ∀ p ∈ (d.holder Context.builtin.scheme).reading.properties, Path.Dotless p.name := by
  intro p hp
  rcases Document.mem_rootReading_iff.1 hp with ⟨-, rfl⟩ | ⟨-, hp⟩
  · decide
  · rcases Document.rootProperties_cases hp with hdeclared | rfl
    · exact (Context.dotless_builtin d.root).2 p hdeclared
    · decide

/-! ## Nodes -/

/-- Where no two elements of a list share what `f` makes of them, it finds each element. -/
theorem findIdx?_of_nodup {α β : Type} [DecidableEq β] {f : α → β} {xs : List α}
    (h : (xs.map f).Nodup) {i : Nat} {x : α} (hx : xs[i]? = some x) :
    xs.findIdx? (fun y => f y == f x) = some i := by
  obtain ⟨hi, rfl⟩ := List.getElem?_eq_some_iff.1 hx
  rw [List.findIdx?_eq_some_iff_getElem]
  refine ⟨hi, beq_self_eq_true _, fun j hj heq => ?_⟩
  have hne := List.pairwise_iff_getElem.1 (List.pairwise_map.1 h) j i (Nat.lt_trans hj hi) hi hj
  exact hne (eq_of_beq heq)

namespace Drawing

variable {entityId : String} {start : Nat} {parent : Option Nat}

/-- The id of a node is the text of its path, behind the id of the entity. -/
theorem id_of_mem_nodesOfAll {ds : List Drawing} {n : Node}
    (h : n ∈ nodesOfAll entityId start parent ds) :
    n.id = entityId ++ "|" ++ n.card.path.text := by
  induction ds using forest_induction generalizing start parent with
  | nil => contradiction
  | cons card next previous lifts children rest ihc ihr =>
    rw [nodesOfAll, nodes, List.cons_append, List.mem_cons, List.mem_append] at h
    rcases h with rfl | hc | hr
    · rfl
    · exact ihc hc
    · exact ihr hr

end Drawing

namespace Graph

theorem id_of_mem_nodes {s : Scheme} {d : Document} {n : Node} (h : n ∈ (ofDocument s d).nodes) :
    n.id = d.entityId ++ "|" ++ n.card.path.text := by
  have hall : n ∈ Drawing.nodesOfAll d.entityId 0 none [d.drawing s] := by
    rw [ofDocument_eq] at h
    rwa [Drawing.nodesOfAll, Drawing.nodesOfAll, List.append_nil]
  exact Drawing.id_of_mem_nodesOfAll hall

/-- **Identity.** No two nodes of a document share their path, and none share their id,
whatever the keys of the document; so a node is the one found by its path, and by its id. -/
theorem nodes_identified (d : Document) :
    let g := ofDocument Context.builtin.scheme d
    (g.nodes.map fun n => n.card.path).Nodup ∧ (g.nodes.map Node.id).Nodup ∧
      ∀ i n, g.get? i = some n →
        g.findByPath? n.card.path = some i ∧ g.findById? n.id = some i := by
  intro g
  have hs := Context.orderly_builtin
  have htold : (g.nodes.map fun n => n.card.path.segments).Pairwise (Path.Told Path.Dotless) := by
    have h := pairwise_told hs (fun name => (Context.dotless_builtin name).1) d.dotless_rootReading
    rwa [entries, List.map_map] at h
  rw [List.pairwise_map] at htold
  have hpaths : (g.nodes.map fun n => n.card.path).Nodup := by
    have h := nodup_paths hs d
    rwa [entries, List.map_map] at h
  have hids : (g.nodes.map Node.id).Nodup := by
    refine List.pairwise_map.2 (htold.imp_of_mem fun {n m} hn hm h heq => ?_)
    rw [id_of_mem_nodes hn, id_of_mem_nodes hm] at heq
    exact h.text_ne ((String.append_right_inj _).1 heq)
  exact ⟨hpaths, hids, fun i n hn => ⟨findIdx?_of_nodup hpaths hn, findIdx?_of_nodup hids hn⟩⟩

end Graph

end FlowTree
