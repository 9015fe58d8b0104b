import FlowTree.Proofs.Catalog.Latest
import FlowTree.Proofs.Expression.Registry
import Mathlib.Data.Finset.Card

/-!
# FlowTree.Proofs.Expression.Declared

What a registry lists after any row of registrations, and in which order.

A registration writes over the language of its id where that stands, and puts a new id last.
So an id never leaves the place that its first registration gave it, and what stands there is
the language registered last:

* `FirstSeen` — ids each once, in the order in which a row first has them;
* `ids_register`, `FirstSeen.concat` — one registration, and one more id of a row;
* `firstSeen_ofList`, `prefix_ids_ofList` — rows of registrations;
* `overlaid_ofList` — what is found by id;
* `ofList_declares` — all of it.
-/

namespace FlowTree

/-! ## first occurrences -/

/-- Ids in the order in which a row first has them. -/
structure FirstSeen (row ids : List String) : Prop where
  mem_iff : ∀ id, id ∈ ids ↔ id ∈ row
  ordered : ids.Pairwise fun a b => row.idxOf a < row.idxOf b

namespace FirstSeen

variable {row ids : List String}

theorem nil : FirstSeen [] [] := ⟨fun _ => Iff.rfl, List.Pairwise.nil⟩

/-- No id stands twice. -/
theorem nodup (h : FirstSeen row ids) : ids.Nodup :=
  h.ordered.imp fun hlt he => absurd (he ▸ hlt) (Nat.lt_irrefl _)

/-- There are as many as there are different ids in the row. -/
theorem length_eq (h : FirstSeen row ids) : ids.length = row.toFinset.card := by
  have hsame : ids.toFinset = row.toFinset := by
    ext id
    simp [h.mem_iff]
  rw [← hsame, List.toFinset_card_of_nodup h.nodup]

/-- One more id stands last, unless the row had it before. -/
theorem concat (h : FirstSeen row ids) (id : String) :
    FirstSeen (row ++ [id]) (if id ∈ ids then ids else ids ++ [id]) := by
  have hidx : ∀ a ∈ ids, (row ++ [id]).idxOf a = row.idxOf a := fun a ha =>
    List.idxOf_append_of_mem ((h.mem_iff a).1 ha)
  have hordered : ids.Pairwise fun a b => (row ++ [id]).idxOf a < (row ++ [id]).idxOf b :=
    h.ordered.imp_of_mem fun ha hb hlt => by rwa [hidx _ ha, hidx _ hb]
  split
  · rename_i hid
    refine ⟨fun a => ?_, hordered⟩
    rw [h.mem_iff, List.mem_append, List.mem_singleton]
    exact ⟨.inl, fun ha => ha.elim (·) fun he => he ▸ (h.mem_iff id).1 hid⟩
  · rename_i hid
    have hnew : id ∉ row := mt (h.mem_iff id).2 hid
    refine ⟨fun a => by simp [h.mem_iff], List.pairwise_append.2 ⟨hordered, by simp, ?_⟩⟩
    intro a ha b hb
    -- what the row had before comes first in it
    have hlt : row.idxOf a < row.length := List.idxOf_lt_length_of_mem ((h.mem_iff a).1 ha)
    rw [List.mem_singleton.1 hb, hidx a ha, List.idxOf_append_of_notMem hnew]
    omega

end FirstSeen

namespace Languages

/-- The ids of a registry, in the order of its list. -/
def ids (ls : Languages) : List String := ls.list.map (·.id)

/-! ## one registration -/

theorem mem_ids_iff {ls : Languages} {id : String} :
    id ∈ ls.ids ↔ ∃ language, ls.get? id = some language := by
  simp only [ids, List.mem_map, get?_eq_some_iff]

/-- A registration keeps the ids in their places, and puts a new one last. -/
theorem ids_register (ls : Languages) (language : Language) :
    (ls.register language).ids =
      if language.id ∈ ls.ids then ls.ids else ls.ids ++ [language.id] := by
  cases hslot : ls.byId.get? language.id with
  | some slot =>
      obtain ⟨former, hformer, hid⟩ := (ls.indexed.byId_iff language.id slot).1 hslot
      have hold : ls.ids[slot]? = some language.id := by
        rw [ids, List.getElem?_map, hformer, Option.map_some, hid]
      have hnew : (ls.register language).ids = ls.ids.set slot language.id := by
        simp only [ids, register, LanguageTable.register, hslot, List.map_set]
      obtain ⟨hlt, heq⟩ := List.getElem?_eq_some_iff.1 hold
      rw [if_pos (List.mem_of_getElem? hold), hnew, ← heq, List.set_getElem_self]
  | none =>
      have hnew : language.id ∉ ls.ids := by simp [mem_ids_iff, get?, hslot]
      rw [if_neg hnew]
      simp [ids, register, LanguageTable.register, hslot]

theorem prefix_ids_register (ls : Languages) (language : Language) :
    ls.ids <+: (ls.register language).ids := by
  rw [ids_register]
  split
  · exact List.prefix_refl _
  · exact List.prefix_append _ _

/-! ## rows of registrations -/

/-- The ids of a registry are those registered, in the order of their first registrations. -/
theorem firstSeen_ofList (history : List Language) :
    FirstSeen (history.map (·.id)) (ofList history).ids := by
  induction history using List.reverseRecOn with
  | nil => exact FirstSeen.nil
  | append_singleton history language ih =>
      rw [ofList_concat, ids_register, List.map_append]
      exact ih.concat language.id

/-- An id keeps its place under further registrations. -/
theorem prefix_ids_ofList (history more : List Language) :
    (ofList history).ids <+: (ofList (history ++ more)).ids := by
  induction more using List.reverseRecOn with
  | nil => simp
  | append_singleton more language ih =>
      rw [← List.append_assoc, ofList_concat]
      exact ih.trans (prefix_ids_register _ language)

/-- By its id the language is found that was registered last. -/
theorem overlaid_ofList (history : List Language) :
    Overlaid (·.id) history (fun _ => none) (ofList history).get? :=
  overlaid_foldl register get? get?_register empty history

theorem get?_ofList_eq_some_iff {history : List Language} {id : String} {language : Language} :
    (ofList history).get? id = some language ↔
      language.id = id ∧ Latest (·.id) history language := by
  simp [(overlaid_ofList history).eq_some_iff]

theorem get?_ofList_eq_none_iff {history : List Language} {id : String} :
    (ofList history).get? id = none ↔ id ∉ history.map (·.id) := by
  rw [← (firstSeen_ofList history).mem_iff, mem_ids_iff, ← Option.isSome_iff_exists,
    Option.not_isSome_iff_eq_none]

/-- What is listed is what was registered last under each id. -/
theorem mem_list_ofList_iff {history : List Language} {language : Language} :
    language ∈ (ofList history).list ↔ Latest (·.id) history language := by
  constructor
  · intro hmem
    exact (get?_ofList_eq_some_iff.1 (get?_of_mem hmem)).2
  · intro hlatest
    exact mem_of_get? (get?_ofList_eq_some_iff.2 ⟨rfl, hlatest⟩)

/-- **Declaration order.** After any row of registrations, ids repeated and all else of their
languages changed at will:

* the registry lists every registered id once, in the order of the first registrations, so
  that it has as many languages as there are different ids, and further registrations leave
  each id at its place;
* what it lists, and what is found by id, is the language registered last under the id, and
  nothing is found under an id that was never registered. -/
theorem ofList_declares (history : List Language) :
    let registered := history.map (·.id)
    let ids := (ofList history).list.map (·.id)
    ids.Nodup ∧ (∀ id, id ∈ ids ↔ id ∈ registered) ∧
      ids.Pairwise (fun a b => registered.idxOf a < registered.idxOf b) ∧
      (ofList history).list.length = registered.toFinset.card ∧
      (∀ more, ids <+: (ofList (history ++ more)).list.map (·.id)) ∧
      (∀ language, language ∈ (ofList history).list ↔ Latest (·.id) history language) ∧
      (∀ id language, (ofList history).get? id = some language ↔
        language.id = id ∧ Latest (·.id) history language) ∧
      ∀ id, (ofList history).get? id = none ↔ id ∉ registered := by
  intro registered ids
  have hseen := firstSeen_ofList history
  have hlength : (ofList history).list.length = registered.toFinset.card := by
    rw [← hseen.length_eq, Languages.ids, List.length_map]
  exact ⟨hseen.nodup, hseen.mem_iff, hseen.ordered, hlength, prefix_ids_ofList history,
    fun _ => mem_list_ofList_iff, fun _ _ => get?_ofList_eq_some_iff,
    fun _ => get?_ofList_eq_none_iff⟩

end Languages

end FlowTree
