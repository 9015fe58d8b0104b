import FlowTree.Proofs.Tree.Splice

/-!
# FlowTree.Proofs.Tree.OneNode

Removals and insertions change one node, and nothing beside it.

The node is an array that loses or gains one element, or an object that loses one key.
`Json.ChangedAt` names it, with what it was and what it has become; the rest of the
document is the same.

* `changedAt_overwrite` — putting another node in the place of one;
* `document_editAt`, `verdict_editAt` — an edit of a node is a change of it, and the node
  alone decides on its verdict;
* `spliceOutProperty_eq_some_iff` and its likes — what each edit makes of its node;
* `remove_deletes_one` — when a removal is carried out, and what it takes;
* `remove_retargets` — where the other nodes are found without a removed element;
* `insertAdjacent_splices` — what an insertion puts where, and the edit that takes it
  back.
-/

namespace FlowTree

namespace Json

open FlowTree.Path

/-- `result` is `doc` with the node at `path` changed from `old` to `new`, and with
nothing else changed: every path that is not at, above or below the node leads where it
led before, and no field has moved on the way to it. -/
structure ChangedAt (doc : Json) (path : Path) (old new result : Json) : Prop where
  resolve_doc : doc.resolve path = some old
  resolve_result : result.resolve path = some new
  resolve_apart : ∀ other : Path, Apart path.segments other.segments →
    result.resolve other = doc.resolve other
  result_eq : result = overwrite path.segments new doc

/-- Putting another node in the place of one changes that node. -/
theorem changedAt_overwrite {doc old : Json} {path : Path} (h : doc.resolve path = some old)
    (new : Json) : doc.ChangedAt path old new (overwrite path.segments new doc) where
  resolve_doc := h
  resolve_result := get?_overwrite_self new h
  resolve_apart other hother := by
    rw [overwrite_eq_modify]
    exact get?_modify_of_apart hother _ doc
  result_eq := rfl

/-! ## Edits of a node -/

/-- An edit changes its node, or leaves it as it is. -/
theorem document_editAt (doc : Json) (path : Path) (f : Json → Option Json) :
    (doc.editAt (some path) f).document =
      modify (fun node => (f node).getD node) path.segments doc := by
  cases h : (doc.resolve path).bind f with
  | some value =>
      obtain ⟨node, hr, hf⟩ := Option.bind_eq_some_iff.1 h
      rw [editAt_of_resolve hr hf, modify_of_get? _ hr, hf]
      rfl
  | none =>
      have hkept : ∀ node, get? path.segments doc = some node → (f node).getD node = id node := by
        intro node hr
        rw [resolve, hr, Option.bind_some] at h
        rw [h]
        rfl
      simp only [editAt, h]
      rw [modify_congr hkept, modify_id]
      rfl

/-- The node decides on the edit. -/
theorem verdict_editAt (doc : Json) (path : Path) (f : Json → Option Json) :
    (doc.editAt (some path) f).verdict =
      .done (if ((doc.resolve path).bind f).isSome then .applied else .skipped) := by
  rw [editAt]
  cases (doc.resolve path).bind f <;> rfl

section

variable {doc : Json} {path : Path} {f : Json → Option Json}

/-- An edit of a node is carried out when the node is there and can be edited. -/
theorem editAt_applied_iff :
    (doc.editAt (some path) f).verdict = .done .applied ↔
      ∃ old new, doc.resolve path = some old ∧ f old = some new := by
  rw [editAt]
  constructor
  · intro h
    split at h
    · rename_i new hnew
      obtain ⟨old, hold, hf⟩ := Option.bind_eq_some_iff.1 hnew
      exact ⟨old, new, hold, hf⟩
    · simp at h
  · rintro ⟨old, new, hold, hf⟩
    rw [hold, Option.bind_some, hf]
    rfl

theorem changedAt_editAt {old new : Json} (h : doc.resolve path = some old)
    (hf : f old = some new) : doc.ChangedAt path old new (doc.editAt (some path) f).document := by
  rw [editAt_of_resolve h hf]
  exact changedAt_overwrite h new

end

theorem spliceOut_eq_some_iff {i : Nat} {node new : Json} :
    spliceOut i node = some new ↔
      ∃ items, node = .arr items ∧ i < items.length ∧ new = .arr (items.eraseIdx i) := by
  cases node with
  | arr items => simp [spliceOut, eq_comm]
  | null | bool | num | str | obj => simp [spliceOut]

theorem dropProperty_eq_some_iff {key : String} {node new : Json} :
    dropProperty key node = some new ↔
      ∃ fields, node = .obj fields ∧ Fields.has key fields = true ∧
        new = .obj (fields.filter (·.1 ≠ key)) := by
  cases node with
  | obj fields =>
      rw [dropProperty, Fields.drop_eq_filter]
      simp [@eq_comm _ new]
  | null | bool | num | str | arr => simp [dropProperty]

/-- A property of an element can be taken out when the element has it; the element goes
along when it has nothing else. -/
theorem spliceOutProperty_eq_some_iff {i : Nat} {key : String} {node new : Json} :
    spliceOutProperty i key node = some new ↔
      ∃ items fields, node = .arr items ∧ items[i]? = some (.obj fields) ∧
        Fields.has key fields = true ∧
        new = .arr (if fields.length = 1 then items.eraseIdx i
          else items.set i (.obj (fields.filter (·.1 ≠ key)))) := by
  constructor
  · intro h
    cases node with
    | arr items =>
        cases hi : items[i]? with
        | none => simp [spliceOutProperty, hi] at h
        | some element =>
            cases element with
            | obj fields =>
                refine ⟨items, fields, rfl, hi, ?_⟩
                simp only [spliceOutProperty, hi] at h
                split at h
                · rename_i hone
                  exact ⟨hone.2, by rw [if_pos hone.1, Option.some.inj h]⟩
                · rename_i hmore
                  obtain ⟨value, hd, hv⟩ := Option.map_eq_some_iff.1 h
                  obtain ⟨own, hown, hk, rfl⟩ := dropProperty_eq_some_iff.1 hd
                  obtain rfl := obj.inj hown
                  have hone : ¬ fields.length = 1 := fun hone => hmore ⟨hone, hk⟩
                  exact ⟨hk, by rw [if_neg hone, hv]⟩
            | null | bool | num | str | arr => simp [spliceOutProperty, hi] at h
    | null | bool | num | str | obj => contradiction
  · rintro ⟨items, fields, rfl, hi, hk, rfl⟩
    by_cases hone : fields.length = 1
    · simp [spliceOutProperty, hi, hone, hk]
    · have hd : dropProperty key (.obj fields) = some (.obj (fields.filter (·.1 ≠ key))) :=
        dropProperty_eq_some_iff.2 ⟨fields, rfl, hk, rfl⟩
      simp only [spliceOutProperty, hi, hone, false_and, if_false, hd, Option.map_some]

/-! ## Removals -/

section

variable {doc : Json} {path owner : Path} {i : Nat} {key name : String} {fields : Fields Json}
  {items : List Json}

theorem remove_elementAt_applied_iff :
    (doc.remove (path.elementAt i)).verdict = .done .applied ↔
      ∃ items, doc.resolve path = some (.arr items) ∧ i < items.length := by
  rw [remove_elementAt_eq_editAt, editAt_applied_iff]
  constructor
  · rintro ⟨old, new, h, hs⟩
    obtain ⟨items, rfl, hi, -⟩ := spliceOut_eq_some_iff.1 hs
    exact ⟨items, h, hi⟩
  · rintro ⟨items, h, hi⟩
    exact ⟨_, _, h, spliceOut_eq_some_iff.2 ⟨items, rfl, hi, rfl⟩⟩

theorem changedAt_remove_elementAt (h : doc.resolve path = some (.arr items))
    (hi : i < items.length) :
    doc.ChangedAt path (.arr items) (.arr (items.eraseIdx i))
      (doc.remove (path.elementAt i)).document := by
  rw [remove_elementAt_eq_editAt]
  exact changedAt_editAt h (spliceOut_eq_some_iff.2 ⟨items, rfl, hi, rfl⟩)

theorem remove_child_applied_iff (hp : path.last = .name name) :
    (doc.remove (path.child key)).verdict = .done .applied ↔
      ∃ fields, doc.resolve path = some (.obj fields) ∧ Fields.has key fields = true := by
  rw [remove_child_eq_editAt hp, editAt_applied_iff]
  constructor
  · rintro ⟨old, new, h, hd⟩
    obtain ⟨fields, rfl, hk, -⟩ := dropProperty_eq_some_iff.1 hd
    exact ⟨fields, h, hk⟩
  · rintro ⟨fields, h, hk⟩
    exact ⟨_, _, h, dropProperty_eq_some_iff.2 ⟨fields, rfl, hk, rfl⟩⟩

theorem changedAt_remove_child (hp : path.last = .name name)
    (h : doc.resolve path = some (.obj fields)) (hk : Fields.has key fields = true) :
    doc.ChangedAt path (.obj fields) (.obj (fields.filter (·.1 ≠ key)))
      (doc.remove (path.child key)).document := by
  rw [remove_child_eq_editAt hp]
  exact changedAt_editAt h (dropProperty_eq_some_iff.2 ⟨fields, rfl, hk, rfl⟩)

/-- A property of an element can be removed when the element has it. -/
theorem remove_child_elementAt_applied_iff :
    (doc.remove ((owner.elementAt i).child key)).verdict = .done .applied ↔
      ∃ fields, doc.resolve (owner.elementAt i) = some (.obj fields) ∧
        Fields.has key fields = true := by
  rw [remove_child_elementAt_eq_editAt, editAt_applied_iff]
  constructor
  · rintro ⟨old, new, h, hs⟩
    obtain ⟨items, fields, rfl, hi, hk, -⟩ := spliceOutProperty_eq_some_iff.1 hs
    exact ⟨fields, resolve_elementAt_eq_some_iff.2 ⟨items, h, hi⟩, hk⟩
  · rintro ⟨fields, h, hk⟩
    obtain ⟨items, ha, hi⟩ := resolve_elementAt_eq_some_iff.1 h
    exact ⟨_, _, ha, spliceOutProperty_eq_some_iff.2 ⟨items, fields, rfl, hi, hk, rfl⟩⟩

/-- A property that is all of an element takes the element along. -/
theorem changedAt_remove_holder (h : doc.resolve owner = some (.arr items))
    (hi : items[i]? = some (.obj fields)) (hk : Fields.has key fields = true)
    (hone : fields.length = 1) :
    doc.ChangedAt owner (.arr items) (.arr (items.eraseIdx i))
      (doc.remove ((owner.elementAt i).child key)).document := by
  have hs : spliceOutProperty i key (.arr items) = some (.arr (items.eraseIdx i)) :=
    spliceOutProperty_eq_some_iff.2 ⟨items, fields, rfl, hi, hk, by rw [if_pos hone]⟩
  rw [remove_child_elementAt_eq_editAt]
  exact changedAt_editAt h hs

/-- Of an element that has others too, a property alone goes. -/
theorem changedAt_remove_property (h : doc.resolve owner = some (.arr items))
    (hi : items[i]? = some (.obj fields)) (hk : Fields.has key fields = true)
    (hmore : fields.length ≠ 1) :
    doc.ChangedAt (owner.elementAt i) (.obj fields) (.obj (fields.filter (·.1 ≠ key)))
        (doc.remove ((owner.elementAt i).child key)).document ∧
      (doc.remove ((owner.elementAt i).child key)).document.resolve owner =
        some (.arr (items.set i (.obj (fields.filter (·.1 ≠ key))))) := by
  have hs : spliceOutProperty i key (.arr items) =
      some (.arr (items.set i (.obj (fields.filter (·.1 ≠ key))))) :=
    spliceOutProperty_eq_some_iff.2 ⟨items, fields, rfl, hi, hk, by rw [if_neg hmore]⟩
  have he : doc.resolve (owner.elementAt i) = some (.obj fields) :=
    resolve_elementAt_eq_some_iff.2 ⟨items, h, hi⟩
  rw [remove_child_elementAt_eq_editAt]
  refine ⟨?_, (changedAt_editAt h hs).resolve_result⟩
  rw [editAt_of_resolve h hs]
  have hwritten := changedAt_overwrite he (.obj (fields.filter (·.1 ≠ key)))
  rwa [overwrite_elementAt h] at hwritten

/-- A property of an element without an array above it is not there to be removed. -/
theorem remove_child_of_segments (hp : path.segments = [.index i]) (doc : Json) (key : String) :
    doc.remove (path.child key) = .skipped doc := by
  have ht : (path.child key).tail = .indexedProperty i := by
    rw [tail, segments_child, hp]
    rfl
  have ha : (path.child key).ancestor 2 = none := by simp [ancestor, hp]
  simp only [remove, ht, last_child, ha]
  rfl

end

/-- **Removals.** In a document that is an object, at a path of at least two steps:

* an element is removed when the node above it is an array that reaches so far, and then
  this array loses the element and keeps the others in order;
* a property of an element is removed when the element is an object with the property, and
  then the element is lost as a whole if it has nothing else, and else only the property,
  from among the others in their order;
* any other property is removed when the node above it is an object with the property, and
  then only the property is lost.

Apart from the node that loses something nothing changes. -/
theorem remove_deletes_one {doc : Json} {root : Fields Json} (hd : doc = .obj root)
    (above : Path) :
    (∀ i,
      ((doc.remove (above.elementAt i)).verdict = .done .applied ↔
        ∃ items, doc.resolve above = some (.arr items) ∧ i < items.length) ∧
      ∀ items, doc.resolve above = some (.arr items) → i < items.length →
        doc.ChangedAt above (.arr items) (.arr (items.eraseIdx i))
          (doc.remove (above.elementAt i)).document) ∧
    (∀ i key, above.last = .index i →
      ((doc.remove (above.child key)).verdict = .done .applied ↔
        ∃ fields, doc.resolve above = some (.obj fields) ∧ Fields.has key fields = true) ∧
      ∀ fields, doc.resolve above = some (.obj fields) → Fields.has key fields = true →
        ∃ owner items, above = owner.elementAt i ∧ doc.resolve owner = some (.arr items) ∧
          (fields.length = 1 →
            doc.ChangedAt owner (.arr items) (.arr (items.eraseIdx i))
              (doc.remove (above.child key)).document) ∧
          (fields.length ≠ 1 →
            doc.ChangedAt above (.obj fields) (.obj (fields.filter (·.1 ≠ key)))
                (doc.remove (above.child key)).document ∧
              (doc.remove (above.child key)).document.resolve owner =
                some (.arr (items.set i (.obj (fields.filter (·.1 ≠ key))))))) ∧
    (∀ name key, above.last = .name name →
      ((doc.remove (above.child key)).verdict = .done .applied ↔
        ∃ fields, doc.resolve above = some (.obj fields) ∧ Fields.has key fields = true) ∧
      ∀ fields, doc.resolve above = some (.obj fields) → Fields.has key fields = true →
        doc.ChangedAt above (.obj fields) (.obj (fields.filter (·.1 ≠ key)))
          (doc.remove (above.child key)).document) := by
  refine ⟨fun i => ?element, fun i key hlast => ?elementProperty, fun name key hlast => ?property⟩
  case element => exact ⟨remove_elementAt_applied_iff, fun _ => changedAt_remove_elementAt⟩
  case elementProperty =>
    rcases eq_elementAt_or_segments_eq hlast with ⟨owner, rfl⟩ | hshort
    · refine ⟨remove_child_elementAt_applied_iff, fun fields h hk => ?_⟩
      obtain ⟨items, ha, hi⟩ := resolve_elementAt_eq_some_iff.1 h
      exact ⟨owner, items, rfl, ha, changedAt_remove_holder ha hi hk,
        changedAt_remove_property ha hi hk⟩
    · -- a position alone leads nowhere in an object
      have hnone : doc.resolve above = none := by
        rw [hd, resolve, hshort]
        rfl
      rw [remove_child_of_segments hshort, hnone]
      simp
  case property => exact ⟨remove_child_applied_iff hlast, fun _ => changedAt_remove_child hlast⟩

/-- A step with an option loses its key and stays; a step holder goes with its step; and
behind the last step there is nothing to remove. -/
theorem remove_deletes_one_holder :
    let option : Json := .obj [("log", .str "a"), ("id", .str "b")]
    let holder : Json := .obj [("to", .str "c")]
    let doc : Json := .obj [("route", .obj [("steps", .arr [option, holder])])]
    let steps : Path := (Path.root "route").child "steps"
    let first : Edited := doc.remove ((steps.elementAt 0).child "log")
    let second : Edited := doc.remove ((steps.elementAt 1).child "to")
    (first.verdict = .done .applied ∧
      doc.ChangedAt (steps.elementAt 0) option (.obj [("id", .str "b")]) first.document ∧
      first.document.resolve steps = some (.arr [.obj [("id", .str "b")], holder])) ∧
    (second.verdict = .done .applied ∧
      doc.ChangedAt steps (.arr [option, holder]) (.arr [option]) second.document) ∧
    (doc.remove (steps.elementAt 2)).verdict ≠ .done .applied := by
  intro option holder doc steps first second
  have hroot : doc = .obj [("route", .obj [("steps", .arr [option, holder])])] := rfl
  have hsteps : doc.resolve steps = some (.arr [option, holder]) := by decide +kernel
  have hoption : doc.resolve (steps.elementAt 0) = some option := by decide +kernel
  have hholder : doc.resolve (steps.elementAt 1) = some holder := by decide +kernel
  refine ⟨?_, ?_, ?_⟩
  · obtain ⟨hiff, hlost⟩ :=
      (remove_deletes_one hroot (steps.elementAt 0)).2.1 0 "log" (last_elementAt _ _)
    obtain ⟨owner, items, howner, harray, -, hproperty⟩ := hlost _ hoption (by decide)
    obtain ⟨rfl, -⟩ := elementAt_inj.1 howner
    obtain rfl := arr.inj (Option.some.inj (harray.symm.trans hsteps))
    exact ⟨hiff.2 ⟨_, hoption, by decide⟩, hproperty (by decide)⟩
  · obtain ⟨hiff, hlost⟩ :=
      (remove_deletes_one hroot (steps.elementAt 1)).2.1 1 "to" (last_elementAt _ _)
    obtain ⟨owner, items, howner, harray, hsplice, -⟩ := hlost _ hholder (by decide)
    obtain ⟨rfl, -⟩ := elementAt_inj.1 howner
    obtain rfl := arr.inj (Option.some.inj (harray.symm.trans hsteps))
    exact ⟨hiff.2 ⟨_, hholder, by decide⟩, hsplice rfl⟩
  · intro happlied
    obtain ⟨items, hitems, hlt⟩ := ((remove_deletes_one hroot steps).1 2).1.1 happlied
    obtain rfl := arr.inj (Option.some.inj (hitems.symm.trans hsteps))
    exact absurd hlt (by decide)

/-! ## Addresses after a removal -/

/-- **Addresses after a removal.** An element that is there goes out of its array when it is
removed.  Any address that is neither at nor above nor below it leads where it led before, to
the same node or to none, once it is retargeted; and no two such addresses become one. -/
theorem remove_retargets {doc element : Json} {owner : Path} {i : Nat}
    (he : doc.resolve (owner.elementAt i) = some element) :
    ∃ items spliced,
      doc.remove (owner.elementAt i) = .applied spliced ∧
      doc.ChangedAt owner (.arr items) (.arr (items.eraseIdx i)) spliced ∧
      (∀ q : Path, Apart (owner.elementAt i).segments q.segments →
        spliced.resolve (q.retarget owner i) = doc.resolve q) ∧
      ∀ p q : Path, Apart (owner.elementAt i).segments p.segments →
        Apart (owner.elementAt i).segments q.segments →
        p ≠ q → p.retarget owner i ≠ q.retarget owner i := by
  obtain ⟨items, ha, hi⟩ := resolve_elementAt_eq_some_iff.1 he
  have hlt : i < items.length := (List.getElem?_eq_some_iff.1 hi).1
  have hremoved : doc.remove (owner.elementAt i) = .applied (doc.without owner i) :=
    remove_elementAt he
  have hchanged := changedAt_remove_elementAt ha hlt
  rw [hremoved] at hchanged
  refine ⟨items, doc.without owner i, hremoved, hchanged, ?_, ?_⟩
  · intro q hq
    exact resolve_retarget_of_apart hq doc
  · intro p q hp hq hne heq
    exact hne (eq_of_retarget_eq hp.1 hq.1 heq)

/-- The clauses behind a removed one are found one position before, and none behind the last
of them; the step beside their choice stays where it is. -/
theorem remove_retargets_clauses :
    let named (id : String) : Json := .obj [("id", .str id)]
    let doc : Json := .obj [("steps", .arr [named "a",
      .obj [("when", .arr [named "b", named "c", named "d"])]])]
    let steps : Path := Path.root "steps"
    let clauses : Path := (steps.elementAt 1).child "when"
    let idOf (element : Path) : Path := element.child "id"
    let removed : Edited := doc.remove (clauses.elementAt 0)
    removed.verdict = .done .applied ∧
      removed.document.resolve (idOf (clauses.elementAt 0)) = some (.str "c") ∧
      removed.document.resolve (idOf (clauses.elementAt 1)) = some (.str "d") ∧
      removed.document.resolve (idOf (clauses.elementAt 2)) = none ∧
      removed.document.resolve (idOf (steps.elementAt 0)) = some (.str "a") ∧
      (idOf (clauses.elementAt 1)).retarget clauses 0 ≠
        (idOf (clauses.elementAt 2)).retarget clauses 0 := by
  intro named doc steps clauses idOf removed
  have hb : doc.resolve (clauses.elementAt 0) = some (named "b") := by decide +kernel
  have hc : Apart (clauses.elementAt 0).segments (idOf (clauses.elementAt 1)).segments :=
    ⟨by decide +kernel, by decide +kernel⟩
  have hd : Apart (clauses.elementAt 0).segments (idOf (clauses.elementAt 2)).segments :=
    ⟨by decide +kernel, by decide +kernel⟩
  have hnone : Apart (clauses.elementAt 0).segments (idOf (clauses.elementAt 3)).segments :=
    ⟨by decide +kernel, by decide +kernel⟩
  have hbeside : Apart (clauses.elementAt 0).segments (idOf (steps.elementAt 0)).segments :=
    ⟨by decide +kernel, by decide +kernel⟩
  obtain ⟨items, spliced, hspliced, -, hresolve, hinj⟩ := remove_retargets hb
  have hremoved : removed = .applied spliced := hspliced
  rw [hremoved]
  exact ⟨rfl, (hresolve _ hc).trans (by decide +kernel), (hresolve _ hd).trans (by decide +kernel),
    (hresolve _ hnone).trans (by decide +kernel), (hresolve _ hbeside).trans (by decide +kernel),
    hinj _ _ hc hd (by decide +kernel)⟩

/-! ## Insertions -/

/-- **Insertions.** Beside, or in place of, an element that is there a value is put: before
it, behind it, or where it was, with the other elements kept in order and nothing else
changed.  Removing an inserted value gives the document back, and so does putting an element
back where it was replaced. -/
theorem insertAdjacent_splices {doc : Json} {path owner : Path} {i : Nat} {items : List Json}
    (hp : path.owningArray = some (owner, i)) (ha : doc.resolve owner = some (.arr items))
    (hi : i < items.length) (value : Json) :
    let before : Edited := doc.insertAdjacent path value .before
    let after : Edited := doc.insertAdjacent path value .after
    let replaced : Edited := doc.insertAdjacent path value .replace
    (before.verdict = .done .applied ∧
      doc.ChangedAt owner (.arr items) (.arr (items.take i ++ [value] ++ items.drop i))
        before.document ∧
      before.document.remove (owner.elementAt i) = .applied doc) ∧
    (after.verdict = .done .applied ∧
      doc.ChangedAt owner (.arr items)
        (.arr (items.take (i + 1) ++ [value] ++ items.drop (i + 1))) after.document ∧
      after.document.remove (owner.elementAt (i + 1)) = .applied doc) ∧
    (doc.replace path value = replaced ∧ replaced.verdict = .done .applied ∧
      doc.ChangedAt owner (.arr items) (.arr (items.set i value)) replaced.document ∧
      replaced.document.replace (owner.elementAt i) items[i] = .applied doc ∧
      replaced.document.insertAdjacent (owner.elementAt i) items[i] .replace = .applied doc) := by
  intro before after replaced
  have happlied (mode : AdjacentMode) : doc.insertAdjacent path value mode =
      .applied (overwrite owner.segments (.arr (spliceItems mode i value items)) doc) :=
    insertAdjacent_eq_applied hp ha hi mode
  have hplaced (mode : AdjacentMode) := placed_spliceItems ha hi mode value
  refine ⟨?before, ?after, ?replace⟩
  case before =>
    obtain ⟨hthere, -, hback⟩ := hplaced .before
    have hbefore : before = _ := happlied .before
    rw [hbefore, List.append_assoc]
    exact ⟨rfl, changedAt_overwrite ha _,
      (remove_elementAt hthere).trans (congrArg Edited.applied hback)⟩
  case after =>
    obtain ⟨-, hthere, hback⟩ := hplaced .after
    have hafter : after = _ := happlied .after
    rw [hafter, List.append_assoc]
    exact ⟨rfl, changedAt_overwrite ha _,
      (remove_elementAt hthere).trans (congrArg Edited.applied hback)⟩
  case replace =>
    have hreplaced : replaced = _ := happlied .replace
    have hchanged := changedAt_overwrite ha (.arr (items.set i value))
    have hback : (overwrite owner.segments (.arr (items.set i value)) doc).insertAdjacent
        (owner.elementAt i) items[i] .replace = .applied doc := by
      rw [insertAdjacent_eq_applied (owningArray_elementAt owner i) hchanged.resolve_result
        (by rwa [List.length_set]), overwrite_overwrite, spliceItems_replace, List.set_set,
        List.set_getElem_self, overwrite_of_get? ha]
    rw [hreplaced]
    refine ⟨(replace_of_owningArray hp doc value).trans hreplaced, rfl, hchanged, ?_, hback⟩
    exact (replace_of_owningArray (owningArray_elementAt owner i) _ _).trans hback

/-- A step put behind the last one, by the path of the step in its holder, goes again; and the
holder comes back to where it was replaced. -/
theorem insertAdjacent_splices_behind_last :
    let log : Json := .obj [("log", .str "a")]
    let stop : Json := .obj [("stop", .null)]
    let doc : Json := .obj [("route", .obj [("steps", .arr [log]), ("id", .str "b")])]
    let steps : Path := (Path.root "route").child "steps"
    let path : Path := (steps.elementAt 0).child "log"
    let after : Edited := doc.insertAdjacent path stop .after
    let replaced : Edited := doc.replace path stop
    (after.verdict = .done .applied ∧ after.document.resolve steps = some (.arr [log, stop]) ∧
      after.document.remove (steps.elementAt 1) = .applied doc) ∧
    (replaced.verdict = .done .applied ∧
      replaced.document.resolve steps = some (.arr [stop]) ∧
      replaced.document.replace (steps.elementAt 0) log = .applied doc) := by
  intro log stop doc steps path after replaced
  have hp : path.owningArray = some (steps, 0) := owningArray_child_elementAt steps 0 "log"
  have ha : doc.resolve steps = some (.arr [log]) := by decide +kernel
  obtain ⟨-, ⟨hafter, hbehind, hremoved⟩, hsame, hreplaced, hthere, hback, -⟩ :=
    insertAdjacent_splices hp ha (by decide) stop
  have heq : replaced = _ := hsame
  rw [heq]
  exact ⟨⟨hafter, hbehind.resolve_result, hremoved⟩, hreplaced, hthere.resolve_result, hback⟩

end Json

end FlowTree
