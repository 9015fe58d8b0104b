import FlowTree.Proofs.Document.Processor

/-!
# FlowTree.Proofs.Document.Copy

Copies of steps, and what becomes of them when they are pasted.

A copy holds what its path leads to, under the last key of the path.  The processor that a
path addresses is read otherwise, and the two readings agree but for step holders: there the
step in the holder is addressed and the whole holder is copied, under the name of the array
that it stands in.

* `copy_of_resolve` — what a copy holds;
* `pastes_holder` — a copy that is pasted is an element with the processor as its only key;
* `copy_processor_iff` — when a copy is one of the processor that its path addresses, and
  what comes of the copies of a step.
-/

namespace FlowTree

open FlowTree.Json FlowTree.Path

/-- No value is the only field of itself. -/
theorem Json.ne_obj_self (key : String) (value : Json) : value ≠ .obj [(key, value)] := by
  intro h
  have hsize := congrArg sizeOf h
  simp only [obj.sizeOf_spec, List.cons.sizeOf_spec, Prod.mk.sizeOf_spec] at hsize
  omega

namespace Document

variable {d : Document}

/-! ## Copying -/

/-- A copy holds what its path leads to, under the last key of the path. -/
theorem copy_of_resolve {path : Path} {name : String} {definition : Json}
    (hr : d.resolve path = some definition) (hn : path.lastName? = some name) :
    d.copy path = some ⟨name, definition⟩ := by
  have hv : d.value.resolve path = some definition := hr
  rw [copy, Json.copy, hv, hn]
  rfl

/-- A step holder is copied as a whole, under the name of its array. -/
theorem copy_stepHolder {path : Path} (h : d.StepHolderAt path) {holder : Json}
    (hr : d.resolve path = some holder) : d.copy path = some ⟨"steps", holder⟩ := by
  obtain ⟨array, i, -, rfl, hsteps, -⟩ := h
  exact copy_of_resolve hr ((lastName?_elementAt array i).trans hsteps)

/-! ## Pasting -/

/-- Pasted beside, or in place of, any element that is there, a copy becomes the given
element. -/
def Pastes (d : Document) (clip : Clip) (element : Json) : Prop :=
  ∀ (target owner : Path) (i : Nat) (node : Json) (mode : AdjacentMode),
    target.owningArray = some (owner, i) → d.resolve (owner.elementAt i) = some node →
    ∃ value, d.paste target clip mode = ({ d with value }, .done .applied) ∧
      Placed mode owner i element d.value value

theorem pastes_holder (d : Document) (clip : Clip) : d.Pastes clip clip.holder := by
  intro target owner i node mode ho hn
  obtain ⟨items, ha, hi⟩ := resolve_elementAt_eq_some_iff.1 hn
  have hlt : i < items.length := (List.getElem?_eq_some_iff.1 hi).1
  refine ⟨overwrite owner.segments (.arr (spliceItems mode i clip.holder items)) d.value, ?_,
    placed_spliceItems ha hlt mode clip.holder⟩
  rw [paste, insertAdjacent, insertAdjacent_eq_applied ho ha hlt]
  rfl

/-! ## Copies of processors -/

/-- **Copies.** A copy is the processor that its path addresses, with its definition, unless
the path is that of a step holder: then it is the holder, under the name `steps`.  So a step
that is copied by its own path is pasted as the element that it was copied from, and one
that is copied by the path of its holder as another element around that one. -/
theorem copy_processor_iff (d : Document) :
    (∀ path found name, d.processorAt? path = some (found, name) →
      ∃ definition clip, d.resolve found = some definition ∧ d.copy path = some clip ∧
        (clip = ⟨name, definition⟩ ↔ ¬ d.StepHolderAt path) ∧
        (d.StepHolderAt path → clip = ⟨"steps", .obj [(name, definition)]⟩)) ∧
    ∀ (steps : Path) (i : Nat) (field : String × Json), steps.lastName? = some "steps" →
      d.resolve (steps.elementAt i) = some (.obj [field]) →
      ∃ own whole, d.copy ((steps.elementAt i).child field.1) = some own ∧
        d.copy (steps.elementAt i) = some whole ∧
        ∀ e : Document, e.Pastes own (.obj [field]) ∧
          e.Pastes whole (.obj [("steps", .obj [field])]) := by
  constructor
  · intro path found name h
    rcases processorAt?_cases h with ⟨rfl, hname, hnone⟩ | ⟨rfl, hat, definition, hr⟩
    · obtain ⟨definition, hr⟩ := exists_resolve_of_processorAt? h
      exact ⟨definition, _, hr, copy_of_resolve hr hname, iff_of_true rfl hnone,
        fun hat => absurd hat hnone⟩
    · refine ⟨definition, _, resolve_stepHolder hr, copy_stepHolder hat hr, ?_, fun _ => rfl⟩
      refine iff_of_false (fun heq => ?_) (not_not_intro hat)
      exact ne_obj_self name definition (congrArg Clip.definition heq).symm
  · rintro steps i ⟨key, definition⟩ hsteps hr
    refine ⟨⟨key, definition⟩, ⟨"steps", .obj [(key, definition)]⟩, ?_, ?_, fun e =>
      ⟨pastes_holder e _, pastes_holder e _⟩⟩
    · exact copy_of_resolve (resolve_stepHolder hr) (lastName?_of_last (last_child _ key))
    · exact copy_stepHolder ⟨steps, i, _, rfl, hsteps, hr⟩ hr

/-- The two copies of a step, and the one by its own path pasted behind the next step. -/
theorem copy_processor_iff_log :
    let steps : Path := ((Path.root "route").child "from").child "steps"
    let log : String × Json := ("log", .obj [])
    let d : Document := ⟨.obj [("route", .obj [("from", .obj
      [("steps", .arr [.obj [log], .obj [("stop", .obj [])]])])])], "route"⟩
    let own : Path := (steps.elementAt 0).child "log"
    d.processorAt? own = some (own, "log") ∧
      d.processorAt? (steps.elementAt 0) = some (own, "log") ∧
      (∃ clip, d.copy own = some clip ∧ clip = ⟨"log", .obj []⟩) ∧
      (∃ clip, d.copy (steps.elementAt 0) = some clip ∧ clip ≠ ⟨"log", .obj []⟩) ∧
      ∃ clip value, d.copy own = some clip ∧
        d.paste (steps.elementAt 1) clip .after = ({ d with value }, .done .applied) ∧
        value.resolve (steps.elementAt 2) = some (.obj [log]) := by
  intro steps log d own
  have hown : d.processorAt? own = some (own, "log") := by decide +kernel
  have helement : d.processorAt? (steps.elementAt 0) = some (own, "log") := by decide +kernel
  have hholder : d.resolve (steps.elementAt 0) = some (.obj [log]) := by decide +kernel
  have hlog : d.resolve own = some (.obj []) := by decide +kernel
  have hsteps : steps.lastName? = some "steps" := by decide +kernel
  obtain ⟨hcopy, hpaste⟩ := copy_processor_iff d
  refine ⟨hown, helement, ?_, ?_, ?_⟩
  · obtain ⟨definition, clip, hr, hc, hiff, -⟩ := hcopy own own "log" hown
    rw [hlog] at hr
    obtain rfl := Option.some.inj hr
    refine ⟨clip, hc, hiff.2 ?_⟩
    rintro ⟨array, i, -, heq, -⟩
    have hl := congrArg last heq
    rw [last_child, last_elementAt] at hl
    contradiction
  · obtain ⟨definition, clip, hr, hc, hiff, -⟩ := hcopy (steps.elementAt 0) own "log" helement
    rw [hlog] at hr
    obtain rfl := Option.some.inj hr
    exact ⟨clip, hc, mt hiff.1 (not_not_intro ⟨steps, 0, log, rfl, hsteps, hholder⟩)⟩
  · obtain ⟨clip, whole, hc, -, hall⟩ := hpaste steps 0 log hsteps hholder
    obtain ⟨value, hp, -, hat, -⟩ := (hall d).1 (steps.elementAt 1) steps 1
      (.obj [("stop", .obj [])]) .after (by decide +kernel) (by decide +kernel)
    exact ⟨clip, value, hc, hp, hat⟩

/-- By the path of its holder, a step is not copied as the processor that it is, and it is
pasted as another element. -/
theorem not_copy_processor :
    (¬ ∀ (d : Document) (path found : Path) (name : String),
      d.processorAt? path = some (found, name) →
        d.copy path = (d.resolve found).map (Clip.mk name)) ∧
    ¬ ∀ (d : Document) (steps : Path) (i : Nat) (field : String × Json) (clip : Clip),
      steps.last = .name "steps" → d.resolve (steps.elementAt i) = some (.obj [field]) →
        d.copy (steps.elementAt i) = some clip →
        (d.paste (steps.elementAt i) clip .after).1.resolve (steps.elementAt (i + 1)) =
          some (.obj [field]) := by
  let steps : Path := ((Path.root "route").child "from").child "steps"
  let d : Document := ⟨.obj [("route", .obj [("from", .obj
    [("steps", .arr [.obj [("log", .obj [])]])])])], "route"⟩
  constructor
  · intro h
    have hcopy := h d (steps.elementAt 0) ((steps.elementAt 0).child "log") "log"
      (by decide +kernel)
    revert hcopy
    decide +kernel
  · intro h
    have hpaste := h d steps 0 ("log", .obj []) ⟨"steps", .obj [("log", .obj [])]⟩
      (by decide +kernel) (by decide +kernel) (by decide +kernel)
    revert hpaste
    decide +kernel

end Document

end FlowTree
