import FlowTree.Editor
import FlowTree.Proofs.Tree.RootKeys

/-!
# FlowTree.Proofs.Editor.RootSegment

The root segment of a document along a run of actions.

A loaded document is an object whose only key is its root segment.  No action takes a
key from that object, and only a write can bring one in: `Action.strays` says which
writes do, those at a path that begins with another key than the root segment.  From
what one action does to the keys,

* `keys_act_of_not_strays` — an action that does not stray leaves them alone;
* `prefix_keys_act`, `exists_key_act_of_strays` — one that strays puts a key behind
  them,

follows what a run does, and that nothing in it brings a strayed document back:
`run_keeps_root_iff`.
-/

namespace FlowTree

/-- The first step at which an action enters a document whose root segment is `root`,
creating what is not there; the edits of steps create nothing at the outermost
level. -/
def Action.enters? (root : String) : Action → Option Segment
  | .set path _ | .writeExpression path _ _ => some path.first
  | .setId _ => some (.name root)
  | .insertChild .. | .insertAdjacent .. | .replace .. | .remove .. | .moveStep .. | .paste .. =>
    none

/-- Whether an action writes under another key than the root segment. -/
def Action.strays (root : String) (a : Action) : Bool :=
  match a.enters? root with
  | some (.name key) => key ≠ root
  | _ => false

namespace Editor

open Json

/-! ## One action -/

theorem keys_withHolder {d : Document} (h : d.value.keys ≠ []) (path : Path) :
    (withHolder d path).1.value.keys = withStep path.first d.value.keys := by
  unfold withHolder
  split
  · rename_i node hn
    exact (withStep_of_resolve hn).symm
  · exact keys_set h path .null

theorem root_withHolder (d : Document) (path : Path) : (withHolder d path).1.root = d.root := by
  unfold withHolder
  split
  · rfl
  · rfl

/-- Once there is a holder, writing an expression at most puts another one in its
place. -/
theorem writeExpression_cases (languages : Languages) (d : Document) (path : Path)
    (language : Option String) (model : Json) :
    (writeExpression languages d path language model).1 = (withHolder d path).1 ∨
      ∃ holder, (writeExpression languages d path language model).1 =
        { (withHolder d path).1 with
          value := overwrite path.segments holder (withHolder d path).1.value } := by
  unfold writeExpression
  split
  · rename_i made hm
    exact .inl (by rw [hm])
  · rename_i made hm
    rw [hm]
    dsimp only
    split
    · exact .inr ⟨_, rfl⟩
    · exact .inl rfl

theorem keys_writeExpression (languages : Languages) {d : Document} (h : d.value.keys ≠ [])
    (path : Path) (language : Option String) (model : Json) :
    (writeExpression languages d path language model).1.value.keys =
      withStep path.first d.value.keys := by
  rw [← keys_withHolder h path]
  rcases writeExpression_cases languages d path language model with he | ⟨holder, he⟩ <;> rw [he]
  exact keys_overwrite path.nonempty holder _

/-- What one action does to the keys of the outermost object. -/
theorem keys_act (c : Context) {d : Document} (h : d.value.keys ≠ []) (a : Action) :
    (act c d a).1.value.keys =
      ((a.enters? d.root).map (withStep · d.value.keys)).getD d.value.keys := by
  cases a with
  | set path value => exact keys_set h path value
  | setId id => exact keys_set h (d.rootPath.child "id") (.str id)
  | writeExpression path language model =>
      exact keys_writeExpression c.languages h path language model
  | insertChild path property value mode =>
      simp only [act, Document.insertChild, Action.enters?]
      split
      · exact keys_insertChild d.value _ _ _ _ _ _
      · rfl
  | insertAdjacent path value mode => exact keys_insertAdjacent d.value path value mode
  | replace path value => exact keys_replace d.value path value
  | remove path => exact keys_remove d.value path
  | moveStep source target mode => exact keys_moveStep d.value source target mode
  | paste path clip mode => exact keys_insertAdjacent d.value path clip.holder mode

/-- No action names another root segment. -/
theorem root_act (c : Context) (d : Document) (a : Action) : (act c d a).1.root = d.root := by
  cases a with
  | writeExpression path language model =>
      have ha : (act c d (.writeExpression path language model)).1 =
          (Editor.writeExpression c.languages d path language model).1 := rfl
      rw [ha, ← root_withHolder d path]
      rcases writeExpression_cases c.languages d path language model with he | ⟨holder, he⟩
      · rw [he]
      · rw [he]
  | insertChild path property value mode =>
      simp only [act, Document.insertChild]
      split
      · rfl
      · rfl
  | set | setId | insertAdjacent | replace | remove | moveStep | paste => rfl

theorem strays_iff {root : String} {a : Action} :
    a.strays root = true ↔ ∃ key, a.enters? root = some (.name key) ∧ key ≠ root := by
  unfold Action.strays
  split
  · rename_i key hk
    simp [hk]
  · rename_i hn
    simp only [Bool.false_eq_true, false_iff, not_exists, not_and]
    exact fun key hk => absurd hk (hn key)

/-- No action takes a key from the outermost object. -/
theorem prefix_keys_act (c : Context) {d : Document} (h : d.value.keys ≠ []) (a : Action) :
    d.value.keys <+: (act c d a).1.value.keys := by
  rw [keys_act c h a]
  cases a.enters? d.root with
  | none => exact List.prefix_refl _
  | some s => exact prefix_withStep s _

theorem keys_act_ne_nil (c : Context) {d : Document} (h : d.value.keys ≠ []) (a : Action) :
    (act c d a).1.value.keys ≠ [] := fun he =>
  h (List.prefix_nil.1 (he ▸ prefix_keys_act c h a))

/-- An action that does not stray leaves the keys alone. -/
theorem keys_act_of_not_strays (c : Context) {d : Document} (h : d.root ∈ d.value.keys)
    {a : Action} (ha : a.strays d.root = false) : (act c d a).1.value.keys = d.value.keys := by
  rw [keys_act c (List.ne_nil_of_mem h) a]
  cases hs : a.enters? d.root with
  | none => rfl
  | some s =>
      cases s with
      | index i => rfl
      | name key =>
          have hk : key = d.root := Decidable.byContradiction fun hne => by
            rw [strays_iff.2 ⟨key, hs, hne⟩] at ha
            contradiction
          rw [hk]
          exact withStep_of_mem h

/-- An action that strays leaves another key than the root segment behind. -/
theorem exists_key_act_of_strays (c : Context) {d : Document} (h : d.value.keys ≠ [])
    {a : Action} (ha : a.strays d.root = true) :
    ∃ key ∈ (act c d a).1.value.keys, key ≠ d.root := by
  obtain ⟨key, hs, hne⟩ := strays_iff.1 ha
  refine ⟨key, ?_, hne⟩
  rw [keys_act c h a, hs]
  exact mem_withStep_name key _

/-! ## Runs -/

theorem run_cons (e : Editor) (a : Action) (rest : List Action) :
    e.run (a :: rest) = (e.perform a).1.run rest := rfl

theorem document_perform (e : Editor) (a : Action) :
    (e.perform a).1.document = (act e.context e.document a).1 := rfl

theorem root_run (e : Editor) (actions : List Action) :
    (e.run actions).document.root = e.document.root := by
  induction actions generalizing e with
  | nil => rfl
  | cons a rest ih => rw [run_cons, ih, document_perform, root_act]

/-- A key of the outermost object stays for the whole run. -/
theorem prefix_keys_run {e : Editor} (h : e.document.value.keys ≠ []) (actions : List Action) :
    e.document.value.keys <+: (e.run actions).document.value.keys := by
  induction actions generalizing e with
  | nil => exact List.prefix_refl _
  | cons a rest ih =>
      have hne : (e.perform a).1.document.value.keys ≠ [] := keys_act_ne_nil e.context h a
      exact (prefix_keys_act e.context h a).trans (ih hne)

theorem keys_run_of_not_strays {e : Editor} (h : e.document.root ∈ e.document.value.keys)
    {actions : List Action} (ha : ∀ a ∈ actions, a.strays e.document.root = false) :
    (e.run actions).document.value.keys = e.document.value.keys := by
  induction actions generalizing e with
  | nil => rfl
  | cons a rest ih =>
      have hk : (e.perform a).1.document.value.keys = e.document.value.keys :=
        keys_act_of_not_strays e.context h (ha a (by simp))
      have hr : (e.perform a).1.document.root = e.document.root := root_act _ _ a
      rw [run_cons, ← hk]
      refine ih (by rw [hr, hk]; exact h) fun b hb => ?_
      rw [hr]
      exact ha b (by simp [hb])

/-- A run that strays ends with another key than the root segment. -/
theorem exists_key_run_of_strays {e : Editor} (h : e.document.value.keys ≠ [])
    {actions : List Action} {a : Action} (hm : a ∈ actions)
    (ha : a.strays e.document.root = true) :
    ∃ key ∈ (e.run actions).document.value.keys, key ≠ e.document.root := by
  induction actions generalizing e with
  | nil => contradiction
  | cons b rest ih =>
      have hne : (e.perform b).1.document.value.keys ≠ [] := keys_act_ne_nil e.context h b
      rcases List.mem_cons.1 hm with rfl | hm
      · -- the key is there from now on
        obtain ⟨key, hk, hroot⟩ := exists_key_act_of_strays e.context h ha
        exact ⟨key, (prefix_keys_run hne rest).mem hk, hroot⟩
      · have hr : (e.perform b).1.document.root = e.document.root := root_act _ _ b
        rw [← hr] at ha ⊢
        exact ih hne hm ha

end Editor

/-! ## Loaded documents -/

namespace Document

/-- A document is loaded from its own value when its root segment is the only key. -/
theorem ofJson_eq_ok_iff {value : Json} {d : Document} :
    ofJson value = .ok d ↔ d.value = value ∧ ∃ definition, value = .obj [(d.root, definition)] := by
  constructor
  · intro h
    unfold ofJson at h
    split at h
    · rename_i root definition
      obtain rfl := Except.ok.inj h
      exact ⟨rfl, definition, rfl⟩
    all_goals contradiction
  · rintro ⟨rfl, definition, hv⟩
    rw [hv, ofJson, ← hv]

theorem keys_of_loaded {d : Document}
    (h : (∃ value, ofJson value = .ok d) ∨ ∃ id, d = .newRoute id) :
    d.value.keys = [d.root] := by
  rcases h with ⟨value, h⟩ | ⟨id, rfl⟩
  · obtain ⟨rfl, hd⟩ := ofJson_eq_ok_iff.1 h
    exact Json.keys_eq_singleton_iff.2 hd
  · rfl

end Document

namespace Editor

/-- **One root segment.** From a loaded or a new document, a run of actions never
changes the root segment that the editor knows, and leaves the value an object with
this key alone, so that it would be loaded as what it is, exactly when no action in
the run strays. -/
theorem run_keeps_root_iff (e : Editor) (actions : List Action)
    (h : (∃ value, Document.ofJson value = .ok e.document) ∨
      ∃ id, e.document = .newRoute id) :
    (e.run actions).document.root = e.document.root ∧
    ((∃ definition, (e.run actions).document.value = .obj [(e.document.root, definition)]) ↔
      ∀ a ∈ actions, a.strays e.document.root = false) ∧
    (Document.ofJson (e.run actions).document.value = .ok (e.run actions).document ↔
      ∀ a ∈ actions, a.strays e.document.root = false) := by
  have hk := Document.keys_of_loaded h
  have hr := root_run e actions
  have hiff : (∃ definition,
      (e.run actions).document.value = .obj [(e.document.root, definition)]) ↔
      ∀ a ∈ actions, a.strays e.document.root = false := by
    rw [← Json.keys_eq_singleton_iff]
    constructor
    · intro hrun a ha
      refine Bool.eq_false_iff.2 fun hs => ?_
      obtain ⟨key, hkey, hne⟩ := exists_key_run_of_strays (by rw [hk]; simp) ha hs
      rw [hrun, List.mem_singleton] at hkey
      exact hne hkey
    · intro ha
      rw [keys_run_of_not_strays (by rw [hk]; simp) ha, hk]
  refine ⟨hr, hiff, ?_⟩
  rw [Document.ofJson_eq_ok_iff, hr, hiff]
  exact and_iff_right rfl

/-- The definition may be replaced and written anew, and a removal of the root or a
write at a position of it comes to nothing. -/
theorem run_keeps_root_iff_rewritten :
    let e : Editor := ⟨.builtin, .newRoute "r"⟩
    let route : Path := .root "route"
    let actions : List Action := [.replace route .null,
      .writeExpression route (some "simple") (.str "a"), .remove route,
      .set ⟨[.index 0], by simp⟩ .null, .setId "s"]
    (∃ definition, (e.run actions).document.value = .obj [("route", definition)]) ∧
      Document.ofJson (e.run actions).document.value = .ok (e.run actions).document ∧
      (e.run actions).document.root = "route" := by
  intro e route actions
  have hs : ∀ a ∈ actions, a.strays e.document.root = false := by decide +kernel
  have hrun := run_keeps_root_iff e actions (.inr ⟨"r", rfl⟩)
  exact ⟨hrun.2.1.2 hs, hrun.2.2.2 hs, hrun.1⟩

/-- A write at another root puts a second key into the document. -/
theorem not_run_keeps_root :
    ¬ ∀ (e : Editor) (actions : List Action),
      ((∃ value, Document.ofJson value = .ok e.document) ∨
        ∃ id, e.document = .newRoute id) →
      ∃ definition, (e.run actions).document.value = .obj [(e.document.root, definition)] := by
  intro h
  have hd := h ⟨.builtin, .newRoute "r"⟩ [.set (.root "other") .null] (.inr ⟨"r", rfl⟩)
  have hk := Json.keys_eq_singleton_iff.2 hd
  revert hk
  decide +kernel

end Editor

end FlowTree
