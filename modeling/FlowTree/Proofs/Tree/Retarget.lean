import FlowTree.Proofs.Path.Element
import FlowTree.Proofs.Tree.Frame
import FlowTree.Tree.Move

/-!
# FlowTree.Proofs.Tree.Retarget

Addresses in a document that an element was spliced out of.

* `Path.spread` — where a path leads after an element was put into an array, which is the
  way back from a splice: `spread_retarget`, and so `eq_of_retarget_eq`;
* `Json.without` — the document without an element of one of its arrays;
* `get?_retargetSegments` — a node that the splice does not touch is found at its
  retargeted address;
* `resolve_retarget_without` — every node that is not part of the element is found
  there, less the element when this was inside the node.
-/

namespace FlowTree

open FlowTree.Path

namespace Path

/-! ## The shape of a retargeted path -/

/-- A last key stays. -/
theorem retargetSegments_append_name (i : Nat) (owner path : List Segment) (key : String) :
    retargetSegments i owner (path ++ [.name key]) =
      retargetSegments i owner path ++ [.name key] := by
  induction owner generalizing path with
  | nil =>
      cases path with
      | nil => rfl
      | cons s rest => cases s <;> rfl
  | cons o owner ih =>
      cases path with
      | nil => simp [retargetSegments]
      | cons s rest =>
          by_cases h : o = s
          · simp [retargetSegments, h, ih]
          · simp [retargetSegments, h]

/-- A last position shifts when the path before it is that of the array. -/
theorem retargetSegments_append_index (i : Nat) (owner path : List Segment) (j : Nat) :
    retargetSegments i owner (path ++ [.index j]) =
      retargetSegments i owner path ++ [.index (if owner = path ∧ i < j then j - 1 else j)] := by
  induction owner generalizing path with
  | nil =>
      cases path with
      | nil => simp [retargetSegments]
      | cons s rest => cases s <;> simp [retargetSegments]
  | cons o owner ih =>
      cases path with
      | nil => simp [retargetSegments]
      | cons s rest =>
          by_cases h : o = s
          · simp [retargetSegments, h, ih]
          · simp [retargetSegments, h]

/-- Nothing shifts on the way to the array. -/
theorem retargetSegments_of_above (i : Nat) {owner path : List Segment} (h : path <+: owner) :
    retargetSegments i owner path = path := by
  induction owner generalizing path with
  | nil => rw [List.prefix_nil.1 h]; rfl
  | cons o owner ih =>
      cases path with
      | nil => rfl
      | cons s rest =>
          obtain ⟨rfl, hr⟩ := List.cons_prefix_cons.1 h
          simp [retargetSegments, ih hr]

/-- Only what is in the array shifts. -/
theorem retargetSegments_of_not_below (i : Nat) {owner path : List Segment}
    (h : ¬ owner <+: path) : retargetSegments i owner path = path := by
  induction owner generalizing path with
  | nil => exact absurd List.nil_prefix h
  | cons o owner ih =>
      cases path with
      | nil => rfl
      | cons s rest =>
          by_cases hos : o = s
          · have hr : ¬ owner <+: rest := fun hp => h (List.cons_prefix_cons.2 ⟨hos, hp⟩)
            rw [retargetSegments, if_pos hos, ih hr]
          · rw [retargetSegments, if_neg hos]

/-- The position in the array shifts, and what is below it follows. -/
theorem retargetSegments_append_cons_index (i : Nat) (owner : List Segment) (j : Nat)
    (rest : List Segment) :
    retargetSegments i owner (owner ++ .index j :: rest) =
      owner ++ .index (if i < j then j - 1 else j) :: rest := by
  induction owner with
  | nil => rfl
  | cons o owner ih =>
      rw [List.cons_append, retargetSegments, if_pos rfl, ih]
      rfl

theorem segments_retarget (p owner : Path) (i : Nat) :
    (p.retarget owner i).segments = retargetSegments i owner.segments p.segments := rfl

theorem retarget_of_not_below {p owner : Path} {i : Nat}
    (h : ¬ owner.segments <+: p.segments) : p.retarget owner i = p :=
  eq_of_segments (retargetSegments_of_not_below i h)

theorem retarget_child (p owner : Path) (i : Nat) (key : String) :
    (p.child key).retarget owner i = (p.retarget owner i).child key :=
  eq_of_segments (retargetSegments_append_name i _ _ key)

theorem retarget_elementAt_self (owner : Path) (i j : Nat) :
    (owner.elementAt j).retarget owner i = owner.elementAt (if i < j then j - 1 else j) :=
  eq_of_segments (retargetSegments_append_cons_index i owner.segments j [])

/-- A position in an array after the element at position `i` of the array at `owner`
was spliced out. -/
def retargetIndex (owner : Path) (i : Nat) (array : Path) (j : Nat) : Nat :=
  if owner.segments = array.segments ∧ i < j then j - 1 else j

theorem retarget_elementAt (array owner : Path) (i j : Nat) :
    (array.elementAt j).retarget owner i =
      (array.retarget owner i).elementAt (retargetIndex owner i array j) :=
  eq_of_segments (retargetSegments_append_index i owner.segments array.segments j)

/-- A retargeted path stands for the retargeted element. -/
theorem owningArray_retarget {path array : Path} {j : Nat} (owner : Path) (i : Nat)
    (h : path.owningArray = some (array, j)) :
    (path.retarget owner i).owningArray =
      some (array.retarget owner i, retargetIndex owner i array j) := by
  rw [owningArray_eq_some_iff, ← retarget_elementAt]
  rcases owningArray_eq_some_iff.1 h with rfl | ⟨key, rfl⟩
  · exact .inl rfl
  · exact .inr ⟨key, retarget_child (array.elementAt j) owner i key⟩

/-! ## The way back -/

/-- Steps after an element was put at position `i` of the array at `owner`: a position from
there on, in that array, is one more. -/
def spreadSegments (i : Nat) : List Segment → List Segment → List Segment
  | [], .index j :: rest => .index (if i ≤ j then j + 1 else j) :: rest
  | o :: owner, s :: rest => s :: (if o = s then spreadSegments i owner rest else rest)
  | _, path => path

theorem spreadSegments_ne_nil (i : Nat) (owner : List Segment) {path : List Segment}
    (h : path ≠ []) : spreadSegments i owner path ≠ [] := by
  unfold spreadSegments
  split
  · simp
  · simp
  · exact h

/-- A path after an element was put at position `i` of the array at `owner`. -/
def spread (path owner : Path) (i : Nat) : Path :=
  ⟨spreadSegments i owner.segments path.segments,
    spreadSegments_ne_nil i owner.segments path.nonempty⟩

/-- Putting an element where one was spliced out leads back to all but that one. -/
theorem spreadSegments_retargetSegments {i : Nat} {owner path : List Segment}
    (h : ¬ owner ++ [.index i] <+: path) :
    spreadSegments i owner (retargetSegments i owner path) = path := by
  induction owner generalizing path with
  | nil =>
      cases path with
      | nil => rfl
      | cons s rest =>
          cases s with
          | name key => rfl
          | index j =>
              have hij : i ≠ j := by
                rintro rfl
                exact h ⟨rest, rfl⟩
              simp only [retargetSegments, spreadSegments]
              congr 2
              split <;> split <;> omega
  | cons o owner ih =>
      cases path with
      | nil => rfl
      | cons s rest =>
          rw [retargetSegments, spreadSegments]
          by_cases hos : o = s
          · subst hos
            have hrest : ¬ owner ++ [.index i] <+: rest := fun hp =>
              h (List.cons_prefix_cons.2 ⟨rfl, hp⟩)
            rw [if_pos rfl, if_pos rfl, ih hrest]
          · rw [if_neg hos, if_neg hos]

theorem spread_retarget {owner p : Path} {i : Nat}
    (h : ¬ (owner.elementAt i).segments <+: p.segments) :
    (p.retarget owner i).spread owner i = p :=
  eq_of_segments (spreadSegments_retargetSegments h)

/-- No two paths off the spliced-out element become one. -/
theorem eq_of_retarget_eq {owner p q : Path} {i : Nat}
    (hp : ¬ (owner.elementAt i).segments <+: p.segments)
    (hq : ¬ (owner.elementAt i).segments <+: q.segments)
    (h : p.retarget owner i = q.retarget owner i) : p = q :=
  calc
    p = (p.retarget owner i).spread owner i := (spread_retarget hp).symm
    _ = (q.retarget owner i).spread owner i := by rw [h]
    _ = q := spread_retarget hq

end Path

namespace Json

/-! ## Splicing an element out -/

/-- An array without one of its elements. -/
def eraseItem (i : Nat) : Json → Json
  | .arr items => .arr (items.eraseIdx i)
  | doc => doc

/-- A document without the element at a position of the array at `owner`. -/
def without (doc : Json) (owner : Path) (i : Nat) : Json :=
  modify (eraseItem i) owner.segments doc

/-- A step that is not the one to the lost element finds the same node after its
shift. -/
theorem step?_eraseItem {i j : Nat} (h : i ≠ j) (doc : Json) :
    step? (.index (if i < j then j - 1 else j)) (eraseItem i doc) = step? (.index j) doc := by
  cases doc with
  | arr items =>
      simp only [eraseItem, step?, List.getElem?_eraseIdx]
      by_cases hij : i < j
      · have h1 : ¬ j - 1 < i := by omega
        have h2 : j - 1 + 1 = j := by omega
        rw [if_pos hij, if_neg h1, h2]
      · have h1 : j < i := by omega
        rw [if_neg hij, if_pos h1]
  | null | bool | num | str | obj => rfl

theorem step?_name_eraseItem (key : String) (i : Nat) (doc : Json) :
    step? (.name key) (eraseItem i doc) = step? (.name key) doc := by
  cases doc <;> rfl

/-- A node apart from the spliced-out element is found at its retargeted address. -/
theorem get?_retargetSegments {owner path : List Segment} {i : Nat}
    (h : Apart (owner ++ [.index i]) path) (doc : Json) :
    get? (retargetSegments i owner path) (modify (eraseItem i) owner doc) = get? path doc := by
  induction owner generalizing path doc with
  | nil =>
      cases path with
      | nil => exact absurd h (not_apart_nil_right _)
      | cons s rest =>
          have hs : .index i ≠ s := (apart_cons.1 h).resolve_right (not_apart_nil_left rest)
          cases s with
          | name key => exact congrArg (Option.bind · _) (step?_name_eraseItem key i doc)
          | index j =>
              have hij : i ≠ j := fun he => hs (by rw [he])
              exact congrArg (Option.bind · _) (step?_eraseItem hij doc)
  | cons o owner ih =>
      cases path with
      | nil => exact absurd h (not_apart_nil_right _)
      | cons s rest =>
          rw [retargetSegments]
          cases hs : step? o doc with
          | none =>
              rw [modify_cons_of_step?_eq_none _ _ hs]
              by_cases hos : o = s
              · subst hos
                rw [get?_cons, get?_cons, hs]
                rfl
              · rw [if_neg hos]
          | some child =>
              rw [modify_cons_of_step? _ _ hs, get?_cons, get?_cons]
              by_cases hos : o = s
              · subst hos
                have hr : Apart (owner ++ [.index i]) rest :=
                  (apart_cons.1 h).resolve_left fun hne => hne rfl
                rw [if_pos rfl, step?_putStep_self _ hs, hs, Option.bind_some, Option.bind_some,
                  ih hr child]
              · rw [if_neg hos, step?_putStep_of_ne hos]

theorem resolve_retarget_of_apart {owner path : Path} {i : Nat}
    (h : Apart (owner.elementAt i).segments path.segments) (doc : Json) :
    (doc.without owner i).resolve (path.retarget owner i) = doc.resolve path :=
  get?_retargetSegments h doc

/-- What is left of the node at `path` without the element at a position of the array
at `owner`: the node without the element when this is inside it, else the node. -/
def remnant (owner : Path) (i : Nat) (path : Path) (node : Json) : Json :=
  if owner.startsWith path then modify (eraseItem i) (owner.segments.drop path.length) node
  else node

/-- A node above the element keeps all but the element. -/
theorem remnant_of_above {owner path : Path} {below : List Segment}
    (h : owner.segments = path.segments ++ below) (i : Nat) (node : Json) :
    remnant owner i path node = modify (eraseItem i) below node := by
  have hs : owner.startsWith path = true := startsWith_iff.2 ⟨below, h.symm⟩
  rw [remnant, if_pos hs, h, Path.length, List.drop_left]

theorem remnant_of_not_above {owner path : Path} (h : ¬ path.segments <+: owner.segments)
    (i : Nat) (node : Json) : remnant owner i path node = node := by
  have hs : ¬ owner.startsWith path = true := fun hs => h (startsWith_iff.1 hs)
  rw [remnant, if_neg hs]

/-- Every node that is not part of the spliced-out element is found at its
retargeted address, less the element. -/
theorem resolve_retarget_without {owner path : Path} {i : Nat}
    (h : path.startsWith (owner.elementAt i) = false) (doc : Json) :
    (doc.without owner i).resolve (path.retarget owner i) =
      (doc.resolve path).map (remnant owner i path) := by
  have hbelow : ¬ owner.segments ++ [.index i] <+: path.segments := fun hp => by
    have ht : path.startsWith (owner.elementAt i) = true := startsWith_iff.2 hp
    rw [h] at ht
    contradiction
  by_cases habove : path.segments <+: owner.segments
  · -- the element goes from inside the node, whose own address does not shift
    obtain ⟨below, hb⟩ := habove
    have hr : remnant owner i path = modify (eraseItem i) below :=
      funext (remnant_of_above hb.symm i)
    have hp : (path.retarget owner i).segments = path.segments :=
      retargetSegments_of_above i ⟨below, hb⟩
    rw [hr, resolve, hp, without, ← hb, get?_modify_above, resolve]
  · -- neither is inside the other, so that only the address can change
    have happ : Apart (owner.elementAt i).segments path.segments := by
      refine ⟨hbelow, fun hp => ?_⟩
      rcases List.prefix_concat_iff.1 hp with he | hp
      · exact hbelow (he ▸ List.prefix_refl _)
      · exact habove hp
    have hr : remnant owner i path = id := funext (remnant_of_not_above habove i)
    rw [hr, Option.map_id_fun]
    exact resolve_retarget_of_apart happ doc

end Json

end FlowTree
