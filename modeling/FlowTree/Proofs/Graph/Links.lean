import FlowTree.Proofs.Graph.Placed

/-!
# FlowTree.Proofs.Graph.Links

Links between the drawings of a row.

A link leads from a drawing to the next one of its row, and the row is right when that
one links back.  Both directions are read off a row from left to right, with the link of
the drawing before at hand; attaching keeps the first and may lose the second: a child
that hands its own children over is linked to the first of them, while the sibling that
was chained behind it still links back to it.

* `LinksForward`, `LinksBack` — every link is answered by the next drawing, and every
  link back answers one;
* `linksForward_attachAll`, `linksBack_attachAll` — what attaching keeps;
* `broken_attachAll` — what it breaks;
* `exists_previous_of_next`, `exists_next_of_previous` — the two laws, for positions.
-/

namespace FlowTree

namespace Drawing

/-- Every link leads to the next drawing of the row, which links back; `before` is the
link of the drawing before the row. -/
def LinksForward : Option Nat → List Drawing → Prop
  | before, [] => before = none
  | before, d :: rest =>
    (∀ k, before = some k → d.previous = some k) ∧ (∀ k, d.next = some k → k = d.size) ∧
      LinksForward d.next rest

/-- Every link back answers the link of the drawing before. -/
def LinksBack : Option Nat → List Drawing → Prop
  | _, [] => True
  | before, d :: rest =>
    (∀ k, d.previous = some k → before = some k) ∧ LinksBack d.next rest

/-- Links of a row lead forth and back alike, and none leaves the row. -/
def LinksBoth (ds : List Drawing) : Prop := LinksForward none ds ∧ LinksBack none ds

/-- A drawing is linked to the one next to it, but a later one links back to it. -/
def Broken (ds : List Drawing) : Prop :=
  ∃ front d mid e after, ds = front ++ d :: (mid ++ e :: after) ∧ mid ≠ [] ∧ d.size = 1 ∧
    d.next = some 1 ∧ e.previous = some (1 + sizeOfAll mid)

mutual

/-- A property of rows holds of the row right below the topmost node, and of all rows
below that one. -/
def Everywhere (P : List Drawing → Prop) : Drawing → Prop
  | node _ _ _ _ children => P children ∧ EverywhereAll P children

/-- A property of rows holds of all rows below the drawings of a row. -/
def EverywhereAll (P : List Drawing → Prop) : List Drawing → Prop
  | [] => True
  | d :: rest => Everywhere P d ∧ EverywhereAll P rest

end

theorem everywhereAll_iff {P : List Drawing → Prop} {ds : List Drawing} :
    EverywhereAll P ds ↔ ∀ d ∈ ds, Everywhere P d := by
  induction ds with
  | nil => simp [EverywhereAll]
  | cons d rest ih => simp [EverywhereAll, ih]

theorem everywhere_iff {P : List Drawing → Prop} {d : Drawing} :
    Everywhere P d ↔ P d.children ∧ ∀ e ∈ d.children, Everywhere P e := by
  cases d
  rw [Everywhere, everywhereAll_iff, children]

/-! ## Rows in two parts -/

theorem linksForward_append {before : Option Nat} {xs ys : List Drawing}
    (hx : LinksForward before xs) (hy : LinksForward none ys) :
    LinksForward before (xs ++ ys) := by
  induction xs generalizing before with
  | nil => rwa [hx]
  | cons d rest ih => exact ⟨hx.1, hx.2.1, ih hx.2.2⟩

theorem linksBack_append {before : Option Nat} {xs ys : List Drawing}
    (hf : LinksForward before xs) (hx : LinksBack before xs) (hy : LinksBack none ys) :
    LinksBack before (xs ++ ys) := by
  induction xs generalizing before with
  | nil => rwa [hf]
  | cons d rest ih => exact ⟨hx.1, ih hf.2.2 hx.2⟩

theorem Broken.append {ds : List Drawing} (h : Broken ds) (xs ys : List Drawing) :
    Broken (xs ++ (ds ++ ys)) := by
  obtain ⟨front, d, mid, e, after, rfl, hm⟩ := h
  exact ⟨xs ++ front, d, mid, e, after ++ ys, by simp, hm⟩

/-- Neither a row nor any row below it is broken. -/
def Intact (ds : List Drawing) : Prop :=
  ¬ Broken ds ∧ ∀ d ∈ ds, Everywhere (fun row => ¬ Broken row) d

/-- A part of an intact row is intact. -/
theorem Intact.of_append {xs ds ys : List Drawing} (h : Intact (xs ++ (ds ++ ys))) : Intact ds :=
  ⟨fun hb => h.1 (hb.append xs ys), fun d hd => h.2 d (by simp [hd])⟩

/-! ## Chains -/

theorem linksForward_chainBehind {prev before : Option Nat} {ds : List Drawing}
    (hb : ∀ k, before = some k → prev = some k) (hnil : ds = [] → before = none) :
    LinksForward before (chainBehind prev ds) := by
  induction ds generalizing before prev with
  | nil => exact hnil rfl
  | cons d rest ih =>
      obtain ⟨card, next, previous, lifts, children⟩ := d
      cases rest with
      | nil => exact ⟨hb, fun k hk => by contradiction, rfl⟩
      | cons e rest =>
          exact ⟨hb, fun k hk => (Option.some.inj hk).symm, ih (fun k hk => hk) (by simp)⟩

theorem linksBack_chainBehind {before : Option Nat} {ds : List Drawing} :
    LinksBack before (chainBehind before ds) := by
  induction ds generalizing before with
  | nil => trivial
  | cons d rest ih =>
      obtain ⟨card, next, previous, lifts, children⟩ := d
      cases rest with
      | nil => exact ⟨fun k hk => hk, trivial⟩
      | cons e rest => exact ⟨fun k hk => hk, ih⟩

/-- The later part of a chain is a chain of its own. -/
theorem exists_chainBehind_append (prev : Option Nat) (xs ys : List Drawing) :
    ∃ front prev', chainBehind prev (xs ++ ys) = front ++ chainBehind prev' ys := by
  induction xs generalizing prev with
  | nil => exact ⟨[], prev, rfl⟩
  | cons d rest ih =>
      obtain ⟨front, prev', h⟩ := ih (some d.size)
      exact ⟨_ :: front, prev', by rw [List.cons_append, chainBehind, h]; rfl⟩

/-! ## Attaching -/

theorem everywhere_linkFirst {P : List Drawing → Prop} {ds : List Drawing} :
    (∀ d ∈ linkFirst ds, Everywhere P d) ↔ ∀ d ∈ ds, Everywhere P d := by
  rcases ds with - | ⟨⟨card, next, previous, lifts, children⟩, rest⟩
  · simp [linkFirst]
  · simp [linkFirst, Everywhere]

theorem linksForward_linkFirst {ds : List Drawing} (h : LinksForward none ds) (hne : ds ≠ []) :
    LinksForward (some 1) (linkFirst ds) := by
  rcases ds with - | ⟨⟨card, next, previous, lifts, children⟩, rest⟩
  · contradiction
  · exact ⟨fun k hk => hk, h.2⟩

theorem linksBack_linkFirst {ds : List Drawing} (h : LinksBack none ds) :
    LinksBack (some 1) (linkFirst ds) := by
  rcases ds with - | ⟨⟨card, next, previous, lifts, children⟩, rest⟩
  · trivial
  · exact ⟨fun k hk => hk, h.2⟩

/-- What is broken stays so when the row is linked to a node before it. -/
theorem Broken.linkFirst {ds : List Drawing} (h : Broken ds) : Broken (linkFirst ds) := by
  obtain ⟨front, d, mid, e, after, rfl, hm⟩ := h
  rcases front with - | ⟨⟨card, next, previous, lifts, children⟩, front⟩
  · obtain ⟨card, next, previous, lifts, children⟩ := d
    exact ⟨[], node card next (some 1) lifts children, mid, e, after, rfl, hm⟩
  · exact ⟨node card next (some 1) lifts children :: front, d, mid, e, after, rfl, hm⟩

theorem Intact.of_linkFirst {ds : List Drawing} (h : Intact (Drawing.linkFirst ds)) : Intact ds :=
  ⟨fun hb => h.1 hb.linkFirst, everywhere_linkFirst.1 h.2⟩

/-- Whether attaching hands children over. -/
def HandsOver (d : Drawing) : Prop := d.lifts = true ∧ d.children ≠ []

/-- What attaching makes of a drawing: the drawing, or its node alone and behind it the
children it hands over. -/
theorem attach_cases (d : Drawing) :
    (¬ d.HandsOver ∧ ∃ lifts, attach d = [node d.card d.next d.previous lifts d.children]) ∨
      d.HandsOver ∧ attach d = node d.card (some 1) d.previous false [] :: linkFirst d.children := by
  obtain ⟨card, next, previous, lifts, children⟩ := d
  cases lifts with
  | false => exact .inl ⟨fun h => by simp [HandsOver, Drawing.lifts] at h, false, rfl⟩
  | true =>
      cases children with
      | nil => exact .inl ⟨fun h => h.2 rfl, false, rfl⟩
      | cons c rest => exact .inr ⟨⟨rfl, by simp [Drawing.children]⟩, rfl⟩

/-- Attaching keeps links forward. -/
theorem linksForward_attachAll {before before' : Option Nat} {ds : List Drawing}
    (h : LinksForward before ds) (hds : ∀ d ∈ ds, LinksForward none d.children)
    (hb : ∀ k, before' = some k → before = some k) : LinksForward before' (attachAll ds) := by
  induction ds generalizing before before' with
  | nil =>
      obtain rfl : before = none := h
      exact Option.eq_none_iff_forall_ne_some.2 fun k hk => by simpa using hb k hk
  | cons d rest ih =>
      have hrest := fun e he => hds e (List.mem_cons_of_mem d he)
      have hprev : ∀ k, before' = some k → d.previous = some k := fun k hk => h.1 k (hb k hk)
      rw [attachAll_cons]
      rcases attach_cases d with ⟨-, lifts, ha⟩ | ⟨hover, ha⟩ <;> rw [ha]
      · refine ⟨hprev, fun k hk => ?_, ih h.2.2 hrest fun k hk => hk⟩
        rw [h.2.1 k hk]
        cases d
        rfl
      · refine ⟨hprev, fun k hk => (Option.some.inj hk).symm, ?_⟩
        refine linksForward_append ?_ (@ih d.next none h.2.2 hrest (by simp))
        exact linksForward_linkFirst (hds d List.mem_cons_self) hover.2

/-- Attaching keeps links back when no drawing with a link hands children over. -/
theorem linksBack_attachAll {before : Option Nat} {ds : List Drawing} (h : LinksBack before ds)
    (hds : ∀ d ∈ ds, LinksBoth d.children)
    (hover : ∀ d ∈ ds, d.HandsOver → d.next = none) :
    LinksBack before (attachAll ds) := by
  induction ds generalizing before with
  | nil => trivial
  | cons d rest ih =>
      have hd := hds d List.mem_cons_self
      have htail := @ih d.next h.2 (fun e he => hds e (List.mem_cons_of_mem d he))
        fun e he => hover e (List.mem_cons_of_mem d he)
      rw [attachAll_cons]
      rcases attach_cases d with ⟨-, lifts, ha⟩ | ⟨ho, ha⟩ <;> rw [ha]
      · exact ⟨h.1, htail⟩
      · rw [hover d List.mem_cons_self ho] at htail
        refine ⟨h.1, ?_⟩
        exact linksBack_append (linksForward_linkFirst hd.1 ho.2) (linksBack_linkFirst hd.2) htail

/-- The node of a drawing comes first in what attaching makes of it, and links back as
the drawing did. -/
theorem exists_attach_eq_cons (d : Drawing) :
    ∃ e more, attach d = e :: more ∧ e.previous = d.previous := by
  rcases attach_cases d with ⟨-, lifts, h⟩ | ⟨-, h⟩
  · exact ⟨_, _, h, rfl⟩
  · exact ⟨_, _, h, rfl⟩

/-- Attaching breaks a chain in which a drawing that hands children over has another one
behind it. -/
theorem broken_attachAll {d : Drawing} (h : d.HandsOver) (before : Option Nat) (e : Drawing)
    (after : List Drawing) : Broken (attachAll (chainBehind before (d :: e :: after))) := by
  obtain ⟨card, next, previous, lifts, children⟩ := d
  obtain ⟨rfl, hne⟩ : lifts = true ∧ children ≠ [] := h
  let d' := node card (some (sizeOfAll children + 1)) before true children
  have hd : attach d' = node card (some 1) before false [] :: linkFirst children := by
    simp [d', attach, hne]
  have hne' : linkFirst children ≠ [] := by
    rcases children with - | ⟨⟨card, next, previous, lifts, below⟩, rest⟩
    · contradiction
    · simp [linkFirst]
  -- the drawing behind links back over all that was handed over
  let link := if after.isEmpty then none else some e.size
  obtain ⟨e', more, he, hp⟩ :=
    exists_attach_eq_cons (e.withLinks link (some (sizeOfAll children + 1)))
  refine ⟨[], node card (some 1) before false [], linkFirst children, e',
    more ++ attachAll (chainBehind (some e.size) after), ?_, hne', rfl, rfl, ?_⟩
  · have hchain : chainBehind before (node card next previous true children :: e :: after) =
        d' :: e.withLinks link (some (sizeOfAll children + 1)) ::
          chainBehind (some e.size) after := rfl
    rw [hchain, attachAll_cons, attachAll_cons, hd, he]
    simp
  · rw [hp, sizeOfAll_linkFirst, Nat.add_comm 1]
    cases e
    rfl

/-! ## Links between positions -/

variable {entityId : String} {start : Nat} {parent : Option Nat}

/-- The first node of a row stands at its start, with the card and links of its drawing. -/
theorem exists_placed_head (entityId : String) (start : Nat) (parent : Option Nat) (d : Drawing)
    (rest : List Drawing) :
    ∃ n, (n, start) ∈ placed entityId start parent (d :: rest) ∧ n.card = d.card ∧
      n.next = d.next.map (start + ·) ∧ n.previous = d.previous.map (start - ·) := by
  cases d
  rw [placed_cons]
  exact ⟨_, List.mem_cons_self, rfl, rfl, rfl⟩

/-- The node that a link leads to links back. -/
theorem exists_previous_of_next {before : Option Nat} {ds : List Drawing} {n : Node} {i j : Nat}
    (h : LinksForward before ds) (hds : ∀ d ∈ ds, Everywhere (LinksForward none) d)
    (hn : (n, i) ∈ placed entityId start parent ds) (hj : n.next = some j) :
    ∃ m, (m, j) ∈ placed entityId start parent ds ∧ m.previous = some i := by
  induction ds using forest_induction generalizing start parent before with
  | nil => simp at hn
  | cons card next previous lifts children rest ihc ihr =>
      have hd := everywhere_iff.1 (hds _ List.mem_cons_self)
      have hrest := fun e he => hds e (List.mem_cons_of_mem _ he)
      rw [placed_cons] at hn ⊢
      rcases List.mem_cons.1 hn with htop | hn
      · obtain ⟨rfl, rfl⟩ := Prod.mk.inj htop
        obtain ⟨k, hk, rfl⟩ := Option.map_eq_some_iff.1 hj
        obtain rfl : k = sizeOfAll children + 1 := h.2.1 k hk
        have hr := h.2.2
        rcases rest with - | ⟨e, rest⟩
        · exact absurd (hk.symm.trans hr) (by simp)
        obtain ⟨m, hm, -, -, hp⟩ :=
          exists_placed_head entityId (i + (sizeOfAll children + 1)) parent e rest
        refine ⟨m, List.mem_cons_of_mem _ (List.mem_append_right _ hm), ?_⟩
        rw [hp, hr.1 _ hk]
        simp
      rcases List.mem_append.1 hn with hc | hr
      · obtain ⟨m, hm, hp⟩ := ihc hd.1 hd.2 hc
        exact ⟨m, List.mem_cons_of_mem _ (List.mem_append_left _ hm), hp⟩
      · obtain ⟨m, hm, hp⟩ := ihr h.2.2 hrest hr
        exact ⟨m, List.mem_cons_of_mem _ (List.mem_append_right _ hm), hp⟩

/-- A link back is answered in its row, or it leaves the row at the first drawing. -/
theorem exists_next_of_previous {before : Option Nat} {ds : List Drawing} {m : Node} {i j : Nat}
    (hf : LinksForward before ds) (hb : LinksBack before ds)
    (hds : ∀ d ∈ ds, Everywhere LinksBoth d)
    (hm : (m, j) ∈ placed entityId start parent ds) (hi : m.previous = some i) :
    (∃ n, (n, i) ∈ placed entityId start parent ds ∧ n.next = some j) ∨
      j = start ∧ ∃ k, before = some k ∧ i = start - k := by
  induction ds using forest_induction generalizing start parent before with
  | nil => simp at hm
  | cons card next previous lifts children rest ihc ihr =>
      have hd := everywhere_iff.1 (hds _ List.mem_cons_self)
      have hrest := fun e he => hds e (List.mem_cons_of_mem _ he)
      rw [placed_cons] at hm ⊢
      rcases List.mem_cons.1 hm with htop | hm
      · obtain ⟨rfl, rfl⟩ := Prod.mk.inj htop
        obtain ⟨k, hk, rfl⟩ := Option.map_eq_some_iff.1 hi
        exact .inr ⟨rfl, k, hb.1 k hk, rfl⟩
      refine .inl ?_
      rcases List.mem_append.1 hm with hc | hr
      · rcases ihc hd.1.1 hd.1.2 hd.2 hc with ⟨n, hn, hj⟩ | ⟨-, k, hk, -⟩
        · exact ⟨n, List.mem_cons_of_mem _ (List.mem_append_left _ hn), hj⟩
        · contradiction
      · rcases ihr hf.2.2 hb.2 hrest hr with ⟨n, hn, hj⟩ | ⟨rfl, k, hk, rfl⟩
        · exact ⟨n, List.mem_cons_of_mem _ (List.mem_append_right _ hn), hj⟩
        · obtain rfl : k = sizeOfAll children + 1 := hf.2.1 k hk
          obtain rfl : next = some (sizeOfAll children + 1) := hk
          rw [Nat.add_sub_cancel]
          exact ⟨_, List.mem_cons_self, rfl⟩

/-- Where every link back is answered, the row is not broken. -/
theorem not_broken_of_placed {ds : List Drawing}
    (h : ∀ n m i j, (n, i) ∈ placed entityId start parent ds →
      (m, j) ∈ placed entityId start parent ds → m.previous = some i → n.next = some j) :
    ¬ Broken ds := by
  rintro ⟨front, d, mid, e, after, rfl, hne, hsize, hnext, hprev⟩
  have hpos : 0 < sizeOfAll mid := by
    obtain ⟨x, rest, rfl⟩ := List.exists_cons_of_ne_nil hne
    have := size_pos x
    rw [sizeOfAll_cons]
    omega
  obtain ⟨n, hn, -, hn', -⟩ :=
    exists_placed_head entityId (start + sizeOfAll front) parent d (mid ++ e :: after)
  obtain ⟨m, hm, -, -, hm'⟩ := exists_placed_head entityId
    (start + sizeOfAll front + d.size + sizeOfAll mid) parent e after
  have hmem : (m, start + sizeOfAll front + d.size + sizeOfAll mid) ∈
      placed entityId start parent (front ++ d :: (mid ++ e :: after)) := by
    have hsplit : front ++ d :: (mid ++ e :: after) = front ++ (d :: mid) ++ e :: after := by simp
    rw [hsplit, placed_append]
    refine List.mem_append_right _ ?_
    rw [sizeOfAll_append, sizeOfAll_cons, ← Nat.add_assoc, ← Nat.add_assoc]
    exact hm
  have hback : m.previous = some (start + sizeOfAll front) := by
    rw [hm', hprev, hsize, Option.map_some]
    exact congrArg some (by omega)
  have hj := h n m _ _ (by rw [placed_append]; exact List.mem_append_right _ hn) hmem hback
  rw [hn', hnext, Option.map_some, Option.some.injEq] at hj
  omega

/-- Where every link back is answered, the row is intact. -/
theorem intact_of_placed {ds : List Drawing}
    (h : ∀ n m i j, (n, i) ∈ placed entityId start parent ds →
      (m, j) ∈ placed entityId start parent ds → m.previous = some i → n.next = some j) :
    Intact ds := by
  refine ⟨not_broken_of_placed h, everywhereAll_iff.1 ?_⟩
  induction ds using forest_induction generalizing start parent with
  | nil => trivial
  | cons card next previous lifts children rest ihc ihr =>
      rw [placed_cons] at h
      have hc := fun n m i j hn hm => h n m i j
        (List.mem_cons_of_mem _ (List.mem_append_left _ hn))
        (List.mem_cons_of_mem _ (List.mem_append_left _ hm))
      have hr := fun n m i j hn hm => h n m i j
        (List.mem_cons_of_mem _ (List.mem_append_right _ hn))
        (List.mem_cons_of_mem _ (List.mem_append_right _ hm))
      exact ⟨⟨not_broken_of_placed hc, ihc hc⟩, ihr hr⟩

end Drawing

end FlowTree
