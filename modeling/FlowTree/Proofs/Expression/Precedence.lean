import FlowTree.Proofs.Expression.RoundTrip
import Mathlib.Data.List.Perm.Subperm

/-!
# FlowTree.Proofs.Expression.Precedence

Which language a holder is read in, when it has keys of several.

The keys are tried in the order in which their languages were registered, first those
under the wrapper and then those beside it, so that the order of the keys in the holder
plays no part:

* `Languages.FirstIn`, `Expression.Decides` — the first language that an object has a key
  of, and the one that decides how a holder is read;
* `ofHolder_of_decides` — the payload is the one under the key of that language;
* `Fields.get?_perm`, `ofHolder_perm` — a holder with its entries in another order reads
  the same, and `alike_ofHolder` — holders that are alike read alike.

The id is another matter: it is looked up by the key, and a key that several languages
share stands for the one registered last, or for none.

* `byModelName?_of_not_lapsed` — what a model name stands for, told by the registrations;
* `byModelName?_of_unshared` — names that are never shared stand for their languages;
* `ofHolder_ofList` — when the expression that is read is in the language that decides.
-/

namespace FlowTree

/-! ## Fields in another order -/

namespace Fields

variable {α : Type}

/-- What is found under a key does not depend on the order of the fields. -/
theorem get?_perm {fields others : Fields α} (hn : (keys fields).Nodup) (h : fields.Perm others)
    (key : String) : get? key fields = get? key others := by
  have hn' : (keys others).Nodup := (h.map Prod.fst).nodup_iff.1 hn
  refine Option.ext fun value => ?_
  constructor
  · exact fun hv => get?_of_mem hn' (h.mem_iff.1 (mem_of_get? hv))
  · exact fun hv => get?_of_mem hn (h.mem_iff.2 (mem_of_get? hv))

end Fields

/-! ## Model names by registrations -/

namespace Languages

/-- The language registered last under a model name. -/
def lastNamed? (history : List Language) (m : String) : Option Language :=
  history.reverse.find? (·.modelName == m)

theorem lastNamed?_concat (history : List Language) (language : Language) (m : String) :
    lastNamed? (history ++ [language]) m =
      if language.modelName = m then some language else lastNamed? history m := by
  rw [lastNamed?, lastNamed?, List.reverse_append, List.reverse_singleton, List.singleton_append]
  by_cases hm : language.modelName = m <;> simp [hm]

/-- A lapsed name stands for none. -/
theorem byModelName?_of_lapsed {history : List Language} {m : String} (h : Lapsed history m) :
    (ofList history).byModelName? m = none := by
  rw [← Option.not_isSome_iff_eq_none, isSome_byModelName?_iff]
  exact fun hs => hs.2 h

/-- A name that has not lapsed stands for the language registered last under it. -/
theorem byModelName?_of_not_lapsed {history : List Language} {m : String}
    (h : ¬ Lapsed history m) : (ofList history).byModelName? m = lastNamed? history m := by
  induction history using List.reverseRecOn with
  | nil => rfl
  | append_singleton history language ih =>
      rw [lapsed_concat, not_or, Bool.not_eq_true] at h
      obtain ⟨hr, hl⟩ := h
      rw [ofList_concat, lastNamed?_concat]
      by_cases hm : language.modelName = m
      · rw [if_pos hm]
        exact byModelName?_register_of_eq _ hm
      · rw [if_neg hm, byModelName?_register_of_ne hm hr]
        exact ih fun hlapsed => hl ⟨hm, hlapsed⟩

/-- Where no two ids ever share a model name, every listed language is found under its own. -/
theorem byModelName?_of_unshared {history : List Language}
    (h : ∀ a ∈ history, ∀ b ∈ history, a.modelName = b.modelName → a.id = b.id) :
    ∀ l ∈ (ofList history).list,
      l ∈ history ∧ (ofList history).byModelName? l.modelName = some l := by
  induction history using List.reverseRecOn with
  | nil => simp [ofList, empty, LanguageTable.empty]
  | append_singleton history language ih =>
      have ih := ih fun a ha b hb => h a (List.mem_append_left _ ha) b (List.mem_append_left _ hb)
      rw [ofList_concat]
      intro l hl
      have hg := get?_of_mem hl
      rw [get?_register] at hg
      split at hg
      · obtain rfl : language = l := Option.some.inj hg
        exact ⟨by simp, byModelName?_register_of_eq _ rfl⟩
      · rename_i hid
        obtain ⟨hmem, hfound⟩ := ih l (mem_of_get? hg)
        have hm : language.modelName ≠ l.modelName := fun hm =>
          hid (h language (by simp) l (List.mem_append_left _ hmem) hm)
        have hr : (ofList history).releases language l.modelName = false := by
          rw [Bool.eq_false_iff]
          intro hr
          obtain ⟨-, former, hformer, hfm⟩ := releases_iff.1 hr
          have hf := (ih former (mem_of_get? hformer)).2
          rw [hfm, hfound] at hf
          obtain rfl : l = former := Option.some.inj hf
          exact hid (id_of_get? hformer).symm
        refine ⟨List.mem_append_left _ hmem, ?_⟩
        rw [byModelName?_register_of_ne hm hr]
        exact hfound

/-- A language of a list is the first that an object has a key of, with the value that is
under its key. -/
def FirstIn (list : List Language) (fields : Fields Json) (l : Language) (value : Json) : Prop :=
  ∃ before after, list = before ++ l :: after ∧
    (∀ other ∈ before, fields.get? other.modelName = none) ∧
    fields.get? l.modelName = some value

theorem FirstIn.mem {list : List Language} {fields : Fields Json} {l : Language} {value : Json}
    (h : FirstIn list fields l value) : l ∈ list := by
  obtain ⟨before, after, rfl, -⟩ := h
  simp

end Languages

namespace Expression

open FlowTree.Languages

/-! ## The language that decides -/

/-- The key that is taken is the one of the first language that an object has a key of. -/
theorem firstNamed_eq_some_iff {fields : Fields Json} {list : List Language}
    {found : String × Json} :
    firstNamed fields list = some found ↔
      ∃ l, FirstIn list fields l found.2 ∧ l.modelName = found.1 := by
  constructor
  · intro h
    induction list with
    | nil => contradiction
    | cons head rest ih =>
        rw [firstNamed] at h
        split at h
        · rename_i value hv
          rw [← Option.some.inj h]
          exact ⟨head, ⟨[], rest, rfl, by simp, hv⟩, rfl⟩
        · rename_i hn
          obtain ⟨l, ⟨before, after, rfl, hb, hv⟩, hm⟩ := ih h
          exact ⟨l, ⟨head :: before, after, rfl, List.forall_mem_cons.2 ⟨hn, hb⟩, hv⟩, hm⟩
  · rintro ⟨l, ⟨before, after, rfl, hb, hv⟩, hm⟩
    induction before with
    | nil => rw [List.nil_append, firstNamed, hv, hm]
    | cons head rest ih =>
        obtain ⟨hhead, hrest⟩ := List.forall_mem_cons.1 hb
        rw [List.cons_append, firstNamed, hhead]
        exact ih hrest

/-- A language decides how an object is read: it is the first with a key under the wrapper
or, when none has one there, the first with a key beside it. -/
def Decides (languages : Languages) (fields : Fields Json) (l : Language) (value : Json) : Prop :=
  FirstIn languages.list (wrapped fields) l value ∨
    (∀ other ∈ languages.list, (wrapped fields).get? other.modelName = none) ∧
      FirstIn languages.list fields l value

theorem Decides.mem {languages : Languages} {fields : Fields Json} {l : Language} {value : Json}
    (h : Decides languages fields l value) : l ∈ languages.list := by
  rcases h with hw | ⟨-, hb⟩
  · exact hw.mem
  · exact hb.mem

/-- What is read is under the key of the language that decides. -/
theorem ofHolder_of_decides {languages : Languages} {fields : Fields Json} {l : Language}
    {value : Json} (h : Decides languages fields l value) :
    ofHolder languages (.obj fields) = ofNamed languages l.modelName value := by
  rw [ofHolder]
  rcases h with hw | ⟨hn, hb⟩
  · have hf : firstNamed (wrapped fields) languages.list = some (l.modelName, value) :=
      firstNamed_eq_some_iff.2 ⟨l, hw, rfl⟩
    rw [hf, Option.some_or]
  · have hf : firstNamed fields languages.list = some (l.modelName, value) :=
      firstNamed_eq_some_iff.2 ⟨l, hb, rfl⟩
    rw [firstNamed_eq_none_iff.2 hn, hf, Option.none_or]

/-- Nothing is read where no language decides. -/
theorem ofHolder_eq_empty {languages : Languages} {fields : Fields Json}
    (h : ∀ l value, ¬ Decides languages fields l value) :
    ofHolder languages (.obj fields) = empty := by
  have hw : firstNamed (wrapped fields) languages.list = none := by
    refine Option.eq_none_iff_forall_ne_some.2 fun found hf => ?_
    obtain ⟨l, hl, -⟩ := firstNamed_eq_some_iff.1 hf
    exact h l found.2 (.inl hl)
  have hb : firstNamed fields languages.list = none := by
    refine Option.eq_none_iff_forall_ne_some.2 fun found hf => ?_
    obtain ⟨l, hl, -⟩ := firstNamed_eq_some_iff.1 hf
    exact h l found.2 (.inr ⟨firstNamed_eq_none_iff.1 hw, hl⟩)
  simp only [ofHolder, hw, hb, Option.none_or]

/-- The id that is read is that of the language that decides exactly when this language was
registered last under its model name or, after the name has lapsed, when the name is the id. -/
theorem language_of_decides {history : List Language} {fields : Fields Json} {l : Language}
    {value : Json} (h : Decides (ofList history) fields l value) :
    (ofHolder (ofList history) (.obj fields)).language = some l.id ↔
      (¬ Lapsed history l.modelName ∧ lastNamed? history l.modelName = some l) ∨
        (Lapsed history l.modelName ∧ l.modelName = l.id) := by
  rw [ofHolder_of_decides h, ofNamed, of]
  by_cases hlapsed : Lapsed history l.modelName
  · simp [hlapsed, byModelName?_of_lapsed hlapsed]
  · have hsome := (isSome_byModelName?_iff history l.modelName).2 ⟨⟨l, h.mem, rfl⟩, hlapsed⟩
    obtain ⟨last, hlast⟩ := Option.isSome_iff_exists.1 hsome
    have hid : last.id = l.id ↔ last = l := by
      constructor
      · intro hid
        -- ids are distinct, so that the last one under the name is the listed one
        have hg := get?_of_mem (mem_of_byModelName? hlast).1
        rw [hid, get?_of_mem h.mem] at hg
        exact (Option.some.inj hg).symm
      · rintro rfl
        rfl
    rw [← byModelName?_of_not_lapsed hlapsed, hlast]
    simp [hlapsed, hid]

/-! ## Holders that are alike -/

/-- Two objects have alike values under every key. -/
def Matching (first second : Fields Json) : Prop :=
  ∀ key, Option.Rel (fun x y => x.alike y = true) (first.get? key) (second.get? key)

/-- An object that is alike has the keys of the other. -/
theorem get?_of_alikeWithin {first second : Fields Json} {key : String} {x : Json}
    (h : Json.alikeWithin first second = true) (hx : first.get? key = some x) :
    ∃ y, second.get? key = some y ∧ x.alike y = true := by
  induction first with
  | nil => contradiction
  | cons head rest ih =>
      obtain ⟨k, v⟩ := head
      rw [Json.alikeWithin, Bool.and_eq_true] at h
      rw [Fields.get?_cons] at hx
      split at hx
      · rename_i hk
        obtain rfl : v = x := Option.some.inj hx
        rw [hk] at h
        cases hy : second.get? key with
        | none => simp [hy] at h
        | some y => exact ⟨y, rfl, by simpa [hy] using h.1⟩
      · exact ih h.2 hx

/-- Objects of distinct keys that are alike match: as many keys as the other has are all
of its keys. -/
theorem matching_of_alike {first second : Fields Json} (hn : (Fields.keys first).Nodup)
    (h : (Json.obj first).alike (.obj second) = true) : Matching first second := by
  rw [Json.alike, Bool.and_eq_true, beq_iff_eq] at h
  obtain ⟨hlen, hwithin⟩ := h
  have hsub : Fields.keys first ⊆ Fields.keys second := by
    intro key hkey
    obtain ⟨⟨k, x⟩, hmem, rfl⟩ := List.mem_map.1 hkey
    obtain ⟨y, hy, -⟩ := get?_of_alikeWithin hwithin (Fields.get?_of_mem hn hmem)
    exact Fields.mem_keys_of_get? hy
  have hperm : (Fields.keys first).Perm (Fields.keys second) :=
    (hn.subperm hsub).perm_of_length_le (by simp [Fields.keys, hlen])
  intro key
  cases hx : first.get? key with
  | some x =>
      obtain ⟨y, hy, halike⟩ := get?_of_alikeWithin hwithin hx
      rw [hy]
      exact .some halike
  | none =>
      cases hy : second.get? key with
      | none => exact .none
      | some y =>
          obtain ⟨⟨k, x⟩, hmem, rfl⟩ :=
            List.mem_map.1 (hperm.mem_iff.2 (Fields.mem_keys_of_get? hy))
          rw [Fields.get?_of_mem hn hmem] at hx
          contradiction

/-- Objects that match have matching objects under the wrapper. -/
theorem matching_wrapped {first second : Fields Json} (h : Matching first second)
    (hn : (Fields.keys (wrapped first)).Nodup) : Matching (wrapped first) (wrapped second) := by
  have hkey := h wrapperKey
  unfold wrapped at hn ⊢
  generalize first.get? wrapperKey = x at hkey hn ⊢
  generalize second.get? wrapperKey = y at hkey ⊢
  cases hkey with
  | none => exact fun _ => .none
  | @some x y halike =>
      cases x <;> cases y
      case obj.obj => exact matching_of_alike hn halike
      all_goals first | exact fun _ => .none | simp [Json.alike] at halike

/-- In objects that match the same key is taken, and what it has is alike. -/
theorem firstNamed_of_matching {first second : Fields Json} (h : Matching first second)
    (list : List Language) :
    Option.Rel (fun a b => a.1 = b.1 ∧ a.2.alike b.2 = true)
      (firstNamed first list) (firstNamed second list) := by
  induction list with
  | nil => exact .none
  | cons l rest ih =>
      have hkey := h l.modelName
      rw [firstNamed, firstNamed]
      generalize first.get? l.modelName = x at hkey ⊢
      generalize second.get? l.modelName = y at hkey ⊢
      cases hkey with
      | none => exact ih
      | some halike => exact .some ⟨rfl, halike⟩

theorem alike_payload {x y : Json} (h : x.alike y = true) :
    (payload x).alike (payload y) = true := by
  cases x <;> cases y <;>
    simp_all [payload, Json.alike, Json.alikeWithin, Fields.get?_cons]

/-- Holders of distinct keys that are alike are read alike. -/
theorem alike_ofHolder {first second : Fields Json} (hn : (Fields.keys first).Nodup)
    (hw : (Fields.keys (wrapped first)).Nodup)
    (h : (Json.obj first).alike (.obj second) = true) (languages : Languages) :
    (ofHolder languages (.obj first)).alike (ofHolder languages (.obj second)) = true := by
  have hmatch := matching_of_alike hn h
  have hinner := firstNamed_of_matching (matching_wrapped hmatch hw) languages.list
  have houter := firstNamed_of_matching hmatch languages.list
  rw [ofHolder, ofHolder]
  generalize firstNamed (wrapped first) languages.list = inner at hinner ⊢
  generalize firstNamed (wrapped second) languages.list = inner' at hinner ⊢
  generalize firstNamed first languages.list = outer at houter ⊢
  generalize firstNamed second languages.list = outer' at houter ⊢
  cases hinner with
  | some hfound =>
      simp [ofNamed, of, Expression.alike, hfound.1, alike_payload hfound.2]
  | none =>
      cases houter with
      | some hfound =>
          simp [ofNamed, of, Expression.alike, hfound.1, alike_payload hfound.2]
      | none => rfl

/-- The order of the keys of a holder plays no part. -/
theorem ofHolder_perm {first second : Fields Json} (hn : (Fields.keys first).Nodup)
    (h : first.Perm second) (languages : Languages) :
    ofHolder languages (.obj first) = ofHolder languages (.obj second) := by
  have hget := Fields.get?_perm hn h
  have hnamed : ∀ list, firstNamed first list = firstNamed second list := by
    intro list
    induction list with
    | nil => rfl
    | cons l rest ih => rw [firstNamed, firstNamed, hget, ih]
  rw [ofHolder, ofHolder, wrapped, wrapped, hget, hnamed]

/-- **Precedence of languages.** After any row of registrations,

* what is read is the payload of the language that decides, and nothing when none does;
* it is read in that language exactly when the language was registered last under its model
  name or, after the name has lapsed, when the name is the id;
* this is so whenever no two ids are ever registered under one model name;
* holders whose keys are in another order are read the same, and holders that are alike are
  read alike. -/
theorem ofHolder_ofList (history : List Language) (fields : Fields Json) :
    (∀ l value, Decides (ofList history) fields l value →
      (ofHolder (ofList history) (.obj fields)).model = some (payload value) ∧
      ((ofHolder (ofList history) (.obj fields)).language = some l.id ↔
        (¬ Lapsed history l.modelName ∧ lastNamed? history l.modelName = some l) ∨
          (Lapsed history l.modelName ∧ l.modelName = l.id)) ∧
      ((∀ a ∈ history, ∀ b ∈ history, a.modelName = b.modelName → a.id = b.id) →
        ofHolder (ofList history) (.obj fields) = of l.id value)) ∧
    ((∀ l value, ¬ Decides (ofList history) fields l value) →
      ofHolder (ofList history) (.obj fields) = empty) ∧
    ((Fields.keys fields).Nodup →
      (∀ others : Fields Json, fields.Perm others →
        ofHolder (ofList history) (.obj fields) = ofHolder (ofList history) (.obj others)) ∧
      ((Fields.keys (wrapped fields)).Nodup →
        ∀ others : Fields Json, (Json.obj fields).alike (.obj others) = true →
          (ofHolder (ofList history) (.obj fields)).alike
            (ofHolder (ofList history) (.obj others)) = true)) := by
  refine ⟨fun l value h => ⟨?_, language_of_decides h, fun hunshared => ?_⟩, ofHolder_eq_empty,
    fun hn => ⟨fun others h => ofHolder_perm hn h _, fun hw others h => alike_ofHolder hn hw h _⟩⟩
  · rw [ofHolder_of_decides h]
    rfl
  · rw [ofHolder_of_decides h, ofNamed, (byModelName?_of_unshared hunshared l h.mem).2]
    rfl

/-- The language that was registered first is read though the other one has the first keys,
and the wrapper goes before what stands beside it; without a registered key nothing is read. -/
theorem ofHolder_ofList_wrapper :
    let history : List Language := [.ofId "jq" "JQ", .ofId "simple" "Simple"]
    let inner : Fields Json := [("simple", .str "a"), ("jq", .str "b")]
    let fields : Fields Json := [("simple", .null), ("jq", .null), ("expression", .obj inner)]
    let turned : Fields Json :=
      [("expression", .obj inner.reverse), ("jq", .null), ("simple", .null)]
    let read := ofHolder (ofList history) (.obj fields)
    read = of "jq" (.str "b") ∧
      ofHolder (ofList history) (.obj fields.reverse) = read ∧
      read.alike (ofHolder (ofList history) (.obj turned)) = true ∧
      ofHolder (ofList history) (.obj [("xpath", .str "c")]) = empty := by
  intro history inner fields turned read
  obtain ⟨hdecides, -, horder⟩ := ofHolder_ofList history fields
  have hdecided : Decides (ofList history) fields (.ofId "jq" "JQ") (.str "b") :=
    .inl ⟨[], [.ofId "simple" "Simple"], by decide +kernel, by simp, by decide +kernel⟩
  have hunshared : ∀ a ∈ history, ∀ b ∈ history, a.modelName = b.modelName → a.id = b.id := by
    decide +kernel
  obtain ⟨hperm, halike⟩ := horder (by decide +kernel)
  refine ⟨(hdecides _ _ hdecided).2.2 hunshared, (hperm _ fields.reverse_perm.symm).symm,
    halike (by decide +kernel) turned (by decide +kernel),
    (ofHolder_ofList history [("xpath", .str "c")]).2.1 ?_⟩
  intro l value h
  have hkeys : ∀ l ∈ (ofList history).list, l.modelName ≠ "xpath" := by decide +kernel
  rcases h with ⟨before, after, hlist, -, hv⟩ | ⟨-, before, after, hlist, -, hv⟩
  · simp [wrapped, Fields.get?_cons, wrapperKey] at hv
  · have hl := hkeys l (by simp [hlist])
    simp [Fields.get?_cons, hl.symm] at hv

/-- With a model name of two languages, the language that decides is not the one that the
expression is read in. -/
theorem not_ofHolder_of_decides :
    ¬ ∀ (history : List Language) (fields : Fields Json) (l : Language) (value : Json),
      (∀ r ∈ history, r.id ≠ "" ∧ r.modelName ≠ "") → (Fields.keys fields).Nodup →
      Decides (ofList history) fields l value →
      ofHolder (ofList history) (.obj fields) = of l.id value := by
  intro h
  let first : Language := ⟨"first", "shared", "First", none⟩
  let second : Language := ⟨"second", "shared", "Second", none⟩
  have hdecided : Decides (ofList [first, second]) [("shared", .str "x")] first (.str "x") :=
    .inr ⟨by decide +kernel, [], [second], by decide +kernel, by simp, by decide +kernel⟩
  have hread := h [first, second] [("shared", .str "x")] first (.str "x") (by decide +kernel)
    (by decide +kernel) hdecided
  revert hread
  decide +kernel

end Expression

end FlowTree
