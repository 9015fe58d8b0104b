import FlowTree.Expression.Language
import Mathlib.Data.List.Induction

/-!
# FlowTree.Proofs.Expression.Registry

What a registry knows of ids and model names after any row of registrations.

A registration claims the model name of its language, and releases the one that the
former language of its id had.  What it does to the registry is told by an equation
for each of the two lookups:

* `get?_register` — the language of every id;
* `byModelName?_register_of_eq` and its likes — the language of every model name,
  claimed, released or neither.

The indices only ever lead to listed languages under their own ids and names.  That of
ids leads to every one, but that of names need not: a name that two languages share is
released with the first that gives it up, and then stands for none although the other is
listed (`Lapsed`).  `byModelName?_ofList` says that there is no other way to lose a name.
-/

namespace FlowTree

namespace Languages

variable {ls : Languages} {language l : Language} {id m : String}

/-! ## Languages by id -/

theorem get?_eq_some_iff : ls.get? id = some l ↔ l ∈ ls.list ∧ l.id = id := by
  rw [get?, Option.bind_eq_some_iff]
  constructor
  · rintro ⟨slot, hid, hl⟩
    obtain ⟨l', hl', hid'⟩ := (ls.indexed.byId_iff id slot).1 hid
    obtain rfl := Option.some.inj (hl'.symm.trans hl)
    exact ⟨List.mem_of_getElem? hl, hid'⟩
  · rintro ⟨hmem, hid⟩
    obtain ⟨slot, hl⟩ := List.mem_iff_getElem?.1 hmem
    exact ⟨slot, (ls.indexed.byId_iff id slot).2 ⟨l, hl, hid⟩, hl⟩

theorem id_of_get? (h : ls.get? id = some l) : l.id = id := (get?_eq_some_iff.1 h).2

theorem mem_of_get? (h : ls.get? id = some l) : l ∈ ls.list := (get?_eq_some_iff.1 h).1

/-- Every listed language is found. -/
theorem get?_of_mem (h : l ∈ ls.list) : ls.get? l.id = some l := get?_eq_some_iff.2 ⟨h, rfl⟩

/-- A registered language is found under its id; the other ids keep theirs. -/
theorem get?_register (ls : Languages) (language : Language) (id : String) :
    (ls.register language).get? id = if language.id = id then some language else ls.get? id := by
  have hlist := ls.indexed.getElem?_register language
  simp only [get?, register, LanguageTable.byId_register, hlist]
  split
  · simp
  · rename_i hid
    refine Option.bind_congr fun slot hslot => ?_
    obtain ⟨l, hl, rfl⟩ := (ls.indexed.byId_iff id slot).1 hslot
    exact if_neg fun heq => hid ((ls.indexed.eq_slot_iff hl _).1 heq).symm

/-! ## Languages by model name -/

/-- Whether a registration takes a model name from the language of its id. -/
def releases (ls : Languages) (language : Language) (m : String) : Bool :=
  language.modelName ≠ m && (ls.get? language.id).any (·.modelName == m)

theorem releases_iff :
    ls.releases language m = true ↔
      language.modelName ≠ m ∧
        ∃ former, ls.get? language.id = some former ∧ former.modelName = m := by
  simp [releases, Option.any_eq_true]

/-- A language whose model name a registration neither claims nor releases stays. -/
theorem get?_register_of_not_releases (hm : language.modelName ≠ l.modelName)
    (hr : ls.releases language l.modelName = false) (hl : ls.get? id = some l) :
    (ls.register language).get? id = some l := by
  have hi : language.id ≠ id := fun hi => by
    have ht : ls.releases language l.modelName = true := releases_iff.2 ⟨hm, l, hi ▸ hl, rfl⟩
    rw [hr] at ht
    contradiction
  rw [get?_register, if_neg hi]
  exact hl

/-- A model name leads to a listed language that has it. -/
theorem mem_of_byModelName? (h : ls.byModelName? m = some l) : l ∈ ls.list ∧ l.modelName = m := by
  obtain ⟨slot, hslot, hl⟩ := Option.bind_eq_some_iff.1 h
  obtain ⟨l', hl', hm⟩ := ls.indexed.owner m slot hslot
  obtain rfl := Option.some.inj (hl'.symm.trans hl)
  exact ⟨List.mem_of_getElem? hl, hm⟩

/-- A claimed name stands for the language that claims it. -/
theorem byModelName?_register_of_eq (ls : Languages) (h : language.modelName = m) :
    (ls.register language).byModelName? m = some language := by
  simp only [byModelName?, register, LanguageTable.byModelName_register,
    ls.indexed.getElem?_register language, if_pos h, Option.bind_some, if_true]

/-- A released name stands for none. -/
theorem byModelName?_register_of_releases (h : ls.releases language m = true) :
    (ls.register language).byModelName? m = none := by
  obtain ⟨hm, former, hformer, hf⟩ := releases_iff.1 h
  rw [get?] at hformer
  simp [byModelName?, register, LanguageTable.byModelName_register, hm, hformer, hf]

/-- Every other name stands for what it stood for. -/
theorem byModelName?_register_of_ne (hm : language.modelName ≠ m)
    (hr : ls.releases language m = false) :
    (ls.register language).byModelName? m = ls.byModelName? m := by
  have hkept : ((ls.byId.get? language.id).bind (ls.list[·]?)).any (·.modelName == m) = false := by
    simpa [releases, hm, get?] using hr
  simp only [byModelName?, register, LanguageTable.byModelName_register, if_neg hm, hkept,
    ls.indexed.getElem?_register language]
  refine Option.bind_congr fun slot hslot => if_neg fun heq => ?_
  -- the language that the name leads to is not the one of the id
  obtain ⟨l, hl, rfl⟩ := ls.indexed.owner m slot hslot
  have hid := (ls.indexed.eq_slot_iff hl language.id).1 heq
  have hfound : ls.get? language.id = some l := hid ▸ get?_of_mem (List.mem_of_getElem? hl)
  rw [releases_iff.2 ⟨hm, l, hfound, rfl⟩] at hr
  contradiction

/-- A name that is neither claimed nor released is listed as it was. -/
theorem exists_modelName_register (hm : language.modelName ≠ m)
    (hr : ls.releases language m = false) :
    (∃ l ∈ (ls.register language).list, l.modelName = m) ↔ ∃ l ∈ ls.list, l.modelName = m := by
  constructor
  · rintro ⟨l, hl, hlm⟩
    have hg := get?_of_mem hl
    rw [get?_register] at hg
    split at hg
    · rw [← Option.some.inj hg] at hlm
      contradiction
    · exact ⟨l, mem_of_get? hg, hlm⟩
  · rintro ⟨l, hl, rfl⟩
    exact ⟨l, mem_of_get? (get?_register_of_not_releases hm hr (get?_of_mem hl)), rfl⟩

/-! ## Rows of registrations -/

theorem ofList_concat (history : List Language) (language : Language) :
    ofList (history ++ [language]) = (ofList history).register language := by
  simp [ofList]

/-- A row of registrations in which one has released a model name and none after it
has claimed the name. -/
def Lapsed (history : List Language) (m : String) : Prop :=
  ∃ before language after, history = before ++ language :: after ∧
    (ofList before).releases language m = true ∧ ∀ later ∈ after, later.modelName ≠ m

/-- A name lapses with a registration that releases it, or has lapsed before. -/
theorem lapsed_concat {history : List Language} {language : Language} {m : String} :
    Lapsed (history ++ [language]) m ↔
      (ofList history).releases language m = true ∨
        language.modelName ≠ m ∧ Lapsed history m := by
  constructor
  · rintro ⟨before, released, after, he, hr, ha⟩
    rcases List.eq_nil_or_concat after with rfl | ⟨front, last, rfl⟩
    · obtain ⟨rfl, hl⟩ := List.append_inj' he rfl
      obtain rfl : language = released := by simpa using hl
      exact .inl hr
    · rw [List.concat_eq_append] at he ha
      rw [← List.cons_append, ← List.append_assoc] at he
      obtain ⟨rfl, hl⟩ := List.append_inj' he rfl
      obtain rfl : language = last := by simpa using hl
      exact .inr ⟨ha language (by simp), before, released, front, rfl, hr,
        fun later hlater => ha later (by simp [hlater])⟩
  · rintro (hr | ⟨hm, before, released, after, rfl, hr, ha⟩)
    · exact ⟨history, language, [], rfl, hr, by simp⟩
    · refine ⟨before, released, after ++ [language], by simp, hr, fun later hlater => ?_⟩
      rcases List.mem_append.1 hlater with hlater | hlater
      · exact ha later hlater
      · rw [List.mem_singleton.1 hlater]
        exact hm

/-- A model name is found when a listed language has it and it has not lapsed. -/
theorem isSome_byModelName?_iff (history : List Language) (m : String) :
    ((ofList history).byModelName? m).isSome = true ↔
      (∃ l ∈ (ofList history).list, l.modelName = m) ∧ ¬ Lapsed history m := by
  induction history using List.reverseRecOn with
  | nil => simp [ofList, empty, LanguageTable.empty, byModelName?]
  | append_singleton history language ih =>
      rw [ofList_concat, lapsed_concat]
      by_cases hm : language.modelName = m
      · -- claimed: it stands for the language just registered
        have hl := byModelName?_register_of_eq (ofList history) hm
        have hmem := (mem_of_byModelName? hl).1
        have hlisted : ∃ l ∈ ((ofList history).register language).list, l.modelName = m :=
          ⟨language, hmem, hm⟩
        simp [hl, hm, releases, hlisted]
      · cases hr : (ofList history).releases language m with
        | true =>
            -- released: it stands for none, whatever else is listed
            simp [byModelName?_register_of_releases hr]
        | false =>
            rw [byModelName?_register_of_ne hm hr, exists_modelName_register hm hr, ih]
            simp [hm]

/-- **The index of model names.** After any row of registrations a model name leads
to a listed language that has it, and it leads to one exactly when a listed language
has it and the name has not lapsed. -/
theorem byModelName?_ofList (history : List Language) (m : String) :
    (∀ l, (ofList history).byModelName? m = some l →
      l ∈ (ofList history).list ∧ l.modelName = m) ∧
    (((ofList history).byModelName? m).isSome = true ↔
      (∃ l ∈ (ofList history).list, l.modelName = m) ∧ ¬ Lapsed history m) :=
  ⟨fun _ => mem_of_byModelName?, isSome_byModelName?_iff history m⟩

/-- A name that lapsed with the first of its two languages is found again once a third
one claims it. -/
theorem byModelName?_ofList_reclaimed :
    let first : Language := ⟨"first", "shared", "First", none⟩
    let second : Language := ⟨"second", "shared", "Second", none⟩
    let third : Language := ⟨"third", "shared", "Third", none⟩
    let lapsed := [first, second, { first with modelName := "own" }]
    let history := lapsed ++ [third]
    (ofList lapsed).byModelName? "shared" = none ∧ Lapsed lapsed "shared" ∧
      (ofList history).byModelName? "shared" = some third ∧
      (third ∈ (ofList history).list ∧ third.modelName = "shared") ∧
      ¬ Lapsed history "shared" := by
  intro first second third lapsed history
  have hn : (ofList lapsed).byModelName? "shared" = none := by decide +kernel
  have hs : (ofList history).byModelName? "shared" = some third := by decide +kernel
  have hl : ∃ l ∈ (ofList lapsed).list, l.modelName = "shared" :=
    ⟨second, by decide +kernel, rfl⟩
  refine ⟨hn, ?_, hs, (byModelName?_ofList history "shared").1 third hs,
    ((byModelName?_ofList history "shared").2.1 (by rw [hs]; rfl)).2⟩
  by_contra hlapsed
  have hsome := (byModelName?_ofList lapsed "shared").2.2 ⟨hl, hlapsed⟩
  rw [hn] at hsome
  contradiction

/-- A listed model name is lost when another language that had it takes a new one. -/
theorem not_isSome_byModelName?_of_listed :
    ¬ ∀ (history : List Language) (m : String),
      (((ofList history).byModelName? m).isSome = true ↔
        ∃ l ∈ (ofList history).list, l.modelName = m) ∧
      ∀ l, (ofList history).byModelName? m = some l →
        l ∈ (ofList history).list ∧ l.modelName = m := by
  intro h
  let second : Language := ⟨"second", "shared", "Second", none⟩
  have hiff := (h [⟨"first", "shared", "First", none⟩, second, ⟨"first", "own", "First", none⟩]
    "shared").1
  have hsome := hiff.2 ⟨second, by decide +kernel, rfl⟩
  revert hsome
  decide +kernel

end Languages

end FlowTree
