import FlowTree.Json.Fields

/-!
# FlowTree.Expression.Language

Expression languages and their registry.

A language has an id, by which the editor knows it, and a model name, the key it
has inside a document.  The registry keeps languages in the order in which their
ids were first registered; that order decides between languages that are present
at once.  A second language of one id takes the place of the first.

Ids and model names lead to places in the list.  `LanguageTable.Indexed` says that
they lead to languages that have them, and a registry is a table of which this holds.

* `LanguageTable.register` — adds or replaces a language, and keeps the indices in
  step (`LanguageTable.Indexed.register`);
* `Languages.get?` — the language of an id;
* `Languages.byModelName?` — the language that a model name stands for: the one
  that claimed the name last.  When that language takes another name, or the
  former holder of a shared name does, the name stands for none.
-/

namespace FlowTree

/-- An expression language. -/
structure Language where
  id : String
  modelName : String
  title : String
  description : Option String
  deriving DecidableEq, Repr

/-- A language whose model name is its id. -/
def Language.ofId (id title : String) : Language := ⟨id, id, title, none⟩

/-! ## Tables -/

/-- Languages in order, and the places in the list that ids and model names lead to. -/
structure LanguageTable where
  list : List Language
  byId : Fields Nat
  byModelName : Fields Nat
  deriving DecidableEq, Repr

namespace LanguageTable

/-- The table without languages. -/
def empty : LanguageTable := ⟨[], [], []⟩

/-- Model names without that of the language at a place. -/
def withoutNameAt (t : LanguageTable) (slot : Nat) : Fields Nat :=
  match t.list[slot]? with
  | some former => t.byModelName.drop former.modelName
  | none => t.byModelName

/-- Adds a language behind the others, or puts it in the place of the one of its id,
whose model name is given up. -/
def register (t : LanguageTable) (language : Language) : LanguageTable :=
  match t.byId.get? language.id with
  | some slot =>
    { t with
      list := t.list.set slot language
      byModelName := (t.withoutNameAt slot).put language.modelName slot }
  | none =>
    { list := t.list ++ [language]
      byId := t.byId.put language.id t.list.length
      byModelName := t.byModelName.put language.modelName t.list.length }

/-- The indices are in step with the list. -/
structure Indexed (t : LanguageTable) : Prop where
  /-- An id leads to the one place where a language has it. -/
  byId_iff : ∀ id slot, t.byId.get? id = some slot ↔ ∃ l, t.list[slot]? = some l ∧ l.id = id
  /-- A model name leads to a language that has it. -/
  owner : ∀ m slot, t.byModelName.get? m = some slot →
    ∃ l, t.list[slot]? = some l ∧ l.modelName = m

theorem indexed_empty : empty.Indexed := ⟨by simp [empty], by simp [empty]⟩

/-- The place that a language with an id takes. -/
def slot (t : LanguageTable) (id : String) : Nat := (t.byId.get? id).getD t.list.length

variable {t : LanguageTable}

/-- The languages at other places have other ids. -/
theorem Indexed.eq_slot_iff (h : t.Indexed) {k : Nat} {l : Language} (hl : t.list[k]? = some l)
    (id : String) : k = t.slot id ↔ l.id = id := by
  constructor
  · rintro rfl
    unfold slot at hl
    cases hid : t.byId.get? id with
    | some slot =>
        obtain ⟨l', hl', hid'⟩ := (h.byId_iff id slot).1 hid
        rw [hid, Option.getD_some, hl'] at hl
        exact Option.some.inj hl ▸ hid'
    | none => simp [hid] at hl
  · rintro rfl
    rw [slot, (h.byId_iff l.id k).2 ⟨l, hl, rfl⟩]
    rfl

/-- A language stands at its place after it is registered; the others stay. -/
theorem Indexed.getElem?_register (h : t.Indexed) (language : Language) (k : Nat) :
    (t.register language).list[k]? =
      if k = t.slot language.id then some language else t.list[k]? := by
  unfold register slot
  cases hid : t.byId.get? language.id with
  | some slot =>
      obtain ⟨l, hl, -⟩ := (h.byId_iff _ slot).1 hid
      have hlt : slot < t.list.length := (List.getElem?_eq_some_iff.1 hl).1
      by_cases hk : k = slot
      · simp [hk, hlt]
      · simp [hk, Ne.symm hk]
  | none =>
      by_cases hk : k = t.list.length
      · simp [hk]
      · rw [Option.getD_none, if_neg hk, List.getElem?_append]
        split
        · rfl
        · rw [List.getElem?_eq_none (by simp; omega), List.getElem?_eq_none (by omega)]

/-- Its id leads there, and other ids where they did. -/
theorem byId_register (t : LanguageTable) (language : Language) (id : String) :
    (t.register language).byId.get? id =
      if language.id = id then some (t.slot language.id) else t.byId.get? id := by
  unfold register slot
  by_cases heq : language.id = id
  · subst heq
    cases hid : t.byId.get? language.id <;> simp [hid]
  · cases hid : t.byId.get? language.id <;> simp [heq, Fields.get?_put_of_ne]

theorem get?_withoutNameAt (t : LanguageTable) (slot : Nat) (m : String) :
    (t.withoutNameAt slot).get? m =
      if (t.list[slot]?).any (·.modelName == m) then none else t.byModelName.get? m := by
  unfold withoutNameAt
  split
  · rename_i former hformer
    by_cases hm : former.modelName = m
    · simp [hformer, hm]
    · simp [hformer, hm, Fields.get?_drop_of_ne hm]
  · rename_i hnone
    simp [hnone]

/-- So does its model name; that of the language that stood there leads nowhere. -/
theorem byModelName_register (t : LanguageTable) (language : Language) (m : String) :
    (t.register language).byModelName.get? m =
      if language.modelName = m then some (t.slot language.id)
      else if ((t.byId.get? language.id).bind (t.list[·]?)).any (·.modelName == m) then none
      else t.byModelName.get? m := by
  unfold register slot
  by_cases hm : language.modelName = m
  · subst hm
    cases hid : t.byId.get? language.id <;> simp
  · cases hid : t.byId.get? language.id with
    | none => simp [hm, Fields.get?_put_of_ne hm]
    | some slot => simp [hm, Fields.get?_put_of_ne hm, get?_withoutNameAt]

/-- A registration keeps the indices in step. -/
theorem Indexed.register (h : t.Indexed) (language : Language) :
    (t.register language).Indexed := by
  constructor
  case byId_iff =>
    intro id slot
    rw [byId_register, h.getElem?_register]
    by_cases hslot : slot = t.slot language.id
    · subst hslot
      rw [if_pos rfl]
      by_cases hid : language.id = id
      · simp [hid]
      · -- the place is new, or that of another id
        have hother : ¬ t.byId.get? id = some (t.slot language.id) := by
          rw [h.byId_iff]
          rintro ⟨l, hl, rfl⟩
          exact hid ((h.eq_slot_iff hl language.id).1 rfl).symm
        simp [hid, hother]
    · rw [if_neg hslot]
      by_cases hid : language.id = id
      · subst hid
        have hother : ∀ l, t.list[slot]? = some l → l.id ≠ language.id :=
          fun l hl he => hslot ((h.eq_slot_iff hl language.id).2 he)
        simpa [Ne.symm hslot] using hother
      · rw [if_neg hid]
        exact h.byId_iff id slot
  case owner =>
    intro m slot hm
    rw [byModelName_register] at hm
    rw [h.getElem?_register]
    split at hm
    · exact ⟨language, if_pos (Option.some.inj hm).symm, ‹_›⟩
    · split at hm
      · contradiction
      · rename_i hnew hkept
        obtain ⟨l, hl, rfl⟩ := h.owner m slot hm
        refine ⟨l, ?_, rfl⟩
        rw [if_neg, hl]
        intro hslot
        have hid := (h.eq_slot_iff hl language.id).1 hslot
        refine hkept ?_
        rw [(h.byId_iff language.id slot).2 ⟨l, hl, hid⟩]
        simp [hl]

end LanguageTable

/-! ## Registries -/

/-- A registry of languages. -/
structure Languages extends LanguageTable where
  indexed : toLanguageTable.Indexed
  deriving DecidableEq

namespace Languages

/-- The registry without languages. -/
def empty : Languages := ⟨.empty, LanguageTable.indexed_empty⟩

/-- The language of an id. -/
def get? (ls : Languages) (id : String) : Option Language :=
  (ls.byId.get? id).bind (ls.list[·]?)

/-- The language that a model name stands for. -/
def byModelName? (ls : Languages) (modelName : String) : Option Language :=
  (ls.byModelName.get? modelName).bind (ls.list[·]?)

/-- Adds a language, or replaces the one of its id. -/
def register (ls : Languages) (language : Language) : Languages :=
  ⟨ls.toLanguageTable.register language, ls.indexed.register language⟩

/-- The registry that a row of registrations leads to. -/
def ofList (languages : List Language) : Languages := languages.foldl register empty

/-- The built-in languages. -/
def builtin : Languages :=
  ofList <| [ ("simple", "Simple"), ("constant", "Constant"), ("header", "Header"),
    ("exchangeProperty", "ExchangeProperty"), ("variable", "Variable"),
    ("jsonpath", "JsonPath"), ("jq", "JQ"), ("xpath", "XPath"), ("xquery", "XQuery"),
    ("csimple", "CSimple"), ("datasonnet", "DataSonnet"), ("groovy", "Groovy"),
    ("js", "JavaScript"), ("python", "Python"), ("java", "Java"), ("method", "Bean Method"),
    ("ref", "Ref"), ("tokenize", "Tokenize"), ("xtokenize", "XML Tokenize"),
    ("hl7terser", "HL7 Terser"), ("wasm", "Wasm") ].map fun (id, title) => Language.ofId id title

end Languages

end FlowTree
