/-!
# FlowTree.Json.Fields

Fields of an object: keys and values in the order they were first written.

* `Fields.get?` — the value of a key;
* `Fields.put` — a present key keeps its place and takes the new value, a new key
  goes last;
* `Fields.drop` — removing a key closes the gap and keeps the others in order;
* `nodup_keys_ofPairs` — fields read from text have no key twice.
-/

namespace FlowTree

/-- Keys with values, in order. -/
abbrev Fields (α : Type) := List (String × α)

namespace Fields

variable {α : Type}

/-- The value stored under a key. -/
def get? (key : String) : Fields α → Option α
  | [] => none
  | (k, v) :: rest => if k = key then some v else get? key rest

/-- Stores a value under a key: in place when the key is present, else at the end. -/
def put (key : String) (value : α) : Fields α → Fields α
  | [] => [(key, value)]
  | (k, v) :: rest => if k = key then (k, value) :: rest else (k, v) :: put key value rest

/-- The fields with a value stored under a key that is absent; a present key keeps its own. -/
def orPut (key : String) (value : α) (fields : Fields α) : Fields α :=
  match get? key fields with
  | some _ => fields
  | none => put key value fields

/-- Removes a key. -/
def drop (key : String) : Fields α → Fields α
  | [] => []
  | (k, v) :: rest => if k = key then drop key rest else (k, v) :: drop key rest

/-- The keys in order. -/
def keys (fields : Fields α) : List String := fields.map Prod.fst

/-- Whether a key is present. -/
def has (key : String) (fields : Fields α) : Bool := (fields.get? key).isSome

/-- Fields from pairs that may repeat a key: a key stands where it was first
written and holds what was written last. -/
def ofPairs (pairs : List (String × α)) : Fields α :=
  pairs.foldl (fun fields pair => fields.put pair.1 pair.2) []

/-! ## Equations -/

@[simp] theorem get?_nil (key : String) : get? key ([] : Fields α) = none := rfl

theorem get?_cons (key k : String) (v : α) (rest : Fields α) :
    get? key ((k, v) :: rest) = if k = key then some v else get? key rest := rfl

theorem put_cons (key k : String) (value v : α) (rest : Fields α) :
    put key value ((k, v) :: rest) =
      if k = key then (k, value) :: rest else (k, v) :: put key value rest := rfl

theorem drop_cons (key k : String) (v : α) (rest : Fields α) :
    drop key ((k, v) :: rest) = if k = key then drop key rest else (k, v) :: drop key rest := rfl

/-- What was stored is what is read. -/
@[simp] theorem get?_put_self (key : String) (value : α) (fields : Fields α) :
    get? key (put key value fields) = some value := by
  induction fields with
  | nil => simp [put, get?]
  | cons head rest ih =>
    obtain ⟨k, v⟩ := head
    by_cases h : k = key <;> simp [put, get?, h, ih]

/-- Storing under one key leaves the others alone. -/
theorem get?_put_of_ne {key other : String} (h : key ≠ other) (value : α) (fields : Fields α) :
    get? other (put key value fields) = get? other fields := by
  induction fields with
  | nil => simp [put, get?, h]
  | cons head rest ih =>
    obtain ⟨k, v⟩ := head
    by_cases hk : k = key
    · subst hk; simp [put, get?, h]
    · simp [put, get?, hk, ih]

/-- Storing what is already there changes nothing. -/
theorem put_of_get? {key : String} {value : α} {fields : Fields α}
    (h : get? key fields = some value) : put key value fields = fields := by
  induction fields with
  | nil => simp at h
  | cons head rest ih =>
    obtain ⟨k, v⟩ := head
    by_cases hk : k = key
    · simp_all [put, get?]
    · simp_all [put, get?]

/-- Of two values stored under one key the second stays. -/
@[simp] theorem put_put_self (key : String) (first second : α) (fields : Fields α) :
    put key second (put key first fields) = put key second fields := by
  induction fields with
  | nil => simp [put]
  | cons head rest ih =>
    obtain ⟨k, v⟩ := head
    by_cases h : k = key <;> simp [put, h, ih]

theorem orPut_of_get? {key : String} {old : α} {fields : Fields α}
    (h : get? key fields = some old) (value : α) : orPut key value fields = fields := by
  rw [orPut, h]

theorem orPut_of_absent {key : String} {fields : Fields α} (h : get? key fields = none)
    (value : α) : orPut key value fields = put key value fields := by
  rw [orPut, h]

/-- A removed key is gone. -/
@[simp] theorem get?_drop_self (key : String) (fields : Fields α) :
    get? key (drop key fields) = none := by
  induction fields with
  | nil => rfl
  | cons head rest ih =>
    obtain ⟨k, v⟩ := head
    by_cases h : k = key <;> simp [drop, get?, h, ih]

/-- Removing one key leaves the others alone. -/
theorem get?_drop_of_ne {key other : String} (h : key ≠ other) (fields : Fields α) :
    get? other (drop key fields) = get? other fields := by
  induction fields with
  | nil => rfl
  | cons head rest ih =>
    obtain ⟨k, v⟩ := head
    by_cases hk : k = key
    · subst hk; simp [drop, get?, h, ih]
    · simp [drop, get?, hk, ih]

/-- Removing a key keeps the fields of all others, in order. -/
theorem drop_eq_filter (key : String) (fields : Fields α) :
    drop key fields = fields.filter (·.1 ≠ key) := by
  induction fields with
  | nil => rfl
  | cons head rest ih =>
    obtain ⟨k, v⟩ := head
    by_cases h : k = key <;> simp [drop, h, ih]

/-- Of two keys one that is there can be stored first or last. -/
theorem put_comm {key other : String} {old : α} {fields : Fields α} (h : key ≠ other)
    (hk : get? key fields = some old) (value stored : α) :
    put key value (put other stored fields) = put other stored (put key value fields) := by
  induction fields with
  | nil => simp at hk
  | cons head rest ih =>
    obtain ⟨k, v⟩ := head
    by_cases hkey : k = key
    · subst hkey
      simp [put, h]
    · have hrest : get? key rest = some old := by simpa [get?, hkey] using hk
      by_cases hother : k = other
      · simp [put, hother, Ne.symm h]
      · simp [put, hkey, hother, ih hrest]

/-! ## Some of the keys -/

section

variable {keep : String → Bool} {key : String}

/-- Among some of the keys a removal of another one is not seen. -/
theorem filter_drop (h : keep key = false) (fields : Fields α) :
    (drop key fields).filter (keep ·.1) = fields.filter (keep ·.1) := by
  induction fields with
  | nil => rfl
  | cons head rest ih =>
    obtain ⟨k, v⟩ := head
    rw [drop_cons]
    by_cases hk : k = key
    · rw [if_pos hk, ih, List.filter_cons_of_neg (by simp [hk, h])]
    · rw [if_neg hk, List.filter_cons, List.filter_cons, ih]

/-- Among some of the keys a value under another one is not seen. -/
theorem filter_put (h : keep key = false) (value : α) (fields : Fields α) :
    (put key value fields).filter (keep ·.1) = fields.filter (keep ·.1) := by
  induction fields with
  | nil => simp [put, h]
  | cons head rest ih =>
    obtain ⟨k, v⟩ := head
    rw [put_cons]
    by_cases hk : k = key
    · rw [if_pos hk, List.filter_cons_of_neg (by simp [hk, h]),
        List.filter_cons_of_neg (by simp [hk, h])]
    · rw [if_neg hk, List.filter_cons, List.filter_cons, ih]

theorem mem_keys_filter_iff {fields : Fields α} :
    key ∈ keys (fields.filter (keep ·.1)) ↔ key ∈ keys fields ∧ keep key = true := by
  simp [keys, and_comm]

/-- Fields are all kept when their keys are. -/
theorem filter_eq_self {fields : Fields α} (h : ∀ key ∈ keys fields, keep key = true) :
    fields.filter (keep ·.1) = fields :=
  List.filter_eq_self.2 fun _ hf => h _ (List.mem_map_of_mem hf)

end

/-! ## Distinct keys -/

/-- What is found under a key is one of the fields. -/
theorem mem_of_get? {key : String} {value : α} {fields : Fields α}
    (h : get? key fields = some value) : (key, value) ∈ fields := by
  induction fields with
  | nil => simp at h
  | cons head rest ih =>
    obtain ⟨k, v⟩ := head
    rw [get?_cons] at h
    split at h
    · rename_i hk
      rw [hk, Option.some.inj h]
      exact List.mem_cons_self
    · exact List.mem_cons_of_mem _ (ih h)

/-- With distinct keys every field is the one found under its key. -/
theorem get?_of_mem {key : String} {value : α} {fields : Fields α} (hn : (keys fields).Nodup)
    (h : (key, value) ∈ fields) : get? key fields = some value := by
  induction fields with
  | nil => contradiction
  | cons head rest ih =>
    obtain ⟨k, v⟩ := head
    obtain ⟨hhead, hrest⟩ := List.nodup_cons.1 hn
    rw [get?_cons]
    cases List.mem_cons.1 h with
    | inl he =>
      obtain ⟨rfl, rfl⟩ := Prod.mk.inj he
      exact if_pos rfl
    | inr hr =>
      have hne : k ≠ key := fun hk => hhead (List.mem_map.2 ⟨(key, value), hr, hk.symm⟩)
      rw [if_neg hne]
      exact ih hrest hr

/-- A key with a value is among the keys. -/
theorem mem_keys_of_get? {key : String} {fields : Fields α} {value : α}
    (h : get? key fields = some value) : key ∈ keys fields :=
  List.mem_map_of_mem (mem_of_get? h)

/-- Every one of the keys has a value. -/
theorem exists_get?_of_mem_keys {key : String} {fields : Fields α} (h : key ∈ keys fields) :
    ∃ value, get? key fields = some value := by
  induction fields with
  | nil => simp [keys] at h
  | cons head rest ih =>
    obtain ⟨k, v⟩ := head
    rw [get?_cons]
    split
    · exact ⟨v, rfl⟩
    · rename_i hk
      cases List.mem_cons.1 h with
      | inl htop => exact absurd htop.symm hk
      | inr hrest => exact ih hrest

/-- A key that is not among the keys has no value. -/
theorem get?_eq_none {key : String} {fields : Fields α} (h : key ∉ keys fields) :
    get? key fields = none :=
  Option.eq_none_iff_forall_ne_some.2 fun _ hv => h (mem_keys_of_get? hv)

/-- The keys after a value was stored: a new one stands last. -/
theorem keys_put (key : String) (value : α) (fields : Fields α) :
    keys (put key value fields) =
      if key ∈ keys fields then keys fields else keys fields ++ [key] := by
  induction fields with
  | nil => simp [put, keys]
  | cons head rest ih =>
    obtain ⟨k, v⟩ := head
    simp only [keys] at ih
    by_cases h : k = key
    · simp [put, keys, h]
    · simp only [put, keys, h, ↓reduceIte, List.map_cons, ih, List.mem_cons, Ne.symm h, false_or]
      by_cases hm : key ∈ rest.map Prod.fst <;> simp [hm]

theorem mem_keys_put_iff {key other : String} {value : α} {fields : Fields α} :
    other ∈ keys (put key value fields) ↔ other = key ∨ other ∈ keys fields := by
  rw [keys_put]
  by_cases h : key ∈ keys fields
  · rw [if_pos h]
    exact ⟨.inr, fun ho => ho.elim (fun he => he ▸ h) id⟩
  · rw [if_neg h, List.mem_append, List.mem_singleton, or_comm]

theorem mem_keys_drop_iff {key other : String} {fields : Fields α} :
    other ∈ keys (drop key fields) ↔ other ∈ keys fields ∧ other ≠ key := by
  rw [drop_eq_filter]
  simp [keys, and_comm]

/-- Storing keeps keys distinct. -/
theorem nodup_keys_put {key : String} {value : α} {fields : Fields α}
    (h : (keys fields).Nodup) : (keys (put key value fields)).Nodup := by
  rw [keys_put]
  split
  · exact h
  · rename_i hk
    refine List.nodup_append.2 ⟨h, by simp, fun a ha b hb => ?_⟩
    rw [List.mem_singleton.1 hb]
    exact fun hab => hk (hab ▸ ha)

/-- Fields from pairs have no key twice. -/
theorem nodup_keys_ofPairs (pairs : List (String × α)) : (keys (ofPairs pairs)).Nodup := by
  suffices ∀ fields : Fields α, (keys fields).Nodup →
      (keys (pairs.foldl (fun fields pair => fields.put pair.1 pair.2) fields)).Nodup from
    this [] (by simp [keys])
  induction pairs with
  | nil => exact fun _ h => h
  | cons pair rest ih => exact fun fields h => ih _ (nodup_keys_put h)

end Fields

end FlowTree
