import FlowTree.Editor
import FlowTree.Proofs.Graph.Holder

/-!
# FlowTree.Proofs.Graph.Builtin

How the built-in catalog and mappers read definitions.

What they say of the processors they know is checked one processor after the other, and
they say nothing of any other.

* `Context.orderly_builtin` — every processor is read in an orderly way;
* `Context.lifts_builtin_iff`, `Context.links_builtin_iff` — which processors hand their steps
  over, and which ones do not link them;
* `Context.steps_builtin` — the children that are inserted under `steps` are those that
  are drawn there.
-/

namespace FlowTree

namespace Context

/-- The processors that the built-in catalog or the built-in mappers know. -/
def known : List String := Catalog.builtin.processors.keys ++ Mappers.builtin.entries.keys

/-- Nothing is drawn below other processors. -/
theorem properties_of_not_known {name : String} (h : name ∉ known) :
    builtin.mappers.get name = .plain ∧ builtin.catalog.stepsProperties name = [] := by
  obtain ⟨hc, hm⟩ := not_or.1 (mt List.mem_append.2 h)
  constructor
  · have hn : Mappers.builtin.entries.get? name = none := Fields.get?_eq_none hm
    rw [builtin, Registry.get, hn]
    rfl
  · have hn : Catalog.builtin.processors.get? name = none := Fields.get?_eq_none hc
    rw [builtin, Catalog.stepsProperties, Catalog.processor?, hn]
    rfl

/-- What holds of the steps properties of known processors holds of all. -/
theorem forall_properties {P : StepsProperty → Prop}
    (h : ∀ name ∈ known, (∀ p ∈ builtin.scheme.properties name, P p) ∧
      ∀ p ∈ builtin.catalog.stepsProperties name, P p) (name : String) :
    (∀ p ∈ builtin.scheme.properties name, P p) ∧
      ∀ p ∈ builtin.catalog.stepsProperties name, P p := by
  by_cases hk : name ∈ known
  · exact h name hk
  · obtain ⟨hm, hc⟩ := properties_of_not_known hk
    have hp : builtin.scheme.properties name = [] := by
      rw [Scheme.properties, scheme, hm]
      exact hc
    simp [hp, hc]

/-- The readings of known processors, checked one by one. -/
theorem orderly_known :
    ∀ name ∈ known, (Reading.declared (builtin.scheme.properties name)).Orderly builtin.scheme ∧
      (Reading.declared (builtin.catalog.stepsProperties name)).Orderly builtin.scheme := by
  decide +kernel

/-- The built-in catalog and mappers read every processor in an orderly way. -/
theorem orderly_builtin : builtin.scheme.Orderly := by
  have hunknown (name : String) (hk : name ∉ known) :
      (Reading.declared (builtin.scheme.properties name)).Orderly builtin.scheme ∧
        (Reading.declared (builtin.catalog.stepsProperties name)).Orderly builtin.scheme := by
    obtain ⟨hm, hc⟩ := properties_of_not_known hk
    have hp : builtin.scheme.properties name = [] := by
      rw [Scheme.properties, scheme, hm]
      exact hc
    rw [hp, hc]
    exact ⟨Reading.orderly_nil, Reading.orderly_nil⟩
  have hall (name : String) := if hk : name ∈ known then orderly_known name hk else hunknown name hk
  exact ⟨fun name => (hall name).1, fun name => (hall name).2⟩

/-- Only the entry of a route hands its steps over. -/
theorem lifts_builtin_of_ne {name : String} (h : name ≠ "from") :
    (builtin.mappers.get name).lifts = false := by
  have hall : ∀ name ∈ known, name ≠ "from" → (builtin.mappers.get name).lifts = false := by
    decide +kernel
  by_cases hk : name ∈ known
  · exact hall name hk h
  · rw [(properties_of_not_known hk).1]
    rfl

theorem lifts_builtin_iff {name : String} :
    (builtin.mappers.get name).lifts = true ↔ name = "from" := by
  constructor
  · intro h
    refine Decidable.byContradiction fun hne => ?_
    rw [lifts_builtin_of_ne hne] at h
    contradiction
  · rintro rfl
    decide +kernel

/-- The entry of a route has one branch. -/
theorem properties_from : builtin.scheme.properties "from" = [⟨"steps", .branch⟩] := by
  decide +kernel

/-- No steps property is called like the entry of a route. -/
theorem name_ne_from (name : String) :
    (∀ p ∈ builtin.scheme.properties name, p.name ≠ "from") ∧
      ∀ p ∈ builtin.catalog.stepsProperties name, p.name ≠ "from" :=
  forall_properties (by decide +kernel) name

/-- The processors whose steps run side by side. -/
def parallel : List String := ["multicast", "loadBalance", "recipientList"]

/-- The branches of all other processors are linked. -/
theorem links_builtin_iff {name : String} :
    (builtin.mappers.get name).links = true ↔ name ∉ parallel := by
  have hall : ∀ name ∈ known, (builtin.mappers.get name).links = true ↔ name ∉ parallel := by
    decide +kernel
  have hknown : ∀ name ∈ parallel, name ∈ known := by decide +kernel
  by_cases hk : name ∈ known
  · exact hall name hk
  · rw [(properties_of_not_known hk).1]
    exact iff_of_true rfl (mt (hknown name) hk)

/-- Where the catalog takes children under `steps`, they are drawn as a branch. -/
theorem steps_known :
    ∀ name ∈ known, ∀ declared ∈ builtin.catalog.stepsProperty? name "steps",
      declared = ⟨"steps", .branch⟩ ∧ declared ∈ builtin.scheme.properties name := by
  decide +kernel

theorem steps_builtin {name : String} {declared : StepsProperty}
    (h : builtin.catalog.stepsProperty? name "steps" = some declared) :
    declared = ⟨"steps", .branch⟩ ∧ declared ∈ builtin.scheme.properties name := by
  by_cases hk : name ∈ known
  · exact steps_known name hk declared h
  · rw [Catalog.stepsProperty?, (properties_of_not_known hk).2] at h
    contradiction

end Context

end FlowTree
