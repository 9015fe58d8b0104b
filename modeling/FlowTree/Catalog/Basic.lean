import FlowTree.Catalog.Entry
import FlowTree.Json.Fields

/-!
# FlowTree.Catalog.Basic

Catalogs: entries of processors and components by name.

A catalog holds one entry for a name; a later one takes the place of an earlier
one.  A processor that is not listed has no steps properties.
-/

namespace FlowTree

/-- Entries of processors and components by name. -/
structure Catalog where
  processors : Fields ProcessorEntry
  components : Fields ComponentEntry
  deriving DecidableEq, Repr

namespace Catalog

/-- The catalog without entries, in which every processor is a leaf. -/
def empty : Catalog := ⟨[], []⟩

/-- Adds a processor, or replaces the one of its name. -/
def insertProcessor (c : Catalog) (entry : ProcessorEntry) : Catalog :=
  { c with processors := c.processors.put entry.name entry }

/-- Adds a component, or replaces the one of its name. -/
def insertComponent (c : Catalog) (entry : ComponentEntry) : Catalog :=
  { c with components := c.components.put entry.name entry }

/-- The entry of a processor. -/
def processor? (c : Catalog) (name : String) : Option ProcessorEntry := c.processors.get? name

/-- The entry of a component. -/
def component? (c : Catalog) (name : String) : Option ComponentEntry := c.components.get? name

/-- The steps properties of a processor. -/
def stepsProperties (c : Catalog) (processor : String) : List StepsProperty :=
  ((c.processor? processor).map (·.stepsProperties)).getD []

/-- The first steps property of a processor that has the given name. -/
def stepsProperty? (c : Catalog) (processor property : String) : Option StepsProperty :=
  (c.stepsProperties processor).find? (·.name == property)

/-- The number of processors. -/
def processorCount (c : Catalog) : Nat := c.processors.length

/-! ## Equations -/

theorem name_of_stepsProperty? {c : Catalog} {processor property : String}
    {declared : StepsProperty} (h : c.stepsProperty? processor property = some declared) :
    declared.name = property := by
  have hname := List.find?_some h
  exact beq_iff_eq.1 hname

/-- An inserted processor is the one found under its name. -/
@[simp] theorem processor?_insertProcessor_self (c : Catalog) (entry : ProcessorEntry) :
    (c.insertProcessor entry).processor? entry.name = some entry := by
  simp [processor?, insertProcessor]

/-- Inserting a processor leaves those of other names alone. -/
theorem processor?_insertProcessor_of_ne {c : Catalog} {entry : ProcessorEntry} {name : String}
    (h : entry.name ≠ name) : (c.insertProcessor entry).processor? name = c.processor? name :=
  Fields.get?_put_of_ne h _ _

end Catalog

end FlowTree
