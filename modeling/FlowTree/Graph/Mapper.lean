import FlowTree.Catalog.Basic
import FlowTree.Text.Quoted

/-!
# FlowTree.Graph.Mapper

How the children of a processor are laid out, and the registry of layouts.

* `Registry.get` — what is registered for a processor, or else the fallback;
* `Mappers.builtin` — the mappers of branching, entry and parallel processors.
-/

namespace FlowTree

/-- Where the children of a processor come from. -/
inductive Layout where
  /-- The steps properties that the catalog declares, one after the other. -/
  | declared
  /-- The given steps properties, all of them built before any is attached. -/
  | fixed (properties : List StepsProperty)
  /-- One branch whose steps run side by side, without links between them. -/
  | unlinked (branch : String)
  deriving DecidableEq, Repr

/-- A layout with the name of the processor it is made for.  A mapper that lifts
hands the children of its node over to the parent, right behind the node. -/
structure Mapper where
  processor : String
  layout : Layout
  lifts : Bool
  deriving DecidableEq, Repr

namespace Mapper

/-- The mapper of processors without one of their own. -/
def plain : Mapper := ⟨"*", .declared, false⟩

/-- The clauses of `when` in order, then `otherwise`. -/
def choice : Mapper :=
  ⟨"choice", .fixed [⟨"when", .clauseArray⟩, ⟨"otherwise", .singleClause⟩], false⟩

/-- The entry of a route: its steps follow it in the group around it. -/
def entry : Mapper := ⟨"from", .fixed [⟨"steps", .branch⟩], true⟩

/-- The steps tried, then every `doCatch`, then `doFinally`. -/
def doTry : Mapper :=
  ⟨"doTry",
    .fixed [⟨"steps", .branch⟩, ⟨"doCatch", .clauseArray⟩, ⟨"doFinally", .singleClause⟩],
    false⟩

/-- Steps that run side by side. -/
def parallel (processor : String) : Mapper := ⟨processor, .unlinked "steps", false⟩

/-- The steps properties that a mapper lays out, in order. -/
def properties (m : Mapper) (catalog : Catalog) (processor : String) : List StepsProperty :=
  match m.layout with
  | .declared => catalog.stepsProperties processor
  | .fixed properties => properties
  | .unlinked branch => [⟨branch, .branch⟩]

/-- Whether the steps of a branch are linked in order. -/
def links (m : Mapper) : Bool :=
  match m.layout with
  | .unlinked _ => false
  | _ => true

end Mapper

/-! ## Registries -/

/-- What is registered for processors, and what stands in for the others. -/
structure Registry (μ : Type) where
  entries : Fields μ
  fallback : μ
  deriving DecidableEq, Repr

namespace Registry

variable {μ : Type}

/-- Registers a mapper for a processor, in place of an earlier one. -/
def insertAs (r : Registry μ) (processor : String) (mapper : μ) : Registry μ :=
  { r with entries := r.entries.put processor mapper }

/-- Whether a processor has a mapper of its own. -/
def contains (r : Registry μ) (processor : String) : Bool := r.entries.has processor

/-- Registers for one processor the mapper of another one; without such a mapper
the registry stays as it is. -/
def addAlias (r : Registry μ) (processor known : String) : Registry μ :=
  match r.entries.get? known with
  | some mapper => r.insertAs processor mapper
  | none => r

/-- The mapper of a processor. -/
def get (r : Registry μ) (processor : String) : μ := (r.entries.get? processor).getD r.fallback

/-- The names of processors with a mapper of their own, in ascending order. -/
def names (r : Registry μ) : List String := r.entries.keys.mergeSort fun a b => !(b < a)

/-- The registry as a text. -/
def describe (r : Registry μ) : String :=
  "MapperRegistry \x7b mappers: " ++ Quoted.list r.names ++ " \x7d"

end Registry

/-- Mappers by processor. -/
abbrev Mappers := Registry Mapper

namespace Mappers

/-- The registry in which every processor has the plain mapper. -/
def empty : Mappers := ⟨[], .plain⟩

/-- Registers a mapper for the processor it is made for. -/
def insert (ms : Mappers) (mapper : Mapper) : Mappers := ms.insertAs mapper.processor mapper

/-- The built-in mappers. -/
def builtin : Mappers :=
  [.choice, .entry, .doTry, .parallel "multicast", .parallel "loadBalance",
    .parallel "recipientList"].foldl insert empty

end Mappers

end FlowTree
