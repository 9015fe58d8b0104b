/-!
# FlowTree.Catalog.Entry

Entries of a catalog: what is known of a processor and of a component.

A processor declares the properties that hold its child steps, in the order in
which the children are laid out.
-/

namespace FlowTree

/-- The shape of a property that holds child steps. -/
inductive StepsKind where
  /-- One clause object, as under `otherwise`. -/
  | singleClause
  /-- An array of clause objects, as under `when`. -/
  | clauseArray
  /-- An array of step holders such as the object with the one key `log`, as under
  `steps`. -/
  | branch
  deriving DecidableEq, Repr

/-- A property of a processor that may hold child steps. -/
structure StepsProperty where
  name : String
  kind : StepsKind
  deriving DecidableEq, Repr

/-- Whether the property stores an array in a document. -/
def StepsProperty.holdsArray (p : StepsProperty) : Bool :=
  p.kind == .clauseArray || p.kind == .branch

/-- What is known of a processor. -/
structure ProcessorEntry where
  name : String
  title : String
  icon : Option String
  description : Option String
  stepsProperties : List StepsProperty
  deriving DecidableEq, Repr

/-- What is known of an endpoint component such as `timer`. -/
structure ComponentEntry where
  name : String
  title : String
  icon : Option String
  description : Option String
  deriving DecidableEq, Repr

end FlowTree
