import FlowTree.Catalog.Basic
import FlowTree.Document.Kind

/-!
# FlowTree.Offer

Which structural edits are offered for a processor.

Steps properties say whether a processor can have children; fixed lists name the
processors that are anchored in place, that cannot be replaced, removed or
disabled.  A processor on no list is a leaf that allows everything.

* `Offers.of` — the edits offered for a processor;
* `EntityKind.rootOffers?` — those offered at the root of a kind that has rules of
  its own.
-/

namespace FlowTree

/-- Whether a path is that of the root of a flow. -/
inductive PathRole where
  | root
  | interior
  deriving DecidableEq, Repr

/-- The structural edits offered for a node. -/
structure Offers where
  previousStep : Bool
  nextStep : Bool
  children : Bool
  specialChildren : Bool
  replaceStep : Bool
  removeStep : Bool
  removeFlow : Bool
  disable : Bool
  deriving DecidableEq, Repr

/-- Processors that take no siblings. -/
def anchored : List String :=
  ["route", "from", "when", "otherwise", "doCatch", "doFinally", "onFallback", "intercept",
    "interceptFrom", "interceptSendToEndpoint", "onException", "onCompletion"]

/-- Processors that cannot be replaced. -/
def irreplaceable : List String :=
  ["route", "when", "otherwise", "doCatch", "doFinally", "onFallback"]

/-- Processors that cannot be removed. -/
def irremovable : List String := ["route", "from"]

/-- Processors that cannot be disabled. -/
def alwaysEnabled : List String :=
  ["route", "from", "when", "otherwise", "doCatch", "doFinally", "onFallback"]

namespace Offers

/-- Nothing but removing the whole flow. -/
def flowOnly : Offers :=
  { previousStep := false, nextStep := false, children := false, specialChildren := false
    replaceStep := false, removeStep := false, removeFlow := true, disable := false }

/-- The edits offered for a processor. -/
def of (catalog : Catalog) (processor : String) (role : PathRole) : Offers :=
  let properties := catalog.stepsProperties processor
  let siblings := !anchored.contains processor
  { previousStep := siblings
    nextStep := siblings
    children := properties.any (·.kind == .branch)
    specialChildren := 1 < properties.length
    replaceStep := !irreplaceable.contains processor
    removeStep := !irremovable.contains processor
    removeFlow := role == .root
    disable := !alwaysEnabled.contains processor }

/-- The offers with the names that records of them use, in order. -/
def named (o : Offers) : List (String × Bool) :=
  [ ("canHavePreviousStep", o.previousStep), ("canHaveNextStep", o.nextStep),
    ("canHaveChildren", o.children), ("canHaveSpecialChildren", o.specialChildren),
    ("canReplaceStep", o.replaceStep), ("canRemoveStep", o.removeStep),
    ("canRemoveFlow", o.removeFlow), ("canBeDisabled", o.disable) ]

end Offers

/-- The edits offered at the root of a kind; `none` where the rules for processors
apply. -/
def EntityKind.rootOffers? : EntityKind → Option Offers
  | .errorHandler | .restConfiguration | .rest => some .flowOnly
  | .routeConfiguration => some { Offers.flowOnly with specialChildren := true }
  | .intercept | .interceptFrom | .interceptSendToEndpoint | .onException | .onCompletion =>
    some { Offers.flowOnly with children := true }
  | .route | .unknown => none

end FlowTree
