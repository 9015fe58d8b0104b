/-!
# FlowTree.Document.Kind

Kinds of flow entities.  The only key of a document, its root segment, names the
kind.
-/

namespace FlowTree

/-- The kind of flow that a document describes. -/
inductive EntityKind where
  | route
  | routeConfiguration
  | errorHandler
  | restConfiguration
  | rest
  | intercept
  | interceptFrom
  | interceptSendToEndpoint
  | onException
  | onCompletion
  /-- A root segment without support of its own. -/
  | unknown
  deriving DecidableEq, Repr

namespace EntityKind

/-- Every kind. -/
def all : List EntityKind :=
  [route, routeConfiguration, errorHandler, restConfiguration, rest, intercept, interceptFrom,
    interceptSendToEndpoint, onException, onCompletion, unknown]

/-- The name of a kind. -/
def name : EntityKind → String
  | route => "route"
  | routeConfiguration => "routeConfiguration"
  | errorHandler => "errorHandler"
  | restConfiguration => "restConfiguration"
  | rest => "rest"
  | intercept => "intercept"
  | interceptFrom => "interceptFrom"
  | interceptSendToEndpoint => "interceptSendToEndpoint"
  | onException => "onException"
  | onCompletion => "onCompletion"
  | unknown => "unknown"

/-- The root segment of a kind; an unknown kind has no fixed one. -/
def rootSegment? : EntityKind → Option String
  | unknown => none
  | kind => some kind.name

/-- The kind that a root segment names. -/
def ofRootSegment (segment : String) : EntityKind :=
  (all.find? fun kind => kind.rootSegment? == some segment).getD unknown

/-- Whether a kind is a flow-scoped construct and no ordinary flow. -/
def isSpecial (kind : EntityKind) : Bool := kind != route && kind != unknown

/-- Whether the root itself owns a branch of steps. -/
def hasRootSteps : EntityKind → Bool
  | intercept | interceptFrom | interceptSendToEndpoint | onException | onCompletion => true
  | _ => false

/-- What generated ids of a kind begin with. -/
def idStem (kind : EntityKind) : String := kind.rootSegment?.getD "entity"

end EntityKind

end FlowTree
