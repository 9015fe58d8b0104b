import FlowTree.Catalog.Basic

/-!
# FlowTree.Catalog.Builtin

The built-in catalog: the common processors, with the properties that hold their
child steps, and the common components.  An icon is a file named for its entry.
-/

namespace FlowTree

namespace Catalog

open StepsKind

/-- A processor with the icon of its name. -/
def builtinProcessor (name title : String) (properties : List (String × StepsKind)) :
    ProcessorEntry :=
  ⟨name, title, some (name ++ ".svg"), none, properties.map fun p => ⟨p.1, p.2⟩⟩

/-- A component with the icon of its name. -/
def builtinComponent (name title : String) : ComponentEntry :=
  ⟨name, title, some (name ++ ".svg"), none⟩

/-- The processors that hold child steps. -/
def builtinContainers : List ProcessorEntry :=
  let steps : List (String × StepsKind) := [("steps", branch)]
  [ builtinProcessor "from" "From" steps,
    builtinProcessor "choice" "Choice" [("when", clauseArray), ("otherwise", singleClause)],
    builtinProcessor "when" "When" steps,
    builtinProcessor "otherwise" "Otherwise" steps,
    builtinProcessor "doTry" "Do Try"
      [("steps", branch), ("doCatch", clauseArray), ("doFinally", singleClause)],
    builtinProcessor "doCatch" "Do Catch" steps,
    builtinProcessor "doFinally" "Do Finally" steps,
    builtinProcessor "circuitBreaker" "Circuit Breaker"
      [("steps", branch), ("onFallback", singleClause)],
    builtinProcessor "onFallback" "On Fallback" steps,
    builtinProcessor "aggregate" "Aggregate" steps,
    builtinProcessor "filter" "Filter" steps,
    builtinProcessor "split" "Split" steps,
    builtinProcessor "loop" "Loop" steps,
    builtinProcessor "multicast" "Multicast" steps,
    builtinProcessor "loadBalance" "Load Balance" steps,
    builtinProcessor "pipeline" "Pipeline" steps,
    builtinProcessor "resequence" "Resequence" steps,
    builtinProcessor "saga" "Saga" steps,
    builtinProcessor "step" "Step" steps,
    builtinProcessor "transacted" "Transacted" steps,
    builtinProcessor "idempotentConsumer" "Idempotent Consumer" steps,
    builtinProcessor "policy" "Policy" steps,
    builtinProcessor "threads" "Threads" steps,
    builtinProcessor "intercept" "Intercept" steps,
    builtinProcessor "interceptFrom" "Intercept From" steps,
    builtinProcessor "interceptSendToEndpoint" "Intercept Send To Endpoint" steps,
    builtinProcessor "onException" "On Exception" steps,
    builtinProcessor "onCompletion" "On Completion" steps,
    builtinProcessor "routeConfiguration" "Route Configuration"
      [ ("intercept", clauseArray), ("interceptFrom", clauseArray),
        ("interceptSendToEndpoint", clauseArray), ("onException", clauseArray),
        ("onCompletion", clauseArray) ] ]

/-- The processors without child steps. -/
def builtinLeaves : List ProcessorEntry :=
  [ ("to", "To"), ("toD", "To D"), ("log", "Log"), ("setBody", "Set Body"),
    ("setHeader", "Set Header"), ("setHeaders", "Set Headers"), ("setProperty", "Set Property"),
    ("setVariable", "Set Variable"), ("removeHeader", "Remove Header"),
    ("removeHeaders", "Remove Headers"), ("removeProperty", "Remove Property"),
    ("removeProperties", "Remove Properties"), ("marshal", "Marshal"),
    ("unmarshal", "Unmarshal"), ("convertBodyTo", "Convert Body To"),
    ("transform", "Transform"), ("bean", "Bean"), ("process", "Process"), ("delay", "Delay"),
    ("throttle", "Throttle"), ("stop", "Stop"), ("rollback", "Rollback"),
    ("throwException", "Throw Exception"), ("script", "Script"), ("enrich", "Enrich"),
    ("pollEnrich", "Poll Enrich"), ("wireTap", "Wire Tap"), ("kamelet", "Kamelet"),
    ("validate", "Validate"), ("sort", "Sort"), ("sample", "Sample"),
    ("recipientList", "Recipient List"), ("routingSlip", "Routing Slip"),
    ("dynamicRouter", "Dynamic Router"), ("claimCheck", "Claim Check"),
    ("setExchangePattern", "Set Exchange Pattern") ].map fun (name, title) =>
      builtinProcessor name title []

/-- The components. -/
def builtinComponents : List ComponentEntry :=
  [ ("timer", "Timer"), ("cron", "Cron"), ("direct", "Direct"), ("seda", "SEDA"),
    ("log", "Log"), ("http", "HTTP"), ("https", "HTTPS"), ("rest", "REST"),
    ("platform-http", "Platform HTTP"), ("kafka", "Kafka"), ("jms", "JMS"), ("file", "File"),
    ("sql", "SQL"), ("kamelet", "Kamelets") ].map fun (name, title) =>
      builtinComponent name title

/-- The built-in catalog. -/
def builtin : Catalog :=
  { processors := (builtinContainers ++ builtinLeaves).map fun entry => (entry.name, entry)
    components := builtinComponents.map fun entry => (entry.name, entry) }

end Catalog

end FlowTree
