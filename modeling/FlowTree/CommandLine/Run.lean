import FlowTree.CommandLine.Help
import FlowTree.Editor
import FlowTree.Graph.Outline
import FlowTree.Json.Inspect
import FlowTree.Json.Printer
import FlowTree.Record.Editor
import FlowTree.Record.Expression

/-!
# FlowTree.CommandLine.Run

Carrying out command lines.

Files are read through a function, and what is to be written is part of the
answer, so that an answer depends on nothing but the command line and the files.

* `CommandLine.carryOut` — the answer to a command, or the message of its failure;
* `CommandLine.run` — the answer to a command line.
-/

namespace FlowTree

namespace CommandLine

/-- What the text of a file is, or why it cannot be read. -/
abbrev Files := String → Except String String

/-- What a run leaves behind: its exit code, what it printed, and the file that it
wrote, if any. -/
structure Answer where
  exitCode : Nat
  output : String
  errors : String
  written : Option (String × String)
  deriving DecidableEq, Repr

/-- What a command that succeeded prints and writes. -/
structure Product where
  output : String
  written : Option (String × String)

/-- A product that is only printed. -/
def Product.print (output : String) : Product := ⟨output, none⟩

/-! ## Parts of commands -/

/-- The context with the entries of a catalog file over the built-in ones. -/
def loadContext (files : Files) : Option String → Except String Context
  | none => .ok .builtin
  | some name =>
    match files name with
    | .error reason => .error ("Failed to read catalog file '" ++ name ++ "': " ++ reason)
    | .ok text =>
      match Catalog.builtin.extend text with
      | (catalog, none) => .ok { Context.builtin with catalog }
      | (_, some error) => .error ("Failed to load catalog: " ++ error.message)

/-- An editor for the document in a file. -/
def loadEditor (files : Files) (context : Context) (name : String) : Except String Editor :=
  match files name with
  | .error reason => .error ("Failed to read flow file '" ++ name ++ "': " ++ reason)
  | .ok text =>
    match Document.ofString text with
    | .ok document => .ok ⟨context, document⟩
    | .error error => .error ("Failed to load flow document: " ++ error.message)

/-- The path of an operand. -/
def readPath (text : String) : Except String Path :=
  match Path.parse text with
  | .ok path => .ok path
  | .error error => .error ("Invalid path '" ++ text ++ "': " ++ error.message)

/-- The message for a path that leads nowhere. -/
def nothingStored (path : String) : String := "Nothing stored at '" ++ path ++ "'"

/-- A value on lines of its own. -/
def jsonLines (value : Json) : String := value.pretty ++ "\n"

/-- Offers in two columns. -/
def offerLines (o : Offers) : String :=
  let rows := [ ("previous step", o.previousStep), ("next step", o.nextStep),
    ("children", o.children), ("special children", o.specialChildren),
    ("replace", o.replaceStep), ("remove step", o.removeStep), ("remove flow", o.removeFlow),
    ("disable", o.disable) ]
  String.join (rows.map fun (name, offered) =>
    "  " ++ name ++ String.ofList (List.replicate (18 - name.length) ' ') ++ " " ++
      (if offered then "yes" else "no") ++ "\n")

/-- An expression on a line: its text or, when it has none, its payload. -/
def expressionLine (path : String) (e : Expression) : String :=
  match e.language with
  | none => "No expression at '" ++ path ++ "'\n"
  | some language =>
    match e.text? with
    | some text => language ++ ": " ++ text ++ "\n"
    | none =>
      let model := match e.model with
        | some model => "Some(" ++ model.inspect ++ ")"
        | none => "None"
      language ++ ": " ++ model ++ "\n"

/-! ## Commands -/

/-- Prints the graph of a document or of a part of it. -/
def printGraph (json : Bool) (e : Editor) (path : Option String) : Except String Product := do
  let graph ← match path with
    | none => pure e.graph
    | some text =>
      match e.part? (← readPath text) with
      | some graph => pure graph
      | none => throw (nothingStored text)
  if json then return .print (jsonLines graph.toJson)
  else return .print (graph.outline ++ toString graph.size ++ " node(s), entity '" ++
    graph.entityId ++ "'\n")

/-- Removes a node, and prints the document or writes it back. -/
def removeNode (e : Editor) (file path : String) (inPlace : Bool) : Except String Product := do
  let (document, verdict) := e.document.remove (← readPath path)
  match verdict with
  | .refused error => throw ("Remove failed: " ++ error.message)
  | .done .skipped => throw (nothingStored path)
  | .done .applied =>
    if inPlace then
      return ⟨"Removed '" ++ path ++ "' from '" ++ file ++ "'\n",
        some (file, document.value.pretty)⟩
    else return .print (jsonLines document.value)

/-- Carries out a command. -/
def carryOut (files : Files) (i : Invocation) : Except String Product := do
  let context ← loadContext files i.catalog
  match i.command with
  | .graph file path => printGraph i.json (← loadEditor files context file) path
  | .resolve file path =>
    let e ← loadEditor files context file
    match e.document.resolve (← readPath path) with
    | some value => return .print (jsonLines value)
    | none => throw (nothingStored path)
  | .remove file path inPlace => removeNode (← loadEditor files context file) file path inPlace
  | .capabilities processor root =>
    let role : PathRole := if root then .root else .interior
    let offers := Offers.of context.catalog processor role
    if i.json then return .print (jsonLines offers.toJson)
    else return .print (processor ++ " (" ++ role.name ++ ")\n" ++ offerLines offers)
  | .expression file path =>
    let e ← loadEditor files context file
    let expression := e.expression (← readPath path)
    if i.json then return .print (jsonLines expression.toJson)
    else return .print (expressionLine path expression)

/-- The answer to a command line: exit code 1 goes with the message of a failed
command, exit code 2 with a command line that is not understood. -/
def run (files : Files) (words : List String) : Answer :=
  match Request.ofArguments words with
  | .misuse =>
    ⟨2, "", "error: the command line is not understood\n\n" ++
      "For more information, try '--help'.\n", none⟩
  | .version => ⟨0, versionLine, "", none⟩
  | .help none => ⟨0, programHelp, "", none⟩
  | .help (some command) => ⟨0, commandHelp command, "", none⟩
  | .carryOut invocation =>
    match carryOut files invocation with
    | .ok product => ⟨0, product.output, "", product.written⟩
    | .error message => ⟨1, "", "\nError: " ++ message ++ "\n", none⟩

/-- The files that a command line may read. -/
def filesRead (words : List String) : List String :=
  match Request.ofArguments words with
  | .carryOut i =>
    i.catalog.toList ++ match i.command with
      | .graph file _ | .resolve file _ | .remove file _ _ | .expression file _ => [file]
      | .capabilities _ _ => []
  | _ => []

end CommandLine

end FlowTree
