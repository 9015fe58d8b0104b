import FlowTree.CommandLine.Arguments

/-!
# FlowTree.CommandLine.Help

The help texts of the command line.
-/

namespace FlowTree

namespace CommandLine

/-- The name and the version of the program. -/
def versionLine : String := "flowpath 0.1.0\n"

/-- The name by which the program is called. -/
def programName : String := "flowpath-cli"

/-- What a command is for. -/
def purpose : String → String
  | "graph" => "Build and print the visualization graph of a document"
  | "resolve" => "Print the value stored at a path"
  | "remove" => "Remove the node at a path and print the resulting document"
  | "capabilities" => "Print the edits the editor offers for a processor"
  | "expression" => "Print the expression held by the object at a path"
  | _ => "Print this message or the help of the given subcommand(s)"

/-- Names and what is said of them in two columns, the second one aligned. -/
def table (heading : String) (rows : List (String × String)) : String :=
  let width := (rows.map (·.1.length)).foldl max 0
  heading ++ ":\n" ++ String.join (rows.map fun (name, text) =>
    "  " ++ name ++ String.ofList (List.replicate (width - name.length) ' ') ++ "  " ++
      text ++ "\n")

/-- The options that every command takes, and the one for help. -/
def commonRows : List (String × String) :=
  [ ("    --json", "Print JSON instead of human-readable output"),
    ("-v, --verbose", "Raise the log level to debug (overridden by RUST_LOG)"),
    ("    --catalog <CATALOG>",
      "Optional JSON catalog merged over the default processor catalog"),
    ("-h, --help", "Print help") ]

/-- The options that only one command takes. -/
def ownRows : String → List (String × String)
  | "graph" => [("    --path <PATH>", "Only the subtree rooted at this path")]
  | "remove" => [("-i, --in-place", "Write the result back to the file")]
  | "capabilities" => [("    --root", "Resolve for the root of a flow")]
  | _ => []

/-- The operands of a command. -/
def operandNames : String → List String
  | "graph" => ["<FILE>"]
  | "capabilities" => ["<PROCESSOR>"]
  | _ => ["<FILE>", "<PATH>"]

/-- The help on the program. -/
def programHelp : String :=
  "A path-addressable document model for visual integration-flow editors\n\n" ++
  "Usage: " ++ programName ++ " [OPTIONS] <COMMAND>\n\n" ++
  table "Commands" (outerLevel.commands.map fun command => (command, purpose command)) ++ "\n" ++
  table "Options" (commonRows ++ [("-V, --version", "Print version")])

/-- The help on help. -/
def helpHelp : String :=
  purpose "help" ++ "\n\nUsage: " ++ programName ++ " help [COMMAND]...\n\n" ++
  table "Arguments" [("[COMMAND]...", "Print help for the subcommand(s)")]

/-- The help on a command. -/
def commandHelp (command : String) : String :=
  if command = "help" then helpHelp
  else
    purpose command ++ "\n\nUsage: " ++ programName ++ " " ++ command ++ " [OPTIONS] " ++
    " ".intercalate (operandNames command) ++ "\n\n" ++
    table "Arguments" ((operandNames command).map fun name => (name, "")) ++ "\n" ++
    table "Options" (ownRows command ++ commonRows)

end CommandLine

end FlowTree
