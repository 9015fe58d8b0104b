/-!
# FlowTree.CommandLine.Arguments

Reading command lines: options, a command, and the options and operands of the
command.

Options that every command takes may stand before or after the command; a value
given behind it wins.  An option stands at most once on either side, and all words
behind `--` are operands.

A value that is a word of its own is entered when its side goes on.  One that stands
right before the command is therefore entered last, after the words of the command,
and help on the command comes before the complaint that the option stands twice.

* `Found.settle` — entering the value that was read last;
* `Level.read` — the words of one side, up to a command;
* `Request.ofArguments` — the request that a command line makes.
-/

namespace FlowTree

namespace CommandLine

/-! ## Words -/

/-- What a word of a command line is by its form. -/
inductive Word where
  | escape
  | long (name : String) (value : Option String)
  | short (letters : List Char)
  | plain
  deriving DecidableEq, Repr

/-- The form of a word; a single dash is a plain one. -/
def Word.of (word : String) : Word :=
  match word.toList with
  | ['-', '-'] => .escape
  | '-' :: '-' :: rest =>
    let name := String.ofList (rest.takeWhile (· ≠ '='))
    match rest.dropWhile (· ≠ '=') with
    | [] => .long name none
    | _ :: value => .long name (some (String.ofList value))
  | '-' :: c :: rest => .short (c :: rest)
  | _ => .plain

/-! ## Levels -/

/-- Why reading ends before a request is complete. -/
inductive Stop where
  | misuse
  | help
  | version
  deriving DecidableEq, Repr

/-- What one side of a command understands: flags by name and letter, options with
a value, how many operands, and which commands may follow. -/
structure Level where
  flags : List (String × Option Char)
  valued : List String
  operands : Nat
  commands : List String
  deriving DecidableEq, Repr

/-- What was found on one side of a command.  `pending` is an option whose value, a
word of its own, was read last and is not entered yet. -/
structure Found where
  flags : List String
  values : List (String × String)
  operands : List String
  pending : Option (String × String)
  deriving DecidableEq, Repr

namespace Found

/-- Nothing found. -/
def empty : Found := ⟨[], [], [], none⟩

/-- Enters the value of an option that was not given before. -/
def enter (found : Found) (name value : String) : Except Stop Found :=
  if (found.values.lookup name).isNone then
    .ok { found with values := (name, value) :: found.values }
  else .error .misuse

/-- Enters the pending value. -/
def settle (found : Found) : Except Stop Found :=
  match found.pending with
  | none => .ok found
  | some (name, value) => enter { found with pending := none } name value

end Found

namespace Level

/-- A flag: one of those that end the reading, or one that was not given before. -/
def takeFlag (level : Level) (found : Found) (name : String) : Except Stop Found :=
  if (level.flags.lookup name).isNone || found.flags.contains name then .error .misuse
  else if name = "help" then .error .help
  else if name = "version" then .error .version
  else .ok { found with flags := name :: found.flags }

/-- Flags by their letters. -/
def takeLetters (level : Level) (found : Found) : List Char → Except Stop Found
  | [] => .ok found
  | c :: rest =>
    match level.flags.find? (·.2 == some c) with
    | some (name, _) => do takeLetters level (← level.takeFlag found name) rest
    | none => .error .misuse

/-- An option with its value in the same word. -/
def takeValue (level : Level) (found : Found) (name value : String) : Except Stop Found :=
  if level.valued.contains name then found.enter name value else .error .misuse

/-- Operands, as many as the level has room for. -/
def takeOperands (level : Level) (found : Found) (words : List String) : Except Stop Found :=
  if found.operands.length + words.length ≤ level.operands then
    .ok { found with operands := found.operands ++ words }
  else .error .misuse

/-- Reads words up to a command.  What is left begins with the command, and a value
right before it stays pending. -/
def read (level : Level) (found : Found) : List String → Except Stop (Found × List String)
  | [] => do return (← found.settle, [])
  | word :: rest =>
    if level.commands.contains word then .ok (found, word :: rest)
    else do
      let found ← found.settle
      match Word.of word with
      | .escape => return (← level.takeOperands found rest, [])
      | .short letters => read level (← level.takeLetters found letters) rest
      | .plain => read level (← level.takeOperands found [word]) rest
      | .long name (some value) => read level (← level.takeValue found name value) rest
      | .long name none =>
        if level.valued.contains name then
          match rest with
          | value :: rest =>
            if Word.of value = .plain then
              read level { found with pending := some (name, value) } rest
            else .error .misuse
          | [] => .error .misuse
        else read level (← level.takeFlag found name) rest

end Level

/-! ## Requests -/

/-- A command with its operands and options. -/
inductive Command where
  | graph (file : String) (path : Option String)
  | resolve (file path : String)
  | remove (file path : String) (inPlace : Bool)
  | capabilities (processor : String) (root : Bool)
  | expression (file path : String)
  deriving DecidableEq, Repr

/-- A command to carry out, with the options that all commands take.  `verbose` asks
for more of a log; what a command prints does not hang on it. -/
structure Invocation where
  command : Command
  json : Bool
  verbose : Bool
  catalog : Option String
  deriving DecidableEq, Repr

/-- What a command line asks for. -/
inductive Request where
  | carryOut (invocation : Invocation)
  /-- Help on the program, or on one of its commands. -/
  | help (command : Option String)
  | version
  | misuse
  deriving DecidableEq, Repr

/-- The commands. -/
def commands : List String := ["graph", "resolve", "remove", "capabilities", "expression"]

/-- The flags that stand on either side of a command. -/
def commonFlags : List (String × Option Char) :=
  [("json", none), ("verbose", some 'v'), ("help", some 'h')]

/-- What is understood before a command. -/
def outerLevel : Level :=
  { flags := commonFlags ++ [("version", some 'V')]
    valued := ["catalog"]
    operands := 0
    commands := commands ++ ["help"] }

/-- What a command understands. -/
def innerLevel (command : String) : Level :=
  { flags := commonFlags ++ (match command with
      | "remove" => [("in-place", some 'i')]
      | "capabilities" => [("root", none)]
      | _ => [])
    valued := "catalog" :: (if command = "graph" then ["path"] else [])
    operands := if command = "graph" ∨ command = "capabilities" then 1 else 2
    commands := [] }

/-- A command with what was found behind it; all its operands are needed. -/
def Command.ofFound? (command : String) (found : Found) : Option Command :=
  match command, found.operands with
  | "graph", [file] => some (.graph file (found.values.lookup "path"))
  | "resolve", [file, path] => some (.resolve file path)
  | "remove", [file, path] => some (.remove file path (found.flags.contains "in-place"))
  | "capabilities", [processor] => some (.capabilities processor (found.flags.contains "root"))
  | "expression", [file, path] => some (.expression file path)
  | _, _ => none

namespace Request

/-- Help on what the words behind `help` name, the help on help included. -/
def ofTopics : List String → Request
  | [] => .help none
  | [topic] => if outerLevel.commands.contains topic then .help (some topic) else .misuse
  | _ => .misuse

/-- The request of a command with the words behind it. -/
def ofCommand (outer : Found) (command : String) (words : List String) : Request :=
  match (innerLevel command).read .empty words with
  | .error .misuse => .misuse
  | .error .help => .help (some command)
  | .error .version => .version
  | .ok (inner, _) =>
    match Command.ofFound? command inner, outer.settle with
    | some c, .ok outer =>
      let flagged (name : String) := outer.flags.contains name || inner.flags.contains name
      .carryOut
        { command := c
          json := flagged "json"
          verbose := flagged "verbose"
          catalog := (inner.values.lookup "catalog").or (outer.values.lookup "catalog") }
    | _, _ => .misuse

/-- The request that a command line makes. -/
def ofArguments (words : List String) : Request :=
  match outerLevel.read .empty words with
  | .error .misuse => .misuse
  | .error .help => .help none
  | .error .version => .version
  | .ok (_, []) => .misuse
  | .ok (_, "help" :: topics) => ofTopics topics
  | .ok (outer, command :: words) => ofCommand outer command words

end Request

end CommandLine

end FlowTree
