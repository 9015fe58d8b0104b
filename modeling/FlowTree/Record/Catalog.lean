import FlowTree.Catalog.Basic
import FlowTree.Record.Basic

/-!
# FlowTree.Record.Catalog

Catalog entries and catalog files as JSON.

* `Catalog.merge` — lays the entries of a file over a catalog, up to the first
  entry without a name;
* `Catalog.extend`, `Catalog.ofString` — the same from a text.
-/

namespace FlowTree

open Record

/-! ## Entries -/

namespace StepsKind

/-- The names of shapes; one of them is an older name. -/
def names : List (String × StepsKind) :=
  [ ("single-clause", .singleClause), ("array", .clauseArray), ("array-clause", .clauseArray),
    ("branch", .branch) ]

/-- A shape read by name. -/
def ofText? : JsonText → Option StepsKind := oneOf names

/-- A shape as its name. -/
def toJson : StepsKind → Json
  | .singleClause => .str "single-clause"
  | .clauseArray => .str "array"
  | .branch => .str "branch"

end StepsKind

namespace StepsProperty

/-- A steps property read from a record. -/
def ofText? (text : JsonText) : Option StepsProperty := do
  match ← slots? ["name", "type"] 2 text with
  | [name, kind] => return ⟨← required string? name, ← required StepsKind.ofText? kind⟩
  | _ => none

/-- A steps property as a record. -/
def toJson (p : StepsProperty) : Json := .obj [("name", .str p.name), ("type", p.kind.toJson)]

end StepsProperty

namespace ProcessorEntry

/-- A processor read from a record. -/
def ofText? (text : JsonText) : Option ProcessorEntry := do
  match ← slots? ["name", "title", "icon", "description", "stepsProperties"] 2 text with
  | [name, title, icon, description, properties] =>
    return ⟨← required string? name, ← required string? title, ← optional string? icon,
      ← optional string? description, ← listOrEmpty StepsProperty.ofText? properties⟩
  | _ => none

/-- A processor as a record. -/
def toJson (p : ProcessorEntry) : Json :=
  .obj [ ("name", .str p.name), ("title", .str p.title), ("icon", stringOrNull p.icon),
    ("description", stringOrNull p.description),
    ("stepsProperties", .arr (p.stepsProperties.map StepsProperty.toJson)) ]

end ProcessorEntry

namespace ComponentEntry

/-- A component read from a record. -/
def ofText? (text : JsonText) : Option ComponentEntry := do
  match ← slots? ["name", "title", "icon", "description"] 2 text with
  | [name, title, icon, description] =>
    return ⟨← required string? name, ← required string? title, ← optional string? icon,
      ← optional string? description⟩
  | _ => none

/-- A component as a record. -/
def toJson (c : ComponentEntry) : Json :=
  .obj [ ("name", .str c.name), ("title", .str c.title), ("icon", stringOrNull c.icon),
    ("description", stringOrNull c.description) ]

end ComponentEntry

/-! ## Files -/

/-- Why entries are not taken: the text is no catalog, or an entry, given by its
title, has no name. -/
inductive CatalogError where
  | malformed
  | namelessProcessor (title : String)
  | namelessComponent (title : String)
  | namelessLanguage (title : String)
  deriving DecidableEq, Repr

namespace CatalogError

/-- The wording of a fault in an entry. -/
def invalidEntry (title reason : String) : String :=
  "Catalog entry '" ++ title ++ "' is invalid: " ++ reason

/-- The wording of a fault; that of a malformed text is up to its reader. -/
def message : CatalogError → String
  | malformed => "Failed to parse catalog JSON"
  | namelessProcessor title => invalidEntry title "processor name must not be empty"
  | namelessComponent title => invalidEntry title "component name must not be empty"
  | namelessLanguage title => invalidEntry title "language id and model name must not be empty"

end CatalogError

/-- The entries of a catalog file. -/
structure CatalogFile where
  processors : List ProcessorEntry
  components : List ComponentEntry
  deriving DecidableEq, Repr

/-- A catalog file read from a record. -/
def CatalogFile.ofText? (text : JsonText) : Option CatalogFile := do
  match ← slots? ["processors", "components"] 0 text with
  | [processors, components] =>
    return ⟨← listOrEmpty ProcessorEntry.ofText? processors,
      ← listOrEmpty ComponentEntry.ofText? components⟩
  | _ => none

namespace Catalog

/-- Inserts components up to the first one without a name. -/
def mergeComponents (c : Catalog) : List ComponentEntry → Catalog × Option CatalogError
  | [] => (c, none)
  | entry :: rest =>
    if entry.name.isEmpty then (c, some (.namelessComponent entry.title))
    else (c.insertComponent entry).mergeComponents rest

/-- Inserts processors up to the first one without a name, and then components. -/
def mergeEntries (c : Catalog) (components : List ComponentEntry) :
    List ProcessorEntry → Catalog × Option CatalogError
  | [] => c.mergeComponents components
  | entry :: rest =>
    if entry.name.isEmpty then (c, some (.namelessProcessor entry.title))
    else (c.insertProcessor entry).mergeEntries components rest

/-- Lays the entries of a file over a catalog, up to the first one without a name;
the entries before it stay. -/
def merge (c : Catalog) (file : CatalogFile) : Catalog × Option CatalogError :=
  c.mergeEntries file.components file.processors

/-- Lays the catalog file in a text over a catalog. -/
def extend (c : Catalog) (text : String) : Catalog × Option CatalogError :=
  match (JsonText.ofString? text).bind CatalogFile.ofText? with
  | some file => c.merge file
  | none => (c, some .malformed)

/-- The catalog of a text. -/
def ofString (text : String) : Except CatalogError Catalog :=
  match empty.extend text with
  | (c, none) => .ok c
  | (_, some error) => .error error

end Catalog

end FlowTree
