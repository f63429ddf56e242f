/-!
# Trees of settings

What a configuration text in the TOML format holds: tables of named values,
which may be tables again. A table remembers how it came to be, for that
decides what may still be added to it.

* A table in braces is closed.
* A table with a header of its own gets its entries below that header, once.
* A table that only headers of tables inside it have named can still get a
  header.
* A table that dotted names have made can only get entries by more dotted
  names.
* The tables of a repeated header are told apart by their order, and a name
  on the way to another table means the last of them.

No name is given twice in a table.
-/

namespace Prevision.Toml

/-- How a table came to be. -/
inductive Origin where
  | braces
  | header
  | parentOfHeader
  | dottedName
  deriving DecidableEq

/-- A value or a table. -/
inductive Node where
  | text (s : String)
  | integer (z : Int)
  | boolean (b : Bool)
  | float
  /-- A date, a time or both. -/
  | moment
  | list (items : List Node)
  | table (origin : Origin) (entries : List (String × Node))
  /-- The tables of repeated headers in double brackets. -/
  | tables (items : List (List (String × Node)))

/-- The entries of a table, in the order in which they were given. -/
abbrev Entries := List (String × Node)

namespace Entries

/-- The value of a name. -/
def find? (entries : Entries) (name : String) : Option Node :=
  (List.find? (·.1 == name) entries).map Prod.snd

/-- The entries with another value for a name that is there. -/
def replace (entries : Entries) (name : String) (node : Node) : Entries :=
  entries.map fun e => if e.1 == name then (name, node) else e

/-- Adds a name that is not there yet. -/
def add? (entries : Entries) (name : String) (node : Node) : Option Entries :=
  if (find? entries name).isSome then none else some (entries ++ [(name, node)])

/-- Adds the value of a dotted name, in a table that dotted names make. On the way to that table
they may pass through tables that are there because of the headers of others. -/
def addDotted? : List String → String → Node → Entries → Option Entries
  | [], name, node, entries => add? entries name node
  | part :: path, name, node, entries =>
    match find? entries part with
    | none => do
      let inner ← addDotted? path name node []
      return entries ++ [(part, .table .dottedName inner)]
    | some (.table .dottedName inner) => do
      return replace entries part (.table .dottedName (← addDotted? path name node inner))
    | some (.table .parentOfHeader inner) =>
      if path.isEmpty then none
      else do
        return replace entries part (.table .parentOfHeader (← addDotted? path name node inner))
    | some (.tables items) =>
      match path, items.getLast? with
      | _ :: _, some last => do
        return replace entries part
          (.tables (items.dropLast ++ [← addDotted? path name node last]))
      | _, _ => none
    | some _ => none

/-- Changes the entries of the table that a header names, of the last one for a repeated header. -/
def update? (change : Entries → Option Entries) : List String → Entries → Option Entries
  | [], entries => change entries
  | part :: path, entries =>
    match find? entries part with
    | none => do
      let inner ← update? change path []
      return entries ++ [(part, .table .parentOfHeader inner)]
    | some (.table .braces _) => none
    | some (.table origin inner) => do
      return replace entries part (.table origin (← update? change path inner))
    | some (.tables items) =>
      match items.getLast? with
      | none => none
      | some last => do
        return replace entries part (.tables (items.dropLast ++ [← update? change path last]))
    | some _ => none

/-- Opens a table with a header. -/
def openTable? (name : String) (entries : Entries) : Option Entries :=
  match find? entries name with
  | none => some (entries ++ [(name, .table .header [])])
  | some (.table .parentOfHeader inner) => some (replace entries name (.table .header inner))
  | some _ => none

/-- Opens one more table of a repeated header. -/
def openRepeated? (name : String) (entries : Entries) : Option Entries :=
  match find? entries name with
  | none => some (entries ++ [(name, .tables [[]])])
  | some (.tables items) => some (replace entries name (.tables (items ++ [[]])))
  | some _ => none

end Entries

end Prevision.Toml
