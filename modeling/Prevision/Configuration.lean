import Prevision.Reasoner
import Prevision.Text.Blank
import Prevision.Toml.Document

/-!
# Configurations

A configuration says how much work a reasoner may take, and how much of it is
logged. It is read from a text of settings in three tables: `logging` with
`level` and `json`, `solver` with `max_pivots`, and `enumeration` with
`max_rays`. What a text does not set has its usual value, and settings with
other names have no meaning here. A table may also be given as a list of its
values in this order, and a date in place of a table sets nothing.

A level is one of five words in any case, or a filter directive, which is
recognized by an equals sign. Both limits are positive.
-/

namespace Prevision

/-- What is logged and how, and the limits of a reasoner. -/
structure Configuration where
  level : String := "info"
  json : Bool := true
  limits : Limits := {}
  deriving DecidableEq

namespace Configuration

/-- Why a text is no configuration. -/
inductive Fault where
  /-- The text is not well formed, or a setting has a value of the wrong kind. -/
  | unreadable
  | emptyLevel
  /-- The level is neither a word nor a directive. -/
  | unknownLevel (level : String)
  | noPivots
  | noRays
  deriving DecidableEq

/-- The words for levels. -/
def levels : List String := ["trace", "debug", "info", "warn", "error"]

/-- What a fault is reported as. -/
def Fault.message : Fault → String
  | unreadable => "Failed to parse engine configuration"
  | emptyLevel => "logging.level must not be empty"
  | unknownLevel level =>
    "logging.level must be one of [" ++ String.intercalate ", " (levels.map Text.quote) ++
      "] or a filter directive, got " ++ Text.quote level
  | noPivots => "solver.max_pivots must be positive"
  | noRays => "enumeration.max_rays must be positive"

/-- The setting of a table under one of its names, or at its position in a list of values. -/
def setting? (names : List String) (name : String) : Toml.Node → Except Fault (Option Toml.Node)
  | .table _ entries => .ok (Toml.Entries.find? entries name)
  | .list items => .ok ((names.findIdx? (· == name)).bind (items[·]?))
  | .moment => .ok none
  | _ => .error .unreadable

/-- The text, truth value or number that a setting asks for. -/
def asText : Toml.Node → Except Fault String
  | .text s => .ok s
  | _ => .error .unreadable

/-- A truth value. -/
def asBool : Toml.Node → Except Fault Bool
  | .boolean b => .ok b
  | _ => .error .unreadable

/-- A number that is not negative. -/
def asNat : Toml.Node → Except Fault Nat
  | .integer (.ofNat n) => .ok n
  | _ => .error .unreadable

/-- Reads a setting of a table, which has a usual value. -/
def field {α : Type} (root : Toml.Entries) (table : String) (names : List String) (name : String)
    (read : Toml.Node → Except Fault α) (usual : α) : Except Fault α :=
  match root.find? table with
  | none => .ok usual
  | some node => do
    match ← setting? names name node with
    | none => return usual
    | some value => read value

/-- The configuration that settings make, whatever its values. -/
def ofEntries (root : Toml.Entries) : Except Fault Configuration := do
  let usual : Configuration := {}
  let logging := ["level", "json"]
  let level ← field root "logging" logging "level" asText usual.level
  let json ← field root "logging" logging "json" asBool usual.json
  let maxPivots ← field root "solver" ["max_pivots"] "max_pivots" asNat usual.limits.maxPivots
  let maxRays ← field root "enumeration" ["max_rays"] "max_rays" asNat usual.limits.maxRays
  return ⟨level, json, ⟨maxPivots, maxRays⟩⟩

/-- The level without the blanks around it. -/
def trimmedLevel (c : Configuration) : List Char := Text.trim c.level.toList

/-- The first fault of a configuration. -/
def fault? (c : Configuration) : Option Fault :=
  let level := c.trimmedLevel
  if level.isEmpty then some .emptyLevel
  else if !(level.contains '=' || levels.contains (String.ofList (level.map Char.toLower))) then
    some (.unknownLevel (String.ofList level))
  else if c.limits.maxPivots = 0 then some .noPivots
  else if c.limits.maxRays = 0 then some .noRays
  else none

/-- Reads a configuration from a text. -/
def parse (s : String) : Except Fault Configuration :=
  match Toml.read? s with
  | none => .error .unreadable
  | some root => do
    let c ← ofEntries root
    match c.fault? with
    | some fault => .error fault
    | none => return c

/-- Why a file holds no configuration. -/
inductive LoadFault where
  /-- The file cannot be read. -/
  | missing (path : String)
  /-- Its text is no configuration. -/
  | invalid (path : String) (fault : Fault)
  deriving DecidableEq

/-- What a fault of a file is reported as, from the outside in. -/
def LoadFault.messages : LoadFault → List String
  | missing path => ["Failed to read config file: " ++ path]
  | invalid path fault => ["Invalid config file: " ++ path, fault.message]

/-- Reads a configuration from the file at a path, given its text if it can be read. -/
def load (path : String) (content : Option String) : Except LoadFault Configuration :=
  match content with
  | none => .error (.missing path)
  | some s =>
    match parse s with
    | .ok c => .ok c
    | .error fault => .error (.invalid path fault)

/-- The exact reasoner within the limits of a configuration. -/
def reasoner (c : Configuration) : Reasoner Id := .within c.limits

end Configuration

end Prevision
