import Prevision.Toml.Moment
import Prevision.Toml.Node
import Prevision.Toml.Number

/-!
# Texts of settings

A text in the TOML format is read line by line: a setting, which is a dotted
name and a value, a header in brackets that opens a table, a repeated header
in double brackets, or nothing, each with an optional comment. Values are
texts, integers, floating-point numbers, truth values, dates and times, lists
in brackets and tables in braces. Lists and tables lie inside each other to a
limited depth.
-/

namespace Prevision.Toml

/-- Reads a value without quotes or brackets. -/
def word? (cs : List Char) : Option (Node × List Char) :=
  let isWord (c : Char) : Bool := isBare c || c == '+' || c == '.'
  let word := cs.takeWhile isWord
  let node : Option Node :=
    if word == ['t', 'r', 'u', 'e'] then some (.boolean true)
    else if word == ['f', 'a', 'l', 's', 'e'] then some (.boolean false)
    else if isFloat word then some .float
    else (integer? word).map .integer
  node.map (·, cs.dropWhile isWord)

mutual

/-- Reads a value that at most `depth` more tables and lists may make up. -/
def value? : Nat → Nat → List Char → Option (Node × List Char)
  | 0, _, _ => none
  | fuel + 1, depth, cs =>
    match cs, depth with
    | '[' :: _, 0 => none
    | '{' :: _, 0 => none
    | '[' :: rest, depth + 1 => do
      let (items, rest) ← items? fuel depth rest
      return (.list items, rest)
    | '{' :: rest, depth + 1 =>
      match skipBlanks rest with
      | '}' :: rest => some (.table .braces [], rest)
      | _ => do
        let (entries, rest) ← settings? fuel depth [] rest
        return (.table .braces entries, rest)
    | c :: _, _ =>
      if c == '"' || c == '\'' then (quoted? cs).map fun r => (.text r.1, r.2)
      else match moment? cs with
        | some rest => some (.moment, rest)
        | none => word? cs
    | [], _ => none

/-- Reads the rest of a list in brackets, whose last value may have a comma after it. -/
def items? : Nat → Nat → List Char → Option (List Node × List Char)
  | 0, _, _ => none
  | fuel + 1, depth, cs =>
    match skipLines fuel cs with
    | ']' :: rest => some ([], rest)
    | cs => do
      let (item, rest) ← value? fuel depth cs
      match skipLines fuel rest with
      | ',' :: rest => do
        let (items, rest) ← items? fuel depth rest
        return (item :: items, rest)
      | ']' :: rest => return ([item], rest)
      | _ => none

/-- Reads the rest of a table in braces, after the settings that it has so far. -/
def settings? : Nat → Nat → Entries → List Char → Option (Entries × List Char)
  | 0, _, _, _ => none
  | fuel + 1, depth, entries, cs => do
    let (path, name, node, rest) ← setting? fuel depth cs
    let entries ← entries.addDotted? path name node
    match skipBlanks rest with
    | ',' :: rest => settings? fuel depth entries rest
    | '}' :: rest => return (entries, rest)
    | _ => none

/-- Reads a setting: the dotted name, an equals sign, and the value. -/
def setting? : Nat → Nat → List Char → Option (List String × String × Node × List Char)
  | 0, _, _ => none
  | fuel + 1, depth, cs => do
    let (path, name, rest) ← dottedName? cs
    match skipBlanks rest with
    | '=' :: rest => do
      let (node, rest) ← value? fuel depth (skipBlanks rest)
      return (path, name, node, rest)
    | _ => none

end

/-- A text that is read in part: all tables, and the header that settings go below. -/
structure Reading where
  entries : Entries
  header : List String

/-- Reads the rest of a header, up to its closing brackets. -/
def header? (closing cs : List Char) : Option (List String × String × List Char) := do
  let (path, name, rest) ← dottedName? cs
  if closing.isPrefixOf rest then some (path, name, rest.drop closing.length) else none

/-- Reads the content of one line. -/
def content? (fuel : Nat) (r : Reading) (cs : List Char) : Option (Reading × List Char) :=
  match cs with
  | [] => some (r, cs)
  | '\n' :: _ => some (r, cs)
  | '\r' :: _ => some (r, cs)
  | '#' :: _ => some (r, cs)
  | '[' :: '[' :: rest => do
    let (path, name, rest) ← header? [']', ']'] rest
    return (⟨← r.entries.update? (Entries.openRepeated? name) path, path ++ [name]⟩, rest)
  | '[' :: rest => do
    let (path, name, rest) ← header? [']'] rest
    return (⟨← r.entries.update? (Entries.openTable? name) path, path ++ [name]⟩, rest)
  | _ => do
    let (path, name, node, rest) ← setting? fuel depthLimit cs
    let entries ← r.entries.update? (Entries.addDotted? path name node) r.header
    return ({ r with entries }, rest)

/-- Reads line after line. -/
def lines : Nat → Reading → List Char → Option Entries
  | 0, _, _ => none
  | fuel + 1, r, cs => do
    let (r, rest) ← content? fuel r (skipBlanks cs)
    match skipComment (skipBlanks rest) with
    | [] => return r.entries
    | rest => lines fuel r (← lineBreak? rest)

/-- Reads a text of settings, as the entries of its outermost table. -/
def read? (s : String) : Option Entries :=
  let cs := match s.toList with
    | '\ufeff' :: rest => rest
    | cs => cs
  lines (cs.length + 8) ⟨[], []⟩ cs

end Prevision.Toml
