/-!
# Names and texts of settings

The smallest parts of a text in the TOML format. Each reader takes its part
off the front of the text and hands back the rest; the texts in quotes are
read from behind their opening quotes.

A line ends with a line feed, which may have a carriage return before it. A
carriage return anywhere else is an error.
-/

namespace Prevision.Toml

/-- Whether a character may stand in a comment or between quotes: no control but the tab. -/
def isPlain (c : Char) : Bool := c == '\t' || (0x20 ≤ c.toNat && c.toNat != 0x7f)

/-- Takes the blanks of a line off the front. -/
def skipBlanks (cs : List Char) : List Char := cs.dropWhile fun c => c == ' ' || c == '\t'

/-- Takes a line break off the front. -/
def lineBreak? : List Char → Option (List Char)
  | '\n' :: rest => some rest
  | '\r' :: '\n' :: rest => some rest
  | _ => none

/-- Takes a comment off the front, if there is one. -/
def skipComment : List Char → List Char
  | '#' :: rest => rest.dropWhile isPlain
  | cs => cs

/-- Takes blanks, comments and line breaks off the front. -/
def skipLines : Nat → List Char → List Char
  | 0, cs => cs
  | fuel + 1, cs =>
    let rest := skipComment (skipBlanks cs)
    match lineBreak? rest with
    | some rest => skipLines fuel rest
    | none => rest

/-- The value of a hexadecimal digit. -/
def hexDigit? (c : Char) : Option Nat :=
  if c.isDigit then some (c.toNat - '0'.toNat)
  else if 'a' ≤ c ∧ c ≤ 'f' then some (c.toNat - 'a'.toNat + 10)
  else if 'A' ≤ c ∧ c ≤ 'F' then some (c.toNat - 'A'.toNat + 10)
  else none

/-- The character of a code point, unless it is half of a pair or too large. -/
def codePoint? (cs : List Char) : Option Char := do
  let n ← cs.foldlM (fun n c => return 16 * n + (← hexDigit? c)) 0
  if n.isValidChar then some (Char.ofNat n) else none

/-- Reads an escape from behind its backslash. -/
def escape? : List Char → Option (Char × List Char)
  | 'b' :: rest => some ('\x08', rest)
  | 't' :: rest => some ('\t', rest)
  | 'n' :: rest => some ('\n', rest)
  | 'f' :: rest => some ('\x0c', rest)
  | 'r' :: rest => some ('\r', rest)
  | '"' :: rest => some ('"', rest)
  | '\\' :: rest => some ('\\', rest)
  | 'u' :: rest =>
    if rest.length < 4 then none else (codePoint? (rest.take 4)).map (·, rest.drop 4)
  | 'U' :: rest =>
    if rest.length < 8 then none else (codePoint? (rest.take 8)).map (·, rest.drop 8)
  | _ => none

/-- Reads to the closing quote of a line, with escapes if the quote is a double one. -/
def line? (quote : Char) : Nat → List Char → Option (List Char × List Char)
  | 0, _ => none
  | _, [] => none
  | fuel + 1, c :: rest =>
    if c == quote then some ([], rest)
    else if c == '\\' && quote == '"' then do
      let (c, rest) ← escape? rest
      let (cs, rest) ← line? quote fuel rest
      return (c :: cs, rest)
    else if isPlain c then do
      let (cs, rest) ← line? quote fuel rest
      return (c :: cs, rest)
    else none

/-- Takes blanks and line breaks off the front. -/
def skipSpace : List Char → List Char
  | ' ' :: rest => skipSpace rest
  | '\t' :: rest => skipSpace rest
  | '\n' :: rest => skipSpace rest
  | '\r' :: '\n' :: rest => skipSpace rest
  | cs => cs

/-- Reads to the three closing quotes of a text of several lines. Up to two more quotes before them
are part of the text, and a backslash at the end of a line joins it with what follows. -/
def lines? (quote : Char) : Nat → List Char → Option (List Char × List Char)
  | 0, _ => none
  | _, [] => none
  | fuel + 1, c :: rest =>
    if c == quote then
      let run := (c :: rest).takeWhile (· == quote)
      let after := (c :: rest).dropWhile (· == quote)
      if run.length < 3 then do
        let (cs, rest) ← lines? quote fuel after
        return (run ++ cs, rest)
      else if run.length < 6 then some (run.drop 3, after)
      else none
    else if c == '\\' && quote == '"' then
      match lineBreak? (skipBlanks rest) with
      | some rest => lines? quote fuel (skipSpace rest)
      | none => do
        let (c, rest) ← escape? rest
        let (cs, rest) ← lines? quote fuel rest
        return (c :: cs, rest)
    else if isPlain c then do
      let (cs, rest) ← lines? quote fuel rest
      return (c :: cs, rest)
    else do
      let rest ← lineBreak? (c :: rest)
      let (cs, rest) ← lines? quote fuel rest
      return ('\n' :: cs, rest)

/-- Reads a text in quotes of either kind, on one line or several. -/
def quoted? (cs : List Char) : Option (String × List Char) :=
  let text (r : List Char × List Char) : String × List Char := (String.ofList r.1, r.2)
  let several (quote : Char) (rest : List Char) :=
    (lines? quote cs.length ((lineBreak? rest).getD rest)).map text
  match cs with
  | '"' :: '"' :: '"' :: rest => several '"' rest
  | '\'' :: '\'' :: '\'' :: rest => several '\'' rest
  | '"' :: rest => (line? '"' cs.length rest).map text
  | '\'' :: rest => (line? '\'' cs.length rest).map text
  | _ => none

/-- Whether a character may stand in a name without quotes. -/
def isBare (c : Char) : Bool := c.isAlphanum || c == '_' || c == '-'

/-- Reads a name, in quotes or without. -/
def name? (cs : List Char) : Option (String × List Char) :=
  match cs with
  | '"' :: rest => (line? '"' cs.length rest).map fun r => (String.ofList r.1, r.2)
  | '\'' :: rest => (line? '\'' cs.length rest).map fun r => (String.ofList r.1, r.2)
  | _ =>
    let bare := cs.takeWhile isBare
    if bare.isEmpty then none else some (String.ofList bare, cs.dropWhile isBare)

/-- Reads a dotted name of at most so many parts, with blanks around its dots, as its parts before
the last and the last. -/
def nameParts? : Nat → List Char → Option (List String × String × List Char)
  | 0, _ => none
  | most + 1, cs => do
    let (part, rest) ← name? (skipBlanks cs)
    match skipBlanks rest with
    | '.' :: rest => do
      let (path, last, rest) ← nameParts? most rest
      return (part :: path, last, rest)
    | rest => return ([], part, rest)

/-- How many tables and lists may enclose a value, and how many parts a dotted name may have. -/
def depthLimit : Nat := 79

/-- Reads a dotted name. -/
def dottedName? (cs : List Char) : Option (List String × String × List Char) :=
  nameParts? depthLimit cs

end Prevision.Toml
