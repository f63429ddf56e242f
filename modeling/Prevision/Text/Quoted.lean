import Prevision.Text.Hidden

/-!
# Quoted texts

A quoted text stands between double quotes. Inside, a backslash begins an
escape: for the quote, the backslash, the four controls that have a letter,
and, by code point, every character without a glyph of its own.
-/

namespace Prevision.Text

/-- The code point of a character in braces, in lower-case hexadecimal without leading zeros. -/
def codePoint (c : Char) : String :=
  "\\u\x7b" ++ String.ofList (Nat.toDigits 16 c.toNat) ++ "\x7d"

/-- How a character stands inside a quoted text. -/
def quoteChar (c : Char) : String :=
  if c = '"' then "\\\""
  else if c = '\\' then "\\\\"
  else if c = '\x00' then "\\0"
  else if c = '\t' then "\\t"
  else if c = '\n' then "\\n"
  else if c = '\r' then "\\r"
  else if isHidden c then codePoint c
  else c.toString

/-- The text between quotes, with its characters escaped where needed. -/
def quote (s : String) : String :=
  "\"" ++ s.toList.foldr (fun c rest => quoteChar c ++ rest) "" ++ "\""

example : quote "a\u0301" = "\"a\\u\x7b301\x7d\"" := by decide +kernel

end Prevision.Text
