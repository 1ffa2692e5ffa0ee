import Keyczar.Cpp.Values

/-!
# `json_writer.cc` and `string_escape.cc`

The text of a value, compact or with line ends and indentation. The writer looks the value of a key up with `Get`; of a key without dots
that is the value of its entry.
-/

namespace Cpp

namespace StringEscape

/-- `JavascriptSingleEscapeChar`. -/
def javascriptSingleEscapeChar (c : UInt8) : Option Bytes :=
  if c = 8 then some (asciiString "\\b")
  else if c = 12 then some (asciiString "\\f")
  else if c = 10 then some (asciiString "\\n")
  else if c = 13 then some (asciiString "\\r")
  else if c = 9 then some (asciiString "\\t")
  else if c = 11 then some (asciiString "\\v")
  else if c = ascii '\\' then some (asciiString "\\\\")
  else if c = ascii '"' then some (asciiString "\\\"")
  else none

/-- A hexadecimal digit, as `%X` prints it. -/
def hexDigit (n : Nat) : UInt8 := if n < 10 then UInt8.ofNat (48 + n) else UInt8.ofNat (55 + n)

/-- What `JavascriptDoubleQuote` appends for a character. -/
def quoteChar (c : UInt8) : Bytes :=
  match javascriptSingleEscapeChar c with
  | some escaped => escaped
  | none =>
    -- Hex encode if the character is non-printable 7bit ascii
    if c < 32 ∨ c = 127 then asciiString "\\x" ++ [hexDigit (c.toNat / 16), hexDigit (c.toNat % 16)] else [c]

/-- `JavascriptDoubleQuote` in quotes. -/
def javascriptDoubleQuote (str : Bytes) : Bytes := ascii '"' :: str.flatMap quoteChar ++ [ascii '"']

end StringEscape

namespace JSONWriter

open StringEscape

def kPrettyPrintLineEnding : Bytes := asciiString "\r\n"

/-- What is appended only if the text is for people. -/
def ifPretty (prettyPrint : Bool) (s : Bytes) : Bytes := if prettyPrint then s else []

/-- `IndentLine`. -/
def indentLine (depth : Nat) : Bytes := List.replicate (depth * 3) (ascii ' ')

mutual

/-- `BuildJSONString`. -/
def buildJSONString (prettyPrint : Bool) (depth : Nat) : Value → Bytes
  | .null => asciiString "null"
  | .boolean b => if b then asciiString "true" else asciiString "false"
  | .integer n => intToString n
  | .string s => javascriptDoubleQuote s
  | .list values =>
    asciiString "[" ++ ifPretty prettyPrint (asciiString " ") ++ buildList prettyPrint depth values ++
      ifPretty prettyPrint (asciiString " ") ++ asciiString "]"
  | .dictionary entries =>
    asciiString "\x7b" ++ ifPretty prettyPrint kPrettyPrintLineEnding ++ buildDictionary prettyPrint depth entries ++
      ifPretty prettyPrint (kPrettyPrintLineEnding ++ indentLine depth) ++ asciiString "\x7d"

/-- The loop over a list, from the first value on. -/
def buildList (prettyPrint : Bool) (depth : Nat) : List Value → Bytes
  | [] => []
  | value :: values => buildJSONString prettyPrint depth value ++ buildRest prettyPrint depth values

/-- The loop over a list, behind the first value. -/
def buildRest (prettyPrint : Bool) (depth : Nat) : List Value → Bytes
  | [] => []
  | value :: values =>
    asciiString "," ++ ifPretty prettyPrint (asciiString " ") ++ buildJSONString prettyPrint depth value ++
      buildRest prettyPrint depth values

/-- An entry. -/
def buildEntry (prettyPrint : Bool) (depth : Nat) : Bytes × Value → Bytes
  | (key, value) =>
    ifPretty prettyPrint (indentLine (depth + 1)) ++ javascriptDoubleQuote key ++
      (if prettyPrint then asciiString ": " else asciiString ":") ++ buildJSONString prettyPrint (depth + 1) value

/-- The loop over a dictionary, from the first key on. -/
def buildDictionary (prettyPrint : Bool) (depth : Nat) : List (Bytes × Value) → Bytes
  | [] => []
  | entry :: entries => buildEntry prettyPrint depth entry ++ buildEntries prettyPrint depth entries

/-- The loop over a dictionary, behind the first entry. -/
def buildEntries (prettyPrint : Bool) (depth : Nat) : List (Bytes × Value) → Bytes
  | [] => []
  | entry :: entries =>
    asciiString "," ++ ifPretty prettyPrint kPrettyPrintLineEnding ++ buildEntry prettyPrint depth entry ++
      buildEntries prettyPrint depth entries

end

/-- `Write`. -/
def write (node : Value) (prettyPrint : Bool) : Bytes :=
  buildJSONString prettyPrint 0 node ++ ifPretty prettyPrint kPrettyPrintLineEnding

end JSONWriter

end Cpp
