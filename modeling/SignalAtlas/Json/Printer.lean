import SignalAtlas.Json.Basic
import SignalAtlas.Decimal.Shortest

/-!
# Writing JSON

`Json.pretty` writes a value over several lines, indented by two blanks for each level; an empty
array or object stays on its line. In a text only quotes, backslashes and control characters are
escaped. A number without decimal form is written as `null`.
-/

namespace SignalAtlas.Json

/-- A hexadecimal digit. -/
def hexDigit (n : Nat) : Char := if n < 10 then .ofNat (48 + n) else .ofNat (87 + n)

/-- A character inside quotes. -/
def escape (c : Char) : List Char :=
  match c with
  | '"' => ['\\', '"']
  | '\\' => ['\\', '\\']
  | '\n' => ['\\', 'n']
  | '\r' => ['\\', 'r']
  | '\t' => ['\\', 't']
  | c =>
    if c.toNat = 8 then ['\\', 'b']
    else if c.toNat = 12 then ['\\', 'f']
    else if c.toNat < 32 then
      ['\\', 'u', '0', '0', hexDigit (c.toNat / 16), hexDigit (c.toNat % 16)]
    else [c]

/-- A text between quotes. -/
def quote (s : String) : String := .ofList ('"' :: (s.toList.flatMap escape ++ ['"']))

/-- A line break and the indentation of a level. -/
def newline (level : Nat) : String := .ofList ('\n' :: List.replicate (2 * level) ' ')

mutual

/-- Write a value that stands at a level. -/
def prettyAt : (level : Nat) → Json → String
  | _, .null => "null"
  | _, .bool b => if b then "true" else "false"
  | _, .int n => toString n
  | _, .real x => (Shortest.render? x).getD "null"
  | _, .string s => quote s
  | _, .array [] => "[]"
  | level, .array (v :: l) =>
    "[" ++ newline (level + 1) ++ prettyAt (level + 1) v ++ prettyItems (level + 1) l ++
      newline level ++ "]"
  | _, .object [] => "\x7b\x7d"
  | level, .object ((name, v) :: l) =>
    "\x7b" ++ newline (level + 1) ++ quote name ++ ": " ++ prettyAt (level + 1) v ++
      prettyMembers (level + 1) l ++ newline level ++ "\x7d"

/-- Write the items after the first one. -/
def prettyItems : (level : Nat) → List Json → String
  | _, [] => ""
  | level, v :: l => "," ++ newline level ++ prettyAt level v ++ prettyItems level l

/-- Write the members after the first one. -/
def prettyMembers : (level : Nat) → List (String × Json) → String
  | _, [] => ""
  | level, (name, v) :: l =>
    "," ++ newline level ++ quote name ++ ": " ++ prettyAt level v ++ prettyMembers level l

end

/-- Write a value over several lines. -/
def pretty (j : Json) : String := prettyAt 0 j

end SignalAtlas.Json
