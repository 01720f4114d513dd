import PacketFec.Json.Value

/-!
# Writing JSON

A value is written over several lines, each level indented by two blanks. Empty arrays and objects stay on
one line, and a colon is followed by one blank.

* `Json.pretty`: the written form of a value.
-/

namespace PacketFec.Json

/-- The hexadecimal digits of a number below 65536. -/
def hexDigits (n : Nat) : List Char :=
  [4096, 256, 16, 1].map fun place => Nat.digitChar (n / place % 16)

/-- A piece of a string as it is written. -/
def writtenPiece : Piece → List Char
  | .char '"' => ['\\', '"']
  | .char '\\' => ['\\', '\\']
  | .char '\n' => ['\\', 'n']
  | .char '\r' => ['\\', 'r']
  | .char '\t' => ['\\', 't']
  | .char '\x08' => ['\\', 'b']
  | .char '\x0c' => ['\\', 'f']
  | .char c => if c < ' ' then '\\' :: 'u' :: hexDigits c.toNat else [c]
  | .unit n => '\\' :: 'u' :: hexDigits n

/-- A string in quotes. -/
def quoted (ps : List Piece) : List Char := '"' :: ps.flatMap writtenPiece ++ ['"']

/-- A line end and the indentation of a level. -/
def newLine (level : Nat) : List Char := '\n' :: List.replicate (2 * level) ' '

mutual

/-- A value whose first character stands on a line of the given level. -/
def written (level : Nat) : Json → List Char
  | null => "null".toList
  | bool true => "true".toList
  | bool false => "false".toList
  | natural n => Nat.toDigits 10 n
  | numeral text => text
  | string ps => quoted ps
  | array [] => ['[', ']']
  | array (item :: items) =>
    '[' :: newLine (level + 1) ++ written (level + 1) item ++ writtenItems (level + 1) items
      ++ newLine level ++ [']']
  | object [] => ['\x7b', '\x7d']
  | object ((name, item) :: members) =>
    '\x7b' :: newLine (level + 1) ++ quoted name ++ [':', ' '] ++ written (level + 1) item
      ++ writtenMembers (level + 1) members ++ newLine level ++ ['\x7d']

/-- The elements behind the first one. -/
def writtenItems (level : Nat) : List Json → List Char
  | [] => []
  | item :: items => ',' :: newLine level ++ written level item ++ writtenItems level items

/-- The members behind the first one. -/
def writtenMembers (level : Nat) : List (List Piece × Json) → List Char
  | [] => []
  | (name, item) :: members =>
    ',' :: newLine level ++ quoted name ++ [':', ' '] ++ written level item
      ++ writtenMembers level members

end

/-- The written form of a value. -/
def pretty (v : Json) : String := String.ofList (written 0 v)

/-- An object whose names are plain texts. -/
def ofFields (fields : List (String × Json)) : Json :=
  object (fields.map fun (name, v) => (Piece.ofText name, v))

end PacketFec.Json
