import PacketFec.Json.Value

/-!
# Reading JSON

The grammar of RFC 8259 on characters. Each reader takes what it reads off the front of the text and gives
the rest, or refuses. Blanks are the space, the tab, the line feed and the carriage return. A raw string may
hold every character from the space on.

* `Json.parse`: the value that a whole text stands for.
-/

namespace PacketFec.Json

/-- The characters that may stand between tokens. -/
def isBlank (c : Char) : Bool := c = ' ' || c = '\t' || c = '\n' || c = '\r'

/-- A text without the blanks at its front. -/
def skip (s : List Char) : List Char := s.dropWhile isBlank

/-- The value of a hexadecimal digit. -/
def hexDigit? (c : Char) : Option Nat :=
  if '0' ≤ c ∧ c ≤ '9' then some (c.toNat - '0'.toNat)
  else if 'a' ≤ c ∧ c ≤ 'f' then some (c.toNat - 'a'.toNat + 10)
  else if 'A' ≤ c ∧ c ≤ 'F' then some (c.toNat - 'A'.toNat + 10)
  else none

/-- The unit that four hexadecimal digits name. -/
def unit? (a b c d : Char) : Option Nat := do
  return (((← hexDigit? a) * 16 + (← hexDigit? b)) * 16 + (← hexDigit? c)) * 16 + (← hexDigit? d)

/-- The character that a short escape stands for. -/
def escaped? : Char → Option Char
  | '"' => some '"'
  | '\\' => some '\\'
  | '/' => some '/'
  | 'b' => some '\x08'
  | 'f' => some '\x0c'
  | 'n' => some '\n'
  | 'r' => some '\r'
  | 't' => some '\t'
  | _ => none

/-- The pieces of a string up to its closing quote, and the text behind. -/
def pieces : List Char → Option (List Piece × List Char)
  | [] => none
  | '"' :: rest => some ([], rest)
  | '\\' :: 'u' :: a :: b :: c :: d :: rest => do
    let n ← unit? a b c d
    let (more, rest) ← pieces rest
    return (.unit n :: more, rest)
  | '\\' :: e :: rest => do
    let c ← escaped? e
    let (more, rest) ← pieces rest
    return (.char c :: more, rest)
  | c :: rest =>
    if c < ' ' ∨ c = '\\' then none
    else do
      let (more, rest) ← pieces rest
      return (.char c :: more, rest)

/-- The digits at the front of a text, and the text behind. -/
def digits (s : List Char) : List Char × List Char := (s.takeWhile Char.isDigit, s.dropWhile Char.isDigit)

/-- Digits at the front of a text, of which there must be one, and the text behind. -/
def digits1 (s : List Char) : Option (List Char × List Char) :=
  let (ds, rest) := digits s
  if ds.isEmpty then none else some (ds, rest)

/-- The integer part of a numeral: a zero alone, or digits that do not start with one. -/
def integerPart (s : List Char) : Option (List Char × List Char) := do
  let (ds, rest) ← digits1 s
  if ds.head? = some '0' ∧ ds.length ≠ 1 then none else return (ds, rest)

/-- The fraction of a numeral, if there is one: a point and digits. -/
def fractionPart : List Char → Option (List Char × List Char)
  | '.' :: rest => do
    let (ds, rest) ← digits1 rest
    return ('.' :: ds, rest)
  | s => some ([], s)

/-- The sign of an exponent, if there is one. -/
def exponentSign : List Char → List Char × List Char
  | '+' :: rest => (['+'], rest)
  | '-' :: rest => (['-'], rest)
  | s => ([], s)

/-- The exponent of a numeral, if there is one: a letter, a sign and digits. -/
def exponentPart : List Char → Option (List Char × List Char)
  | c :: rest =>
    if c = 'e' ∨ c = 'E' then do
      let (sign, rest) := exponentSign rest
      let (ds, rest) ← digits1 rest
      return (c :: sign ++ ds, rest)
    else some ([], c :: rest)
  | [] => some ([], [])

/-- The number that digits stand for. -/
def ofDigits (ds : List Char) : Nat := ds.foldl (fun n c => 10 * n + (c.toNat - '0'.toNat)) 0

/-- A numeral without a sign. -/
def unsigned (s : List Char) : Option (Json × List Char) := do
  let (whole, rest) ← integerPart s
  let (fraction, rest) ← fractionPart rest
  let (exponent, rest) ← exponentPart rest
  if fraction.isEmpty ∧ exponent.isEmpty then return (natural (ofDigits whole), rest)
  else return (numeral (whole ++ fraction ++ exponent), rest)

/-- A numeral with a minus sign, from behind the sign on. -/
def negative (s : List Char) : Option (Json × List Char) := do
  let (whole, rest) ← integerPart s
  let (fraction, rest) ← fractionPart rest
  let (exponent, rest) ← exponentPart rest
  return (numeral ('-' :: whole ++ fraction ++ exponent), rest)

mutual

/-- A value at the front of a text. The first argument bounds the values read; the length of the text is
always enough. -/
def value : Nat → List Char → Option (Json × List Char)
  | 0, _ => none
  | fuel + 1, s =>
    match s with
    | 'n' :: 'u' :: 'l' :: 'l' :: rest => some (null, rest)
    | 't' :: 'r' :: 'u' :: 'e' :: rest => some (bool true, rest)
    | 'f' :: 'a' :: 'l' :: 's' :: 'e' :: rest => some (bool false, rest)
    | '"' :: rest => (pieces rest).map fun (ps, rest) => (string ps, rest)
    | '-' :: rest => negative rest
    | '[' :: rest =>
      match skip rest with
      | ']' :: rest => some (array [], rest)
      | rest => (elements fuel rest).map fun (items, rest) => (array items, rest)
    | '{' :: rest =>
      match skip rest with
      | '}' :: rest => some (object [], rest)
      | rest => (members fuel rest).map fun (ms, rest) => (object ms, rest)
    | s => unsigned s

/-- The elements of an array, from the first one to the closing bracket. -/
def elements : Nat → List Char → Option (List Json × List Char)
  | 0, _ => none
  | fuel + 1, s => do
    let (item, rest) ← value fuel s
    match skip rest with
    | ',' :: rest => do
      let (items, rest) ← elements fuel (skip rest)
      return (item :: items, rest)
    | ']' :: rest => return ([item], rest)
    | _ => none

/-- The members of an object, from the first one to the closing brace. -/
def members : Nat → List Char → Option (List (List Piece × Json) × List Char)
  | 0, _ => none
  | fuel + 1, s =>
    match s with
    | '"' :: rest => do
      let (name, rest) ← pieces rest
      match skip rest with
      | ':' :: rest => do
        let (item, rest) ← value fuel (skip rest)
        match skip rest with
        | ',' :: rest => do
          let (more, rest) ← members fuel (skip rest)
          return ((name, item) :: more, rest)
        | '}' :: rest => return ([(name, item)], rest)
        | _ => none
      | _ => none
    | _ => none

end

/-- The value that a text stands for, with blanks around it and nothing else. -/
def parse (s : List Char) : Option Json :=
  match value (s.length + 1) (skip s) with
  | some (v, rest) => if (skip rest).isEmpty then some v else none
  | none => none

end PacketFec.Json
