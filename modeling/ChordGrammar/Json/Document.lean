/-!
# Documents and their text

A document is what is written: numbers are kept as their text, so the choice of digits is made
where the number is known. The compact text has no blanks; the pretty text puts every item of a
non-empty list or object on a line of its own, two blanks further in than its bracket.
-/
namespace ChordGrammar.Json

inductive Document where
  | null
  | number (text : String)
  | string (value : String)
  | array (items : List Document)
  | object (members : List (String × Document))
  deriving Inhabited

/-- A hexadecimal digit, in small letters. -/
def hexDigit (n : Nat) : Char := Nat.digitChar n

/-- A character as it stands inside a string: quote, backslash and the characters below the blank
are escaped, nothing else is. -/
def escape (c : Char) : List Char :=
  if c = '"' then ['\\', '"']
  else if c = '\\' then ['\\', '\\']
  else if c = '\x08' then ['\\', 'b']
  else if c = '\x0c' then ['\\', 'f']
  else if c = '\n' then ['\\', 'n']
  else if c = '\r' then ['\\', 'r']
  else if c = '\t' then ['\\', 't']
  else if c.toNat < 0x20 then
    ['\\', 'u', '0', '0', hexDigit (c.toNat / 16), hexDigit (c.toNat % 16)]
  else [c]

/-- A string with its quotes. -/
def quoted (s : String) : List Char := '"' :: s.toList.flatMap escape ++ ['"']

namespace Document

mutual

/-- The text without blanks. -/
def compact : Document → List Char
  | .null => ['n', 'u', 'l', 'l']
  | .number text => text.toList
  | .string s => quoted s
  | .array [] => ['[', ']']
  | .array (d :: ds) => '[' :: compact d ++ compactItems ds ++ [']']
  | .object [] => ['{', '}']
  | .object ((k, d) :: ms) => '{' :: quoted k ++ ':' :: compact d ++ compactMembers ms ++ ['}']

/-- Further items of a list, each after a comma. -/
def compactItems : List Document → List Char
  | [] => []
  | d :: ds => ',' :: compact d ++ compactItems ds

/-- Further members of an object, each after a comma. -/
def compactMembers : List (String × Document) → List Char
  | [] => []
  | (k, d) :: ms => ',' :: quoted k ++ ':' :: compact d ++ compactMembers ms

end

/-- The start of a line that stands `depth` brackets deep. -/
def newLine (depth : Nat) : List Char := '\n' :: List.replicate (2 * depth) ' '

mutual

/-- The text on several lines, for a document that stands `depth` brackets deep. -/
def pretty (depth : Nat) : Document → List Char
  | .null => ['n', 'u', 'l', 'l']
  | .number text => text.toList
  | .string s => quoted s
  | .array [] => ['[', ']']
  | .array (d :: ds) =>
    '[' :: newLine (depth + 1) ++ pretty (depth + 1) d ++ prettyItems (depth + 1) ds ++
      newLine depth ++ [']']
  | .object [] => ['{', '}']
  | .object ((k, d) :: ms) =>
    '{' :: newLine (depth + 1) ++ quoted k ++ ':' :: ' ' :: pretty (depth + 1) d ++
      prettyMembers (depth + 1) ms ++ newLine depth ++ ['}']

/-- Further items of a list, each after a comma and on a new line. -/
def prettyItems (depth : Nat) : List Document → List Char
  | [] => []
  | d :: ds => ',' :: newLine depth ++ pretty depth d ++ prettyItems depth ds

/-- Further members of an object, each after a comma and on a new line. -/
def prettyMembers (depth : Nat) : List (String × Document) → List Char
  | [] => []
  | (k, d) :: ms =>
    ',' :: newLine depth ++ quoted k ++ ':' :: ' ' :: pretty depth d ++ prettyMembers depth ms

end

mutual

/-- How many brackets are open at once, at most. -/
def nesting : Document → Nat
  | .array ds => itemsNesting ds + 1
  | .object ms => membersNesting ms + 1
  | _ => 0

def itemsNesting : List Document → Nat
  | [] => 0
  | d :: ds => max (nesting d) (itemsNesting ds)

def membersNesting : List (String × Document) → Nat
  | [] => 0
  | (_, d) :: ms => max (nesting d) (membersNesting ms)

end

end Document
end ChordGrammar.Json
