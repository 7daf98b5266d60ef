/-!
# Text on a screen

Plain text is what is left to read of a text that others have a part in: such a text may hold
control sequences, which change the look of a terminal. They are dropped, up to their end or to that
of the text, and so are control characters, white space apart.

In a column a text has a field. It is first cut to a number of characters, if one is given, and then
filled up to a width. When a centred text leaves an odd number of places, the extra one is on the
right.
-/
namespace ChordGrammar.Text

/-! ## Plain text -/

/-- The control sequence that is open at a place of a text. -/
inductive Sequence where
  /-- No sequence. -/
  | none
  /-- Only the escape character so far. -/
  | escape
  /-- An escape sequence of three characters or more. -/
  | longEscape
  /-- A control function, up to its final letter. -/
  | function
  /-- A command to the system, up to a bell. -/
  | command
  /-- A string for a device, of which nothing but the announcement has been read. -/
  | device
  /-- The parameters of a string for a device. -/
  | deviceParameters
  /-- What stands between those and the string. -/
  | deviceIntermediate
  /-- A string, up to its terminator. -/
  | string
  deriving DecidableEq

/-- The byte that ends a string. -/
def stringTerminator : UInt8 := 0x9c

namespace Sequence

/-- What an escape character begins together with the next character. -/
def afterEscape (c : Char) : Sequence :=
  if c = '[' then .function
  else if c = ']' then .command
  else if c = 'P' then .device
  else if c = 'X' ∨ c = '^' ∨ c = '_' then .string
  else if ' ' ≤ c ∧ c ≤ '/' then .longEscape
  else if '0' ≤ c ∧ c ≤ '~' then .none
  else .escape

/-- The open sequence after one more character, which is not the escape character. A string is read
byte by byte, so a character that has the terminator among its bytes ends it. -/
def next (c : Char) : Sequence → Sequence
  | .none => .none
  | .escape => afterEscape c
  | .longEscape => if '0' ≤ c ∧ c ≤ '~' then .none else .longEscape
  | .function => if '@' ≤ c ∧ c ≤ '~' then .none else .function
  | .command => if c = '\x07' then .none else .command
  | .device =>
    if ' ' ≤ c ∧ c ≤ '/' then .deviceIntermediate
    else if '0' ≤ c ∧ c ≤ '?' then .deviceParameters
    else if '@' ≤ c ∧ c ≤ '~' then .string
    else .device
  | .deviceParameters =>
    if ' ' ≤ c ∧ c ≤ '/' then .deviceIntermediate
    else if '<' ≤ c ∧ c ≤ '~' then .string
    else .deviceParameters
  | .deviceIntermediate => if '0' ≤ c ∧ c ≤ '~' then .string else .deviceIntermediate
  | .string => if stringTerminator ∈ String.utf8EncodeChar c then .none else .string

/-- Whether white space inside the sequence is shown. -/
def showsSpace : Sequence → Bool
  | .none | .escape | .longEscape | .function => true
  | _ => false

end Sequence

/-- The control characters that are white space. -/
def isSpace (c : Char) : Bool := c = '\t' || c = '\n' || c = '\x0c' || c = '\r'

/-- The plain part of a text at whose start `s` is open. White space that is shown inside a
sequence interrupts it: while `showing`, characters are taken as outside of any sequence, up to the
next that is dropped, and then the sequence goes on. Two control characters cancel any sequence. -/
def plainFrom (showing : Bool) (s : Sequence) : List Char → List Char
  | [] => []
  | c :: cs =>
    if c = '\x1b' then plainFrom false .escape cs
    else if c = '\x18' ∨ c = '\x1a' then plainFrom false .none cs
    else if showing ∨ s = .none then
      if 0x80 ≤ c.toNat then c :: plainFrom true .none cs
      else if (' ' ≤ c ∧ c ≤ '~') ∨ isSpace c then c :: plainFrom true s cs
      else plainFrom false s cs
    else if s.showsSpace ∧ isSpace c then c :: plainFrom true s cs
    else plainFrom false (s.next c) cs

/-- A text without its control sequences. -/
def plain (text : String) : String := .ofList (plainFrom false .none text.toList)

/-! ## Fields -/

inductive Alignment where
  | left
  | right
  | center
  deriving DecidableEq

/-- Where a text stands in its field. -/
structure Field where
  alignment : Alignment
  fill : Char
  width : Nat
  precision : Option Nat

/-- The places left and right of a text that leaves `room` places of its field free. -/
def Alignment.split (room : Nat) : Alignment → Nat × Nat
  | .left => (0, room)
  | .right => (room, 0)
  | .center => (room / 2, room - room / 2)

def Field.pad (field : Field) (text : String) : String :=
  let cs := match field.precision with
    | none => text.toList
    | some n => text.toList.take n
  let (before, after) := field.alignment.split (field.width - cs.length)
  .ofList (List.replicate before field.fill ++ cs ++ List.replicate after field.fill)

/-- At least `width` characters, filled with blanks on the right. -/
def padRight (width : Nat) : String → String := Field.pad ⟨.left, ' ', width, none⟩

/-- At least `width` characters, filled with blanks on the left. -/
def padLeft (width : Nat) : String → String := Field.pad ⟨.right, ' ', width, none⟩

end ChordGrammar.Text
