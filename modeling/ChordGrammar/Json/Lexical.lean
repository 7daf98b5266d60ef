/-!
# Words and strings

Reading goes left to right and stops at the first problem, which is one of three kinds: the text
broke a rule of the format, it ended too early, or it was well formed but not what was asked for.
-/
namespace ChordGrammar.Json

/-- Why a text could not be read. -/
inductive Fault where
  /-- A rule of the format is broken at this place. -/
  | malformed
  /-- The text ends inside a value. -/
  | cutShort
  /-- The value is not of the kind asked for. -/
  | mismatch
  deriving DecidableEq

/-- A step of reading: what was read and the text that follows it. -/
abbrev Parse (α : Type) := List Char → Except Fault (α × List Char)

/-- The four blanks of the format. -/
def isBlank (c : Char) : Bool := c = ' ' || c = '\n' || c = '\t' || c = '\r'

def skipBlanks (cs : List Char) : List Char := cs.dropWhile isBlank

/-- The rest of a word whose first character has been read. -/
def word : List Char → Parse Unit
  | [], cs => .ok ((), cs)
  | _ :: _, [] => .error .cutShort
  | k :: ks, c :: cs => if c = k then word ks cs else .error .malformed

/-- The word that a first character announces, if it announces one. -/
def wordAfter : Char → Option (List Char)
  | 'n' => some ['u', 'l', 'l']
  | 't' => some ['r', 'u', 'e']
  | 'f' => some ['a', 'l', 's', 'e']
  | _ => none

/-- The value of a hexadecimal digit. -/
def hexValue (c : Char) : Option Nat :=
  if '0' ≤ c ∧ c ≤ '9' then some (c.toNat - '0'.toNat)
  else if 'a' ≤ c ∧ c ≤ 'f' then some (c.toNat - 'a'.toNat + 10)
  else if 'A' ≤ c ∧ c ≤ 'F' then some (c.toNat - 'A'.toNat + 10)
  else none

/-- The number that four hexadecimal digits stand for. -/
def hexUnit (a b c d : Char) : Option Nat := do
  let a ← hexValue a
  let b ← hexValue b
  let c ← hexValue c
  let d ← hexValue d
  return ((a * 16 + b) * 16 + c) * 16 + d

/-- The fault of a text that does not begin with four hexadecimal digits. The four places are
counted in bytes, so a text can be too short only if fewer than four bytes are left. -/
def hexFault (cs : List Char) : Fault :=
  if (cs.take 4).foldl (fun n c => n + c.utf8Size) 0 < 4 then .cutShort else .malformed

/-- The character that a one-letter escape stands for. -/
def shortEscape : Char → Option Char
  | '"' => some '"'
  | '\\' => some '\\'
  | '/' => some '/'
  | 'b' => some '\x08'
  | 'f' => some '\x0c'
  | 'n' => some '\n'
  | 'r' => some '\r'
  | 't' => some '\t'
  | _ => none

/-- Units that announce the second half of a pair. -/
def isHighSurrogate (n : Nat) : Bool := 0xd800 ≤ n && n < 0xdc00

/-- Units that complete a pair. -/
def isLowSurrogate (n : Nat) : Bool := 0xdc00 ≤ n && n < 0xe000

/-- The character of a pair of units. -/
def pairedChar (high low : Nat) : Char :=
  Char.ofNat (0x10000 + (high - 0xd800) * 0x400 + (low - 0xdc00))

/-- A character in front of what was read. -/
def prepend (c : Char) (r : Except Fault (List Char × List Char)) :
    Except Fault (List Char × List Char) :=
  r.map fun (s, rest) => (c :: s, rest)

/-- The characters of a string whose opening quote has been read. -/
def stringBody : Parse (List Char)
  | [] => .error .cutShort
  | c :: cs =>
    if c = '"' then .ok ([], cs)
    else if c = '\\' then
      match cs with
      | [] => .error .cutShort
      | 'u' :: c₁ :: c₂ :: c₃ :: c₄ :: rest =>
        match hexUnit c₁ c₂ c₃ c₄ with
        | none => .error .malformed
        | some unit =>
          if isLowSurrogate unit then .error .malformed
          else if isHighSurrogate unit then
            match rest with
            | '\\' :: 'u' :: d₁ :: d₂ :: d₃ :: d₄ :: rest =>
              match hexUnit d₁ d₂ d₃ d₄ with
              | none => .error .malformed
              | some low =>
                if isLowSurrogate low then prepend (pairedChar unit low) (stringBody rest)
                else .error .malformed
            | '\\' :: 'u' :: rest => .error (hexFault rest)
            | [] | ['\\'] => .error .cutShort
            | _ => .error .malformed
          else prepend (Char.ofNat unit) (stringBody rest)
      | 'u' :: rest => .error (hexFault rest)
      | e :: rest =>
        match shortEscape e with
        | some c => prepend c (stringBody rest)
        | none => .error .malformed
    else if c.toNat < 0x20 then .error .malformed
    else prepend c (stringBody cs)

/-- What follows a string that is not kept. Escapes are checked, but a pair may be broken. -/
def skipStringBody : List Char → Except Fault (List Char)
  | [] => .error .cutShort
  | c :: cs =>
    if c = '"' then .ok cs
    else if c = '\\' then
      match cs with
      | [] => .error .cutShort
      | 'u' :: c₁ :: c₂ :: c₃ :: c₄ :: rest =>
        if (hexUnit c₁ c₂ c₃ c₄).isSome then skipStringBody rest
        else .error .malformed
      | 'u' :: rest => .error (hexFault rest)
      | e :: rest => if (shortEscape e).isSome then skipStringBody rest else .error .malformed
    else if c.toNat < 0x20 then .error .malformed
    else skipStringBody cs

end ChordGrammar.Json
