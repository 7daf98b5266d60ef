import ChordGrammar.Json.Skip

/-!
# Readers

A reader is told how many more brackets may be opened. It reads a value of one kind from the front
of the text and faults at the first character that no such value could have there. This file reads
strings, numbers and lists.
-/
namespace ChordGrammar.Json

/-- Reads one kind of value, given the number of brackets that may still be opened. -/
abbrev Reader (α : Type) := (allowance : Nat) → Parse α

/-- How many brackets may be open at once in a value that is kept. -/
def maxNesting : Nat := 127

/-- The fault of a text whose next value is not of the kind asked for. If there is a whole value,
that is a mismatch; words, numbers and strings are read to find out, lists and objects are not. -/
def otherFault : List Char → Fault
  | [] => .cutShort
  | c :: rest =>
    if c = '"' then faultOf (stringBody rest)
    else if c = '-' ∨ c.isDigit then faultOf (number (c :: rest))
    else if c = '[' ∨ c = '{' then .mismatch
    else
      match wordAfter c with
      | some w => faultOf (word w rest)
      | none => .malformed
where
  faultOf {α : Type} : Except Fault α → Fault
    | .error f => f
    | .ok _ => .mismatch

namespace Reader

variable {α : Type}

/-- Applies a partial function to what was read. -/
def filterMap {β : Type} (read : Reader α) (f : α → Option β) : Reader β := fun allowance cs => do
  let (x, rest) ← read allowance cs
  match f x with
  | some y => return (y, rest)
  | none => .error .mismatch

def string : Reader String := fun _ cs =>
  match skipBlanks cs with
  | '"' :: rest => (stringBody rest).map fun (s, rest) => (.ofList s, rest)
  | cs => .error (otherFault cs)

/-- Any number. -/
def anyNumber : Reader Number := fun _ cs =>
  match skipBlanks cs with
  | c :: rest =>
    if c = '-' ∨ c.isDigit then number (c :: rest) else .error (otherFault (c :: rest))
  | [] => .error .cutShort

/-- Any number, as a double. -/
def float : Reader Float := fun allowance cs => do
  let (n, rest) ← anyNumber allowance cs
  return (match n with
    | .integer n => if n < 0 then -Float.ofNat n.natAbs else Float.ofNat n.natAbs
    | .real x => x, rest)

/-- An integer from `low` to `high`. -/
def integer (low high : Int) : Reader Int :=
  anyNumber.filterMap fun
    | .integer n => if low ≤ n ∧ n ≤ high then some n else none
    | .real _ => none

/-- A natural number below `bound`. -/
def natural (bound : Nat) : Reader Nat :=
  (integer 0 (bound - 1 : Nat)).filterMap fun n => some n.toNat

/-- A value, or `null` for none. -/
def optional (read : Reader α) : Reader (Option α) := fun allowance cs =>
  match skipBlanks cs with
  | 'n' :: rest => (word ['u', 'l', 'l'] rest).map fun (_, rest) => (none, rest)
  | cs => (read allowance cs).map fun (x, rest) => (some x, rest)

/-- The word `null`. -/
def null : Reader Unit := fun _ cs =>
  match skipBlanks cs with
  | 'n' :: rest => word ['u', 'l', 'l'] rest
  | cs => .error (otherFault cs)

end Reader

/-! ## Lists -/

/-- Looks for another item of a list: the text from it on, or none and the text after the list. -/
def nextItem (first : Bool) (cs : List Char) : Except Fault (Bool × List Char) :=
  match skipBlanks cs with
  | [] => .error .cutShort
  | ']' :: rest => .ok (false, rest)
  | c :: rest =>
    if first then .ok (true, c :: rest)
    else if c = ',' then
      match skipBlanks rest with
      | [] => .error .cutShort
      | ']' :: _ => .error .malformed
      | rest => .ok (true, rest)
    else .error .malformed

/-- The end of a list that has all its items. -/
def endOfList (cs : List Char) : Except Fault (List Char) :=
  match skipBlanks cs with
  | [] => .error .cutShort
  | ']' :: rest => .ok rest
  | _ => .error .malformed

/-- The items up to the end of a list. Each takes at least one character, so `fuel` need be no more
than the length of the text. -/
def items {α : Type} (read : Parse α) : (fuel : Nat) → (first : Bool) → Parse (List α)
  | 0, _, _ => .error .malformed
  | fuel + 1, first, cs => do
    match ← nextItem first cs with
    | (false, rest) => return ([], rest)
    | (true, cs) =>
      let (x, cs) ← read cs
      let (xs, rest) ← items read fuel false cs
      return (x :: xs, rest)

def Reader.list {α : Type} (read : Reader α) : Reader (List α) := fun allowance cs =>
  match skipBlanks cs with
  | '[' :: rest =>
    match allowance with
    | 0 => .error .malformed
    | allowance + 1 => items (read allowance) (rest.length + 1) true rest
  | cs => .error (otherFault cs)

/-! ## Names and whole texts -/

/-- The colon after a name. -/
def colon (cs : List Char) : Except Fault (List Char) :=
  match skipBlanks cs with
  | [] => .error .cutShort
  | ':' :: rest => .ok rest
  | _ => .error .malformed

/-- Reads a text that holds one value and nothing else but blanks. -/
def Reader.run {α : Type} (read : Reader α) (text : String) : Except Fault α := do
  let (x, rest) ← read maxNesting text.toList
  if (skipBlanks rest).isEmpty then return x else .error .malformed

/-- A function may be applied to what stands in a text before or after the whole text is read. -/
theorem Reader.run_filterMap_some {α β : Type} (read : Reader α) (f : α → β) (text : String) :
    (read.filterMap fun x => some (f x)).run text = (read.run text).map f := by
  simp only [Reader.run, Reader.filterMap, bind, Except.bind, pure, Except.pure]
  cases read maxNesting text.toList with
  | error fault => rfl
  | ok r =>
    dsimp only
    split <;> rfl

end ChordGrammar.Json
