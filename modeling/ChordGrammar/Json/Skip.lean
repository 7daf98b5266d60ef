import ChordGrammar.Json.Number

/-!
# Values that are not wanted

A member that nobody asked for is passed over. Its text is checked against the grammar, but numbers
may be out of range, surrogates unpaired and brackets nested to any depth; the open brackets are
kept in a list.
-/
namespace ChordGrammar.Json

inductive Bracket where
  | list
  | object
  deriving DecidableEq

def Bracket.closing : Bracket → Char
  | .list => ']'
  | .object => '}'

/-- Passes over the name of a member and its colon. -/
def skipName (cs : List Char) : Except Fault (List Char) :=
  match skipBlanks cs with
  | [] => .error .cutShort
  | '"' :: cs => do
    let cs ← skipStringBody cs
    match skipBlanks cs with
    | [] => .error .cutShort
    | ':' :: cs => .ok cs
    | _ => .error .malformed
  | _ => .error .malformed

/-- Passes over what has to stand in front of the next value inside a bracket. -/
def skipToItem (b : Bracket) (cs : List Char) : Except Fault (List Char) :=
  match b with
  | .list => .ok cs
  | .object => skipName cs

mutual

/-- Passes over a value inside the brackets `opened`, innermost first, and over all that is left of
those. Every step consumes a character or ends a scalar, so `fuel` need be no more than twice the
length of the text. -/
def skipValueIn : (fuel : Nat) → (opened : List Bracket) → List Char → Except Fault (List Char)
  | 0, _, _ => .error .malformed
  | fuel + 1, opened, cs =>
    match skipBlanks cs with
    | [] => .error .cutShort
    | c :: rest =>
      if c = '"' then do skipRest fuel opened (← skipStringBody rest)
      else if c = '-' ∨ c.isDigit then do skipRest fuel opened (← skipNumber (c :: rest))
      else if c = '[' then skipOpened fuel .list opened rest
      else if c = '{' then skipOpened fuel .object opened rest
      else
        match wordAfter c with
        | some w => do skipRest fuel opened (← word w rest).2
        | none => .error .malformed

/-- Passes over the rest of the brackets `opened`, after a value in the innermost. -/
def skipRest : (fuel : Nat) → (opened : List Bracket) → List Char → Except Fault (List Char)
  | 0, _, _ => .error .malformed
  | _ + 1, [], cs => .ok cs
  | fuel + 1, b :: opened, cs =>
    match skipBlanks cs with
    | [] => .error .cutShort
    | c :: rest =>
      if c = ',' then do skipValueIn fuel (b :: opened) (← skipToItem b rest)
      else if c = b.closing then skipRest fuel opened rest
      else .error .malformed

/-- Passes over the rest of the brackets `b :: opened`, the first of which has just been opened. -/
def skipOpened :
    (fuel : Nat) → (b : Bracket) → (opened : List Bracket) → List Char → Except Fault (List Char)
  | 0, _, _, _ => .error .malformed
  | fuel + 1, b, opened, cs =>
    match skipBlanks cs with
    | [] => .error .cutShort
    | c :: rest =>
      if c = b.closing then skipRest fuel opened rest
      else do skipValueIn fuel (b :: opened) (← skipToItem b (c :: rest))

end

/-- Passes over one value. -/
def skipValue (cs : List Char) : Except Fault (List Char) :=
  skipValueIn (3 * cs.length + 3) [] cs

end ChordGrammar.Json
