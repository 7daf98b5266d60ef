import ChordGrammar.Json.Reader

/-!
# Records

A record is written as an object or as the list of its members in order. In an object the members
may come in any order, members that nobody asked for are passed over, and none that was asked for
may come twice.
-/
namespace ChordGrammar.Json

/-- Looks for another member of an object: its name and the text after that, or none and the text
after the object. -/
def nextMember (first : Bool) (cs : List Char) : Except Fault (Option String × List Char) :=
  match skipBlanks cs with
  | [] => .error .cutShort
  | '}' :: rest => .ok (none, rest)
  | '"' :: rest => if first then name rest else .error .malformed
  | ',' :: rest =>
    if first then .error .malformed
    else
      match skipBlanks rest with
      | [] => .error .cutShort
      | '"' :: rest => name rest
      | _ => .error .malformed
  | _ => .error .malformed
where
  name (cs : List Char) : Except Fault (Option String × List Char) :=
    (stringBody cs).map fun (s, rest) => (some (.ofList s), rest)

/-- A member of a record that is collected in a draft `δ`. -/
structure Member (δ : Type) where
  name : String
  read : Reader (δ → δ)

/-- A member that sets a part of the draft. -/
def Member.setting {δ α : Type} (name : String) (read : Reader α) (set : α → δ → δ) : Member δ :=
  ⟨name, fun allowance cs => (read allowance cs).map fun (x, rest) => (set x, rest)⟩

/-- The members of an object from the next one on. `seen` are the names read before. -/
def membersOf {δ : Type} (members : List (Member δ)) (allowance : Nat) :
    (fuel : Nat) → (seen : List String) → δ → (first : Bool) → Parse δ
  | 0, _, _, _, _ => .error .malformed
  | fuel + 1, seen, draft, first, cs => do
    match ← nextMember first cs with
    | (none, rest) => return (draft, rest)
    | (some name, cs) =>
      match members.find? (·.name = name) with
      | none =>
        let cs ← skipValue (← colon cs)
        membersOf members allowance fuel seen draft false cs
      | some m =>
        if name ∈ seen then .error .mismatch
        else
          let (update, cs) ← m.read allowance (← colon cs)
          membersOf members allowance fuel (name :: seen) (update draft) false cs

/-- The members of a record written as a list, as far as the list goes. -/
def itemsOf {δ : Type} (allowance : Nat) : List (Member δ) → δ → (first : Bool) → Parse δ
  | [], draft, _, cs => (endOfList cs).map fun rest => (draft, rest)
  | m :: ms, draft, first, cs => do
    match ← nextItem first cs with
    | (false, rest) => return (draft, rest)
    | (true, cs) =>
      let (update, cs) ← m.read allowance cs
      itemsOf allowance ms (update draft) false cs

/-- A record with the given members, collected in a draft that starts as `blank`. `finish` says what
a draft stands for; it has no answer when a member is missing that has to be there. -/
def Reader.record {δ α : Type} (members : List (Member δ)) (blank : δ) (finish : δ → Option α) :
    Reader α := fun allowance cs =>
  match skipBlanks cs with
  | '[' :: rest =>
    match allowance with
    | 0 => .error .malformed
    | allowance + 1 => finishing (itemsOf allowance members blank true rest)
  | '{' :: rest =>
    match allowance with
    | 0 => .error .malformed
    | allowance + 1 =>
      finishing (membersOf members allowance (rest.length + 1) [] blank true rest)
  | cs => .error (otherFault cs)
where
  finishing (r : Except Fault (δ × List Char)) : Except Fault (α × List Char) := do
    let (draft, rest) ← r
    match finish draft with
    | some x => return (x, rest)
    | none => .error .mismatch

end ChordGrammar.Json
