import ChordGrammar.Json.Reader

/-!
# Alternatives

One of several alternatives is written as its name alone, if nothing else belongs to it, or as an
object with the name as its only member.
-/
namespace ChordGrammar.Json

/-- What stands behind the name of an alternative: nothing, or more to read. -/
inductive Payload (α : Type) where
  | plain (value : α)
  | holding (read : Reader α)

/-- The name of the only member of an object. -/
def nameInObject (cs : List Char) : Except Fault (List Char × List Char) :=
  match skipBlanks cs with
  | [] => .error .cutShort
  | '"' :: rest => stringBody rest
  | _ => .error .malformed

/-- The end of an object that has its only member. -/
def endOfObject (cs : List Char) : Except Fault (List Char) :=
  match skipBlanks cs with
  | [] => .error .cutShort
  | '}' :: rest => .ok rest
  | _ => .error .malformed

/-- One of several named alternatives. -/
def Reader.oneOf {α : Type} (alternatives : List (String × Payload α)) : Reader α :=
  fun allowance cs =>
    match skipBlanks cs with
    | [] => .error .cutShort
    | '"' :: rest => do
      let (name, rest) ← stringBody rest
      match alternatives.lookup (.ofList name) with
      | some (.plain x) => return (x, rest)
      | _ => .error .mismatch
    | '{' :: rest =>
      match allowance with
      | 0 => .error .malformed
      | allowance + 1 => do
        let (name, cs) ← nameInObject rest
        match alternatives.lookup (.ofList name) with
        | none => .error .mismatch
        | some payload =>
          let cs ← colon cs
          let (x, cs) ← match payload with
            | .plain x => (Reader.null allowance cs).map fun (_, cs) => (x, cs)
            | .holding read => read allowance cs
          return (x, ← endOfObject cs)
    | _ => .error .malformed

/-- Alternatives that are names only. -/
def Reader.named {α : Type} (values : List α) (name : α → String) : Reader α :=
  .oneOf (values.map fun x => (name x, .plain x))

end ChordGrammar.Json
