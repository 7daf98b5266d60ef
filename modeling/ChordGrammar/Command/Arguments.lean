import ChordGrammar.Decimal.Reading
import ChordGrammar.Settings.Assembly

/-!
# Command line

Flags are given by their full names, each at most once, in any order. A value stands behind its
flag, as the next word or after an equals sign; as a word of its own it may not begin with a
hyphen, unless it is one.
-/
namespace ChordGrammar.Command

/-- Flags that take a value. -/
inductive Flag where
  | config
  | seed
  | iterations
  | grammar
  | mode
  | key
  | dur
  deriving DecidableEq

namespace Flag

def all : List Flag := [.config, .seed, .iterations, .grammar, .mode, .key, .dur]

def name : Flag → String
  | .config => "config"
  | .seed => "seed"
  | .iterations => "iterations"
  | .grammar => "grammar"
  | .mode => "mode"
  | .key => "key"
  | .dur => "dur"

def ofName? (name : String) : Option Flag := all.find? (·.name = name)

end Flag

/-- A command line that is refused. -/
inductive UsageError where
  | unknownFlag (word : String)
  | unexpectedWord (word : String)
  | unexpectedValue (flag : String)
  | repeated (flag : String)
  | missingValue (flag : Flag)
  | badValue (flag : Flag) (value : String)
  deriving DecidableEq

def UsageError.message : UsageError → String
  | .unknownFlag word => "unknown flag " ++ word
  | .unexpectedWord word => "unexpected argument " ++ word
  | .unexpectedValue flag => "--" ++ flag ++ " takes no value"
  | .repeated flag => "--" ++ flag ++ " is given twice"
  | .missingValue flag => "--" ++ flag.name ++ " needs a value"
  | .badValue flag value => "bad value for --" ++ flag.name ++ ": " ++ value

/-- What the command line asks for. -/
structure Arguments where
  overrides : Overrides := {}
  /-- Print the chords as data rather than as text. -/
  json : Bool := false
  deriving DecidableEq

namespace Arguments

/-- Whether a flag has a value already. -/
def has (a : Arguments) : Flag → Bool
  | .config => a.overrides.config.isSome
  | .seed => a.overrides.seed.isSome
  | .iterations => a.overrides.iterations.isSome
  | .grammar => a.overrides.grammar.isSome
  | .mode => a.overrides.mode.isSome
  | .key => a.overrides.key.isSome
  | .dur => a.overrides.duration.isSome

/-- The overrides with one more, if the text is a value of the flag. -/
def read? (o : Overrides) (text : String) : Flag → Option Overrides
  | .config => if text = "" then none else some { o with config := text }
  | .seed => (Decimal.readNat? UInt64.size text).map fun n => { o with seed := some (.ofNat n) }
  | .iterations =>
    (Decimal.readNat? UInt64.size text).map fun n => { o with iterations := some (.ofNat n) }
  | .grammar => (GrammarKind.ofName? text).map fun g => { o with grammar := some g }
  | .mode => some { o with mode := text }
  | .key => (Decimal.readSignedNat? UInt8.size text).map fun n => { o with key := some (.ofNat n) }
  | .dur => (Decimal.readFloat? text).map fun x => { o with duration := some x }

/-- Gives a flag its value. -/
def set (a : Arguments) (flag : Flag) (text : String) : Except UsageError Arguments :=
  if a.has flag then .error (.repeated flag.name)
  else
    match read? a.overrides text flag with
    | some o => .ok { a with overrides := o }
    | none => .error (.badValue flag text)

/-- Whether a word can be the value of the flag before it. -/
def isValue (word : String) : Bool := !word.startsWith "-" || word = "-"

/-- A word that begins with two hyphens: the name and the text after the first equals sign. -/
def splitFlag (cs : List Char) : String × Option String :=
  let name := cs.takeWhile (· ≠ '=')
  match cs.dropWhile (· ≠ '=') with
  | [] => (.ofList name, none)
  | _ :: text => (.ofList name, some (.ofList text))

/-- Reads the words that are left. -/
def ofWords (a : Arguments) : List String → Except UsageError Arguments
  | [] => .ok a
  | word :: words =>
    match word.toList with
    | ['-', '-'] =>
      match words with
      | [] => .ok a
      | extra :: _ => .error (.unexpectedWord extra)
    | '-' :: '-' :: cs =>
      match splitFlag cs with
      | ("json", none) =>
        if a.json then .error (.repeated "json") else ofWords { a with json := true } words
      | ("json", some _) => .error (.unexpectedValue "json")
      | (name, attached) =>
        match Flag.ofName? name, attached, words with
        | none, _, _ => .error (.unknownFlag word)
        | some flag, some text, words => do ofWords (← a.set flag text) words
        | some flag, none, [] => .error (.missingValue flag)
        | some flag, none, text :: words =>
          if isValue text then do ofWords (← a.set flag text) words
          else .error (.missingValue flag)
    | ['-'] => .error (.unexpectedWord word)
    | '-' :: _ => .error (.unknownFlag word)
    | _ => .error (.unexpectedWord word)

/-- Reads a command line. -/
def parse (words : List String) : Except UsageError Arguments := ofWords {} words

end Arguments
end ChordGrammar.Command
