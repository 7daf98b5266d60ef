import ChordGrammar.Text.Display

/-!
# Log records

Records are values: a run returns them beside its result, and the caller decides which to show.
-/
namespace ChordGrammar.Log

/-- How detailed a record is. -/
inductive Level where
  | error
  | warn
  | info
  | debug
  | trace
  deriving DecidableEq

namespace Level

/-- Position from the most severe level on. -/
def rank : Level → Nat
  | .error => 1
  | .warn => 2
  | .info => 3
  | .debug => 4
  | .trace => 5

def name : Level → String
  | .error => "ERROR"
  | .warn => "WARN"
  | .info => "INFO"
  | .debug => "DEBUG"
  | .trace => "TRACE"

/-- The rank up to which records are shown, by name in any letter case; `off` shows none. -/
def limitOfName? (name : String) : Option Nat :=
  match name.toLower with
  | "off" => some 0
  | "error" => some Level.error.rank
  | "warn" => some Level.warn.rank
  | "info" => some Level.info.rank
  | "debug" => some Level.debug.rank
  | "trace" => some Level.trace.rank
  | _ => none

/-- The rank up to which records are shown, as asked for by a text. Nothing asked for means errors
only, and a text that names no level shows nothing. -/
def limit (text : String) : Nat :=
  if text = "" then Level.error.rank else (limitOfName? text).getD 0

end Level

structure Record where
  level : Level
  message : String
  deriving DecidableEq

/-- The record as it is shown: further lines of its message are set in, and the message is plain. -/
def Record.onScreen (r : Record) : Record :=
  { r with message := Text.plain ("\n    ".intercalate (r.message.splitOn "\n")) }

/-- The records up to a rank, in order. -/
def shown (limit : Nat) (records : List Record) : List Record :=
  records.filter (·.level.rank ≤ limit)

end ChordGrammar.Log
