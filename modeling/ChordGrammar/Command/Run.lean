import ChordGrammar.Command.Arguments
import ChordGrammar.Music.Progression
import ChordGrammar.Random.Xoshiro
import ChordGrammar.Text.Display

/-!
# A run of the command

Everything between the words of the command line and what appears on the screen. Files and a seed
for runs that name none are handed in, so a run is a function of its arguments.
-/
namespace ChordGrammar.Command

/-- What a run leaves behind. -/
structure Outcome where
  exitCode : UInt32
  /-- Lines of output. -/
  lines : List String
  /-- All log records, the most detailed included. -/
  records : List Log.Record

/-- The records up to a rank, as they are shown. -/
def Outcome.log (o : Outcome) (limit : Nat) : List Log.Record :=
  (Log.shown limit o.records).map Log.Record.onScreen

/-- A chord as a line of text. -/
def describe {S : Type} [ChordSymbol S] (c : Chord S Float) : String :=
  Text.padLeft 7 (Decimal.fixed 4 c.span.onset) ++ "  " ++
    Text.padRight 4 (ChordSymbol.name c.symbol) ++ " " ++
    Text.padRight 3 (c.rootPitchClass.elim "-" pitchName) ++ " in " ++ pitchName c.span.key ++
    " " ++ c.span.mode.describe ++ "  (" ++ Decimal.Style.plain.text c.span.dur ++ " measures)"

/-- Chords as lines of text or of data. -/
def chordLines {S : Type} [ChordSymbol S] [Json.Codec S] (json : Bool)
    (chords : List (Chord S Float)) : List String :=
  if json then (Json.writePretty chords).splitOn "\n" else chords.map describe

/-- The record that says what is about to be generated. -/
def announcement (c : Settings) (seed : UInt64) : Log.Record :=
  ⟨.info, c.grammar.title ++ " grammar, " ++ toString c.iterations.toNat ++ " passes, " ++
    pitchName c.key ++ " " ++ c.mode.describe ++ ", seed " ++ toString seed.toNat⟩

/-- A warning for each symbol whose weights do not add up to one. -/
def warnings {S : Type} [DecidableEq S] [SymbolText S] (table : MusicRules Float S Float) :
    List Log.Record :=
  (table.unnormalized 1e-6).map fun s =>
    ⟨.warn, "rules for " ++ SymbolText.text s ++ " sum to " ++
      Decimal.Style.plain.text (table.totalWeight s) ++ ", not 1"⟩

/-- A failed run. -/
def failure (message : String) (before : List Log.Record) : Outcome :=
  ⟨1, [], before ++ [⟨.error, message⟩]⟩

/-- Composes over one table and shows the chords. -/
def emit {S : Type} [DecidableEq S] [ChordSymbol S] [Json.Codec S]
    (table : MusicRules Float S Float) (start : S) (c : Settings) (seed : UInt64) (json : Bool) :
    Outcome :=
  let source := Xoshiro.ofSeed seed
  let passes := c.iterations.toNat
  let before := announcement c seed :: warnings table ++
    compositionRecords table passes start c.startSpan source
  match (compose table passes start c.startSpan source).1 with
  | .error e => failure e.message before
  | .ok chords =>
    ⟨0, chordLines json chords, before ++ [⟨.info, s!"{chords.length} chords"⟩]⟩

/-- A run with the given arguments. -/
def run (files : Files) (freshSeed : UInt64) (a : Arguments) : Outcome :=
  match Settings.assemble files a.overrides with
  | .error e => failure e.fullMessage []
  | .ok c =>
    let seed := c.seed.getD freshSeed
    match c.grammar with
    | .tsd => emit (functionalRules c.minDuration) .tonic c seed a.json
    | .roman => emit (romanRules c.minDuration) .I c seed a.json

end ChordGrammar.Command
