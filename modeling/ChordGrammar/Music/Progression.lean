import ChordGrammar.Grammar.Expansion
import ChordGrammar.Grammar.Trace
import ChordGrammar.Music.StockGrammar

/-!
# Progressions

A progression grows out of a start symbol: generate, expand, resolve. Resolving turns occurrences
into chords. The modulations around a chord act on its key and mode, outermost first, so an inner
modulation is relative to the key of the outer one. The chords are then laid end to end: one pass
sets the onsets, each the sum of the durations before it, and where it ends is the total length,
which a second pass writes into every chord.
-/
namespace ChordGrammar

/-- A chord symbol in its final tonal context. -/
structure Chord (S T : Type) where
  symbol : S
  span : Span T
  deriving BEq, DecidableEq

namespace Chord

variable {S T : Type}

/-- Pitch class of the root, if the symbol has one and the mode has that many degrees. -/
def rootPitchClass [ChordSymbol S] (c : Chord S T) : Option UInt8 := do
  let degree ← ChordSymbol.degree c.symbol
  c.span.mode.degreePitchClass c.span.key degree

/-- The chord of an occurrence, not yet in its place. -/
def ofOccurrence [Scalar T] (o : Occurrence S (Span T) Modulation) : Chord S T :=
  ⟨o.symbol, o.modulations.foldl (fun p m => m.apply p) o.param⟩

def withOnset (c : Chord S T) (onset : T) : Chord S T := { c with span := { c.span with onset } }

def withSeqDur (c : Chord S T) (seqDur : T) : Chord S T :=
  { c with span := { c.span with seqDur } }

end Chord

section Layout

variable {S T : Type} [Scalar T]

/-- Total duration of a progression. -/
def totalDuration (cs : List (Chord S T)) : T := Scalar.sum (cs.map (·.span.dur))

/-- Chords that have their onsets, and when the last of them ends. -/
structure Timed (S T : Type) where
  chords : List (Chord S T)
  stop : T

/-- Sets the onsets of chords that begin at `onset`. Each chord moves the time on by its
duration. -/
def setOnsets (onset : T) : List (Chord S T) → Timed S T
  | [] => ⟨[], onset⟩
  | c :: cs =>
    let rest := setOnsets (onset + c.span.dur) cs
    ⟨c.withOnset onset :: rest.chords, rest.stop⟩

/-- The chords of a list of occurrences, in place. -/
def resolve (os : List (Occurrence S (Span T) Modulation)) : List (Chord S T) :=
  let timed := setOnsets 0 (os.map Chord.ofOccurrence)
  timed.chords.map (·.withSeqDur timed.stop)

end Layout

section Composition

variable {W S T σ : Type} [DecidableEq S] [Scalar W] [Scalar T] [DrawSource σ W]

/-- The progression that grows out of one chord in `n` passes. -/
def compose (table : MusicRules W S T) (n : Nat) (start : S) (span : Span T) (src : σ) :
    Except UnboundVariable (List (Chord S T)) × σ :=
  let (ts, src) := generate table n [.leaf start span] src
  ((expandSentence ts).map resolve, src)

theorem compose_eq (table : MusicRules W S T) (n : Nat) (start : S) (span : Span T) (src : σ) :
    compose table n start span src =
      ((expandSentence (generate table n [.leaf start span] src).1).map resolve,
        (generate table n [.leaf start span] src).2) := rfl

end Composition

section Account

variable {S T σ : Type} [DecidableEq S] [SymbolText S] [Scalar T] [DrawSource σ Float]

/-- The account of a composition. -/
def compositionRecords (table : MusicRules Float S T) (n : Nat) (start : S) (span : Span T)
    (src : σ) : List Log.Record :=
  let initial : Sentence S (Span T) Modulation := [.leaf start span]
  let (ts, _) := generate table n initial src
  let expansion := match expandSentence ts with
    | .ok os => [⟨.debug, s!"{ts.length} top-level terms expanded to {os.length} chords"⟩]
    | .error _ => []
  generationRecords table n n initial src ++ expansion

end Account
end ChordGrammar
