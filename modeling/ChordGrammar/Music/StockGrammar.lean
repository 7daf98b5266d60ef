import ChordGrammar.Music.Modulation
import ChordGrammar.Music.Symbol

/-!
# Stock grammars

The functional grammar keeps a tonic region, splits it in two, or splits it into a tonic and a
dominant in either order; dominants may be prepared by a subdominant. The Roman grammar works on
chord degrees and uses the whole term language: proportional splits, a modulation to the dominant,
and a `let` that states a half-length phrase twice.

Every rule that splits is guarded by a least duration. Below it the rule leaves the chord as it is,
so the weights and buckets are the same however deep generation goes. All weights lie in `(0, 1]`:
`Rule.ofWeight` would refuse none of these rules.
-/
namespace ChordGrammar

/-- A term over chord symbols `S` with durations `T`. -/
abbrev MusicTerm (S T : Type) := Term S (Span T) Modulation

/-- A rule over chord symbols. -/
abbrev MusicRule (W S T : Type) := Rule W S (Span T) Modulation

/-- A rule table over chord symbols. -/
abbrev MusicRules (W S T : Type) := RuleTable W S (Span T) Modulation

section Shapes

variable {W S T : Type} [Scalar T]

/-- A rule that leaves its chord as it is. -/
def staying (s : S) (weight : W) : MusicRule W S T := ⟨s, weight, fun p => [.leaf s p]⟩

/-- A rule that fires only on spans of at least `factor` times the least duration. -/
def splitting (s : S) (weight : W) (least factor : T)
    (production : Span T → List (MusicTerm S T)) : MusicRule W S T :=
  (Rule.mk s weight production).guarded fun p => factor * least ≤ p.dur

/-- Two chords of half the length each. -/
def halves (a b : S) (p : Span T) : List (MusicTerm S T) := [.leaf a p.half, .leaf b p.half]

end Shapes

variable {W T : Type} [Scalar W] [Scalar T]

open Region in
/-- The functional grammar. Chords shorter than twice `least` stay. -/
def functionalRules (least : T) : MusicRules W Region T where
  rules :=
    let split (s a b : Region) (weight : W) :=
      splitting s weight least ((2 : Nat) : T) (halves a b)
    [ staying tonic 0.25,
      split tonic tonic tonic 0.25,
      split tonic tonic dominant 0.25,
      split tonic dominant tonic 0.25,
      staying dominant 0.33,
      split dominant dominant dominant 0.33,
      split dominant subdominant dominant 0.34,
      staying subdominant 0.5,
      split subdominant subdominant subdominant 0.5 ]

/-- Three quarters of tonic and one quarter of dominant. -/
def threeToOne (p : Span T) : List (MusicTerm Numeral T) :=
  [.leaf .I (p.scaled 0.75), .leaf .V (p.scaled 0.25)]

/-- The first half in the key of the dominant. -/
def tonicized (p : Span T) : List (MusicTerm Numeral T) :=
  [.modulated .fifth (.leaf .I p.half), .leaf .I p.half]

/-- A half-length phrase, stated twice. -/
def repeated (p : Span T) : List (MusicTerm Numeral T) :=
  [.letIn "x" (.leaf .I p.half) (.seq [.var "x", .var "x"])]

open Numeral in
/-- The grammar on chord degrees. -/
def romanRules (least : T) : MusicRules W Numeral T where
  rules :=
    let split (s : Numeral) (weight : W) := splitting s weight least ((2 : Nat) : T)
    [ splitting I 0.3 least ((4 : Nat) : T) threeToOne,
      split I 0.3 (halves I I),
      split I 0.2 tonicized,
      split I 0.2 repeated,
      split V 0.4 (halves IV V),
      split V 0.3 (halves II V),
      staying V 0.3,
      staying IV 0.5,
      split IV 0.5 (halves IV II) ]

end ChordGrammar
