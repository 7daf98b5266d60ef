import ChordGrammar.Decimal.Style
import ChordGrammar.Scalar
import ChordGrammar.Grammar.Term
import ChordGrammar.Text.Quoted

/-!
# Rules

A rule pairs a symbol and a weight with a production, a function from the parameter of a leaf to
the sentence that takes its place. The rules of one symbol, in table order, cut the draws into
consecutive buckets whose widths are their weights; a draw at or beyond the total falls into the
last bucket, so weights need not add up to one.

In messages strings and characters that stand for symbols are quoted, symbols with names of their
own are not.
-/
namespace ChordGrammar

/-- A weighted production `symbol → production param`. -/
structure Rule (W S P M : Type) where
  symbol : S
  weight : W
  production : P → Sentence S P M

/-- A weight that is not in `(0, 1]`, with the text of the symbol it was meant for. -/
structure MalformedRule (W : Type) where
  symbol : String
  weight : W

/-- How a symbol is named in messages. -/
class SymbolText (S : Type) where
  text : S → String

namespace Rule

variable {W S P M : Type}

/-- A rule whose weight has been checked. -/
def ofWeight [Scalar W] [SymbolText S] (symbol : S) (weight : W)
    (production : P → Sentence S P M) : Except (MalformedRule W) (Rule W S P M) :=
  if 0 < weight ∧ weight ≤ 1 then .ok ⟨symbol, weight, production⟩
  else .error ⟨SymbolText.text symbol, weight⟩

/-- The rule is what its own symbol, weight and production make, when they are checked. -/
def Accepted [Scalar W] [SymbolText S] (r : Rule W S P M) : Prop :=
  ofWeight r.symbol r.weight r.production = .ok r

theorem accepted_iff [Scalar W] [SymbolText S] (r : Rule W S P M) :
    r.Accepted ↔ 0 < r.weight ∧ r.weight ≤ 1 := by
  unfold Accepted ofWeight
  by_cases h : 0 < r.weight ∧ r.weight ≤ 1
  · simp [h]
  · simp [h]

/-- The rule restricted to the parameters that `accept` takes; it puts every other leaf in its own
place. Symbol and weight stay, so the buckets of a table do too. -/
def guarded (r : Rule W S P M) (accept : P → Bool) : Rule W S P M :=
  { r with production := fun p => if accept p then r.production p else [.leaf r.symbol p] }

end Rule

/-- The elements of a list without the repetitions of earlier ones. -/
def firstAppearances {α : Type} [DecidableEq α] : List α → List α
  | [] => []
  | x :: xs => x :: (firstAppearances xs).filter (· ≠ x)

/-- Rules in the order in which they were added. -/
structure RuleTable (W S P M : Type) where
  rules : List (Rule W S P M)

namespace RuleTable

variable {W S P M : Type}

def empty : RuleTable W S P M := ⟨[]⟩

def push (table : RuleTable W S P M) (r : Rule W S P M) : RuleTable W S P M :=
  ⟨table.rules ++ [r]⟩

def size (table : RuleTable W S P M) : Nat := table.rules.length

def isEmpty (table : RuleTable W S P M) : Bool := table.rules.isEmpty

variable [DecidableEq S]

/-- The rules for `symbol`, in table order. A symbol without any is terminal. -/
def matching (table : RuleTable W S P M) (symbol : S) : List (Rule W S P M) :=
  table.rules.filter (·.symbol = symbol)

/-- Where in the table the rules for `symbol` stand. -/
def positions (table : RuleTable W S P M) (symbol : S) : List Nat :=
  (table.rules.zipIdx.filter (·.1.symbol = symbol)).map (·.2)

variable [Scalar W]

/-- Summed weight of the rules for `symbol`. -/
def totalWeight (table : RuleTable W S P M) (symbol : S) : W :=
  Scalar.sum ((table.matching symbol).map (·.weight))

/-- The symbols with rules, each once, by first appearance. -/
def symbols (table : RuleTable W S P M) : List S :=
  firstAppearances (table.rules.map (·.symbol))

/-- The symbols whose weights miss one by more than `tolerance`, by first appearance. -/
def unnormalized (table : RuleTable W S P M) (tolerance : W) : List S :=
  table.symbols.filter fun s => tolerance < Scalar.distance (table.totalWeight s) 1

end RuleTable

section Selection

variable {W S P M : Type} [Scalar W]

/-- The bucket a draw falls into when the first one starts at `lower`: the first whose upper end
is above the draw, or else the last. -/
def bucketFrom (lower : W) : List W → W → Option Nat
  | [], _ => none
  | [_], _ => some 0
  | w :: ws, x => if x < lower + w then some 0 else (bucketFrom (lower + w) ws x).map (· + 1)

/-- The bucket a draw falls into, for buckets laid end to end from zero. -/
def bucket (weights : List W) (x : W) : Option Nat := bucketFrom 0 weights x

/-- The rule whose bucket holds the draw; there is one unless the list is empty. -/
def select (rules : List (Rule W S P M)) (x : W) : Option (Rule W S P M) :=
  (bucket (rules.map (·.weight)) x).bind fun i => rules[i]?

end Selection

section Messages

instance : SymbolText String := ⟨Text.quoteString⟩
instance : SymbolText Char := ⟨Text.quoteChar⟩

/-- What is reported to the user. -/
def MalformedRule.message (e : MalformedRule Float) : String :=
  "malformed rule for " ++ e.symbol ++ ": probability " ++ Decimal.Style.plain.text e.weight ++
    " is outside (0, 1]"

variable {S P M : Type} [SymbolText S]

/-- A rule for display; its production is a function and is left out. -/
def Rule.describe (r : Rule Float S P M) : String :=
  "Rule \x7b symbol: " ++ SymbolText.text r.symbol ++ ", probability: " ++
    Decimal.Style.listing.text r.weight ++ ", .. \x7d"

def RuleTable.describe (table : RuleTable Float S P M) : String :=
  "[" ++ ", ".intercalate (table.rules.map Rule.describe) ++ "]"

end Messages
end ChordGrammar
