import ChordGrammar.Grammar.Production
import ChordGrammar.Log

/-!
# What a pass did

A pass takes one draw for each leaf that has rules, in reading order. The draws it took and those
leaves together say which rule was chosen where, so the account of a run is computed from its
forms and draws, and the run itself stays silent.
-/
namespace ChordGrammar

section Leaves

variable {W S P M : Type} [DecidableEq S]

mutual

/-- The leaves of a term that have rules, in reading order. -/
def openLeaves (table : RuleTable W S P M) : Term S P M → List (S × P)
  | .leaf s p => if (table.matching s).isEmpty then [] else [(s, p)]
  | .seq ts => sentenceOpenLeaves table ts
  | .modulated _ t => openLeaves table t
  | .letIn _ v b => openLeaves table v ++ openLeaves table b
  | .var _ => []

/-- The leaves of a list of terms that have rules, in reading order. -/
def sentenceOpenLeaves (table : RuleTable W S P M) : List (Term S P M) → List (S × P)
  | [] => []
  | t :: ts => openLeaves table t ++ sentenceOpenLeaves table ts

end

/-- One leaf with the draw made for it and the rule that the draw chose. -/
structure Choice (W S P M : Type) where
  symbol : S
  param : P
  draw : W
  rule : Rule W S P M

/-- The choices made in a pass, from its open leaves and its draws. -/
def choices [Scalar W] (table : RuleTable W S P M) (leaves : List (S × P)) (draws : List W) :
    List (Choice W S P M) :=
  (leaves.zip draws).filterMap fun ((s, p), x) =>
    (select (table.matching s) x).map fun r => ⟨s, p, x, r⟩

end Leaves

variable {S P M σ : Type} [SymbolText S]

/-- The account of one choice. -/
def Choice.record (r : Choice Float S P M) : Log.Record :=
  ⟨.trace, SymbolText.text r.symbol ++ " (draw " ++ Decimal.fixed 3 r.draw ++ ", p=" ++
    Decimal.Style.plain.text r.rule.weight ++ ") -> " ++
    toString (r.rule.production r.param).length ++ " terms"⟩

variable [DecidableEq S] [DrawSource σ Float]

/-- The account of the choices in one pass. -/
def passRecords (table : RuleTable Float S P M) (ts : Sentence S P M) (draws : List Float) :
    List Log.Record :=
  (choices table (sentenceOpenLeaves table ts) draws).map Choice.record

/-- The account of the last `n` passes out of `total`. -/
def generationRecords (table : RuleTable Float S P M) (total : Nat) :
    Nat → Sentence S P M → σ → List Log.Record
  | 0, _, _ => []
  | n + 1, ts, src =>
    let (us, after) := produce table ts (Recorded.start src : Recorded σ Float)
    let summary : Log.Record :=
      ⟨.debug, s!"pass {total - n}/{total}: {us.length} terms"⟩
    passRecords table ts after.history ++ summary :: generationRecords table total n us after.source

end ChordGrammar
