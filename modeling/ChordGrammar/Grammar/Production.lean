import ChordGrammar.Grammar.Draw
import ChordGrammar.Grammar.Rule

/-!
# Parallel production

A pass walks a form depth first, left to right, and replaces every leaf that has rules, with one
draw each. What a rule puts in place of its leaf waits for the next pass. A let's value and body are
treated independently, so a bound value is replaced once however often it is used.
-/
namespace ChordGrammar

variable {W S P M σ : Type} [DecidableEq S] [Scalar W] [DrawSource σ W]

/-- What takes the place of one leaf. A leaf without rules stays and takes no draw. -/
def produceLeaf (table : RuleTable W S P M) (s : S) (p : P) (src : σ) : Sentence S P M × σ :=
  match table.matching s with
  | [] => ([.leaf s p], src)
  | rules =>
    let (x, src) := draw src
    match select rules x with
    | some r => (r.production p, src)
    | none => ([.leaf s p], src)

mutual

/-- One pass over a term. A replaced leaf turns into the whole right-hand side of its rule; every
other node comes back as a single term. -/
def produceTerm (table : RuleTable W S P M) : Term S P M → σ → Sentence S P M × σ
  | .leaf s p, src => produceLeaf table s p src
  | .seq ts, src =>
    let (ts, src) := produce table ts src
    ([.seq ts], src)
  | .modulated m t, src =>
    let (ts, src) := produceTerm table t src
    ([.modulated m (.ofSentence ts)], src)
  | .letIn x v b, src =>
    let (vs, src) := produceTerm table v src
    let (bs, src) := produceTerm table b src
    ([.letIn x (.ofSentence vs) (.ofSentence bs)], src)
  | .var x, src => ([.var x], src)

/-- One pass over a sentence. -/
def produce (table : RuleTable W S P M) : List (Term S P M) → σ → Sentence S P M × σ
  | [], src => ([], src)
  | t :: ts, src =>
    let (us, src) := produceTerm table t src
    let (vs, src) := produce table ts src
    (us ++ vs, src)

end

/-- The form after `n` passes. Passes over a form whose leaves have no rules change nothing. -/
def generate (table : RuleTable W S P M) : Nat → Sentence S P M → σ → Sentence S P M × σ
  | 0, ts, src => (ts, src)
  | n + 1, ts, src =>
    let (ts, src) := produce table ts src
    generate table n ts src

/-- The initial form and the form after each of `n` passes. -/
def generateHistory (table : RuleTable W S P M) :
    Nat → Sentence S P M → σ → List (Sentence S P M) × σ
  | 0, ts, src => ([ts], src)
  | n + 1, ts, src =>
    let (us, src) := produce table ts src
    let (rest, src) := generateHistory table n us src
    (ts :: rest, src)

end ChordGrammar
