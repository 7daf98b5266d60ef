/-!
# Sentential forms

A `Term` is what generation works on: open leaves carrying a symbol and a parameter, put together
by juxtaposition, modulation and `let`. An `Occurrence` is what is left of one leaf once every
variable has been replaced by its value: the leaf and the modulations on the way to it.
-/
namespace ChordGrammar

/-- A node of a sentential form over symbols `S`, parameters `P` and modulations `M`. -/
inductive Term (S P M : Type) where
  /-- An open leaf, replaced in every pass if its symbol has rules. -/
  | leaf (symbol : S) (param : P)
  /-- Juxtaposition. -/
  | seq (terms : List (Term S P M))
  /-- A change of context for everything inside `term`. -/
  | modulated (modulation : M) (term : Term S P M)
  /-- Binds `name` to `value` within `body`. -/
  | letIn (name : String) (value body : Term S P M)
  /-- Stands for the innermost enclosing binding of `name`. -/
  | var (name : String)
  deriving Inhabited

/-- Terms in playing order. -/
abbrev Sentence (S P M : Type) := List (Term S P M)

namespace Term

variable {S P M : Type}

/-- A sentence as one term: a single element stands for itself, anything else is a `seq`. -/
def ofSentence : Sentence S P M → Term S P M
  | [t] => t
  | ts => .seq ts

mutual

/-- Number of leaves anywhere in a term, let values and bodies included. -/
def leafCount : Term S P M → Nat
  | .leaf _ _ => 1
  | .seq ts => sentenceLeafCount ts
  | .modulated _ t => leafCount t
  | .letIn _ v b => leafCount v + leafCount b
  | .var _ => 0

/-- Number of leaves in a list of terms. -/
def sentenceLeafCount : List (Term S P M) → Nat
  | [] => 0
  | t :: ts => leafCount t + sentenceLeafCount ts

end

mutual

/-- The same form with every leaf parameter replaced by its image under `f`. -/
def mapParam {Q : Type} (f : P → Q) : Term S P M → Term S Q M
  | .leaf s p => .leaf s (f p)
  | .seq ts => .seq (mapSentenceParam f ts)
  | .modulated m t => .modulated m (mapParam f t)
  | .letIn x v b => .letIn x (mapParam f v) (mapParam f b)
  | .var x => .var x

/-- `mapParam` on every term of a list. -/
def mapSentenceParam {Q : Type} (f : P → Q) : List (Term S P M) → List (Term S Q M)
  | [] => []
  | t :: ts => mapParam f t :: mapSentenceParam f ts

end

mutual

/-- Equality of forms, given equality of symbols, parameters and modulations. -/
def beq [BEq S] [BEq P] [BEq M] : Term S P M → Term S P M → Bool
  | .leaf s p, .leaf s' p' => s == s' && p == p'
  | .seq ts, .seq ts' => beqSentence ts ts'
  | .modulated m t, .modulated m' t' => m == m' && beq t t'
  | .letIn x v b, .letIn x' v' b' => x == x' && beq v v' && beq b b'
  | .var x, .var x' => x == x'
  | _, _ => false

/-- Equality of lists of terms, element by element. -/
def beqSentence [BEq S] [BEq P] [BEq M] : List (Term S P M) → List (Term S P M) → Bool
  | [], [] => true
  | t :: ts, t' :: ts' => beq t t' && beqSentence ts ts'
  | _, _ => false

end

instance [BEq S] [BEq P] [BEq M] : BEq (Term S P M) := ⟨beq⟩

end Term

/-- A leaf in its final place, with the modulations around it, outermost first. -/
structure Occurrence (S P M : Type) where
  modulations : List M
  symbol : S
  param : P
  deriving BEq, DecidableEq

namespace Occurrence

variable {S P M : Type}

/-- A leaf under no modulation. -/
def ofLeaf (s : S) (p : P) : Occurrence S P M := ⟨[], s, p⟩

/-- The occurrence inside one more modulation. -/
def modulate (m : M) (o : Occurrence S P M) : Occurrence S P M :=
  { o with modulations := m :: o.modulations }

end Occurrence
end ChordGrammar
