import ChordGrammar.Grammar.Term

/-!
# Leaves in reading order

The leaves of a form from left to right, depth first, a let's value before its body. Each comes with
the modulations on the way from the root to it, outermost first.
-/
namespace ChordGrammar

variable {S P Q M : Type}

namespace Occurrence

/-- The occurrence inside further modulations, the outermost first in the list. -/
def under (ms : List M) (o : Occurrence S P M) : Occurrence S P M :=
  { o with modulations := ms ++ o.modulations }

@[simp] theorem under_nil (o : Occurrence S P M) : o.under [] = o := rfl

end Occurrence

mutual

/-- The leaves of a term that stands under the modulations of `path`. -/
def leavesUnder (path : List M) : Term S P M → List (Occurrence S P M)
  | .leaf s p => [⟨path, s, p⟩]
  | .seq ts => sentenceLeavesUnder path ts
  | .modulated m t => leavesUnder (path ++ [m]) t
  | .letIn _ v b => leavesUnder path v ++ leavesUnder path b
  | .var _ => []

/-- The leaves of a list of terms, one term after the other. -/
def sentenceLeavesUnder (path : List M) : List (Term S P M) → List (Occurrence S P M)
  | [] => []
  | t :: ts => leavesUnder path t ++ sentenceLeavesUnder path ts

end

/-- The leaves of a sentence that nothing encloses. -/
def sentenceLeaves (ts : Sentence S P M) : List (Occurrence S P M) := sentenceLeavesUnder [] ts

mutual

/-- Leaves under a path are the leaves alone, moved under the path. -/
theorem leavesUnder_append : ∀ (t : Term S P M) (ms path : List M),
    leavesUnder (ms ++ path) t = (leavesUnder path t).map (·.under ms)
  | .leaf _ _, _, _ => rfl
  | .seq ts, ms, path => sentenceLeavesUnder_append ts ms path
  | .modulated m t, ms, path => by
    simpa only [leavesUnder, List.append_assoc] using leavesUnder_append t ms (path ++ [m])
  | .letIn _ v b, ms, path => by
    simp only [leavesUnder, leavesUnder_append v ms path, leavesUnder_append b ms path,
      List.map_append]
  | .var _, _, _ => rfl

theorem sentenceLeavesUnder_append : ∀ (ts : List (Term S P M)) (ms path : List M),
    sentenceLeavesUnder (ms ++ path) ts = (sentenceLeavesUnder path ts).map (·.under ms)
  | [], _, _ => rfl
  | t :: ts, ms, path => by
    simp only [sentenceLeavesUnder, leavesUnder_append t ms path,
      sentenceLeavesUnder_append ts ms path, List.map_append]

end

theorem sentenceLeavesUnder_eq_flatMap (path : List M) (ts : List (Term S P M)) :
    sentenceLeavesUnder path ts = ts.flatMap (leavesUnder path) := by
  induction ts with
  | nil => rfl
  | cons t ts ih => rw [sentenceLeavesUnder, ih, List.flatMap_cons]

theorem leavesUnder_ofSentence (path : List M) (ts : Sentence S P M) :
    leavesUnder path (.ofSentence ts) = sentenceLeavesUnder path ts := by
  match ts with
  | [] => rfl
  | [t] => simp only [Term.ofSentence, sentenceLeavesUnder, List.append_nil]
  | _ :: _ :: _ => rfl

mutual

theorem length_leavesUnder : ∀ (t : Term S P M) (path : List M),
    (leavesUnder path t).length = t.leafCount
  | .leaf _ _, _ => rfl
  | .seq ts, path => length_sentenceLeavesUnder ts path
  | .modulated m t, path => length_leavesUnder t (path ++ [m])
  | .letIn _ v b, path => by
    simp only [leavesUnder, List.length_append, length_leavesUnder v path,
      length_leavesUnder b path, Term.leafCount]
  | .var _, _ => rfl

theorem length_sentenceLeavesUnder : ∀ (ts : List (Term S P M)) (path : List M),
    (sentenceLeavesUnder path ts).length = Term.sentenceLeafCount ts
  | [], _ => rfl
  | t :: ts, path => by
    simp only [sentenceLeavesUnder, List.length_append, length_leavesUnder t path,
      length_sentenceLeavesUnder ts path, Term.sentenceLeafCount]

end

end ChordGrammar
