import ChordGrammar.Proofs.Leaves
import ChordGrammar.Proofs.Scoping

/-!
# Expansion is lexical inlining

Inlining works on forms alone: first the body and the value of a let, then the inlined value takes
the place of the variables that are left under its name in the inlined body. No let is left there
to capture a name of the value, and what an inner let of the same name bound is gone already. The
main statement is that a closed sentence expands to the leaves of its inlined form, in reading order
and each under the modulations on its path.
-/
namespace ChordGrammar

variable {S P M : Type}

/-! ## Inlined forms -/

mutual

/-- The form with `v` in place of the free variables named `x`. -/
def substitute (x : String) (v : Term S P M) : Term S P M → Term S P M
  | .leaf s p => .leaf s p
  | .seq ts => .seq (substituteSentence x v ts)
  | .modulated m t => .modulated m (substitute x v t)
  | .letIn y w b => .letIn y (substitute x v w) (if y = x then b else substitute x v b)
  | .var y => if y = x then v else .var y

/-- `substitute` in every term of a list. -/
def substituteSentence (x : String) (v : Term S P M) : List (Term S P M) → List (Term S P M)
  | [] => []
  | t :: ts => substitute x v t :: substituteSentence x v ts

end

mutual

/-- The form with every let dropped and every bound variable replaced by its value. -/
def inlined : Term S P M → Term S P M
  | .leaf s p => .leaf s p
  | .seq ts => .seq (sentenceInlined ts)
  | .modulated m t => .modulated m (inlined t)
  | .letIn x v b => substitute x (inlined v) (inlined b)
  | .var x => .var x

/-- `inlined` on every term of a list. -/
def sentenceInlined : List (Term S P M) → List (Term S P M)
  | [] => []
  | t :: ts => inlined t :: sentenceInlined ts

end

mutual

/-- A form without lets whose variables are among `names`. -/
def LetFree (names : List String) : Term S P M → Prop
  | .leaf _ _ => True
  | .seq ts => SentenceLetFree names ts
  | .modulated _ t => LetFree names t
  | .letIn _ _ _ => False
  | .var x => x ∈ names

/-- `LetFree` for every term of a list. -/
def SentenceLetFree (names : List String) : List (Term S P M) → Prop
  | [] => True
  | t :: ts => LetFree names t ∧ SentenceLetFree names ts

end

mutual

/-- Substitution removes the name that it substitutes for. -/
theorem letFree_substitute {x : String} {v : Term S P M} {names : List String}
    (hv : LetFree names v) :
    ∀ (t : Term S P M), LetFree (x :: names) t → LetFree names (substitute x v t)
  | .leaf _ _, _ => trivial
  | .seq ts, h => sentenceLetFree_substituteSentence hv ts h
  | .modulated _ t, h => letFree_substitute hv t h
  | .letIn _ _ _, h => h.elim
  | .var y, h => by
    by_cases hyx : y = x
    · simpa only [substitute, if_pos hyx] using hv
    · simp only [substitute, if_neg hyx]
      exact List.mem_of_ne_of_mem hyx h

theorem sentenceLetFree_substituteSentence {x : String} {v : Term S P M} {names : List String}
    (hv : LetFree names v) :
    ∀ (ts : List (Term S P M)), SentenceLetFree (x :: names) ts →
      SentenceLetFree names (substituteSentence x v ts)
  | [], _ => trivial
  | t :: ts, h => ⟨letFree_substitute hv t h.1, sentenceLetFree_substituteSentence hv ts h.2⟩

end

mutual

/-- Only the free names of a form are left as variables when it is inlined. -/
theorem letFree_inlined : ∀ (t : Term S P M) {names : List String},
    (∀ x ∈ freeNames t, x ∈ names) → LetFree names (inlined t)
  | .leaf _ _, _, _ => trivial
  | .seq ts, _, h => sentenceLetFree_sentenceInlined ts h
  | .modulated _ t, _, h => letFree_inlined t h
  | .letIn x v b, names, h => by
    have hv : LetFree names (inlined v) :=
      letFree_inlined v fun y hy => h y (mem_freeNames_letIn.mpr (Or.inl hy))
    have hb : LetFree (x :: names) (inlined b) := by
      apply letFree_inlined b
      intro y hy
      by_cases hyx : y = x
      · exact List.mem_cons.mpr (Or.inl hyx)
      · exact List.mem_cons_of_mem x (h y (mem_freeNames_letIn.mpr (Or.inr ⟨hy, hyx⟩)))
    exact letFree_substitute hv (inlined b) hb
  | .var x, _, h => h x (by simp [freeNames])

theorem sentenceLetFree_sentenceInlined : ∀ (ts : List (Term S P M)) {names : List String},
    (∀ x ∈ sentenceFreeNames ts, x ∈ names) → SentenceLetFree names (sentenceInlined ts)
  | [], _, _ => trivial
  | t :: ts, _, h =>
    ⟨letFree_inlined t fun y hy => h y (by simp [sentenceFreeNames, hy]),
      sentenceLetFree_sentenceInlined ts fun y hy => h y (by simp [sentenceFreeNames, hy])⟩

end

/-! ## What an inlined form stands for -/

mutual

/-- In a form without lets, a substituted term acts like a binding to what it stands for. -/
theorem occurrences_substitute {x : String} {v : Term S P M} {ρ : Bindings S P M}
    {value : List (Occurrence S P M)} {names : List String} (hv : occurrences v ρ = .ok value) :
    ∀ (t : Term S P M), LetFree names t →
      occurrences (substitute x v t) ρ = occurrences t (Function.update ρ x (some value))
  | .leaf _ _, _ => rfl
  | .seq ts, h => sentenceOccurrences_substituteSentence hv ts h
  | .modulated m t, h => by
    simp only [substitute, occurrences, occurrences_substitute hv t h]
  | .letIn _ _ _, h => h.elim
  | .var y, _ => by
    by_cases hyx : y = x
    · simp [substitute, occurrences, hyx, hv]
    · simp [substitute, occurrences, hyx]

theorem sentenceOccurrences_substituteSentence {x : String} {v : Term S P M}
    {ρ : Bindings S P M} {value : List (Occurrence S P M)} {names : List String}
    (hv : occurrences v ρ = .ok value) :
    ∀ (ts : List (Term S P M)), SentenceLetFree names ts →
      sentenceOccurrences (substituteSentence x v ts) ρ =
        sentenceOccurrences ts (Function.update ρ x (some value))
  | [], _ => rfl
  | t :: ts, h => by
    simp only [substituteSentence, sentenceOccurrences, occurrences_substitute hv t h.1,
      sentenceOccurrences_substituteSentence hv ts h.2]

end

mutual

/-- Inlining does not change what a term stands for, as long as its free names stand for something.
Without that an unused value could fail, and inlining would drop it. -/
theorem occurrences_inlined : ∀ (t : Term S P M) {ρ : Bindings S P M},
    Covers ρ (freeNames t) → occurrences (inlined t) ρ = occurrences t ρ
  | .leaf _ _, _, _ => rfl
  | .seq ts, _, h => sentenceOccurrences_sentenceInlined ts h
  | .modulated _ t, _, h => by simp only [inlined, occurrences, occurrences_inlined t h]
  | .letIn x v b, ρ, h => by
    obtain ⟨value, hv⟩ := exists_occurrences v h.value
    have hiv : occurrences (inlined v) ρ = .ok value := by rw [occurrences_inlined v h.value, hv]
    have hb : LetFree (freeNames b) (inlined b) := letFree_inlined b fun _ hy => hy
    simp only [inlined, occurrences, hv, Except.bind]
    rw [occurrences_substitute hiv (inlined b) hb, occurrences_inlined b (h.body value)]
  | .var _, _, _ => rfl

theorem sentenceOccurrences_sentenceInlined : ∀ (ts : List (Term S P M)) {ρ : Bindings S P M},
    Covers ρ (sentenceFreeNames ts) →
      sentenceOccurrences (sentenceInlined ts) ρ = sentenceOccurrences ts ρ
  | [], _, _ => rfl
  | t :: ts, _, h => by
    simp only [sentenceInlined, sentenceOccurrences, occurrences_inlined t h.head,
      sentenceOccurrences_sentenceInlined ts h.tail]

end

mutual

/-- A form without lets and variables stands for its leaves. -/
theorem occurrences_eq_leavesUnder : ∀ (t : Term S P M) (ρ : Bindings S P M),
    LetFree [] t → occurrences t ρ = .ok (leavesUnder [] t)
  | .leaf _ _, _, _ => rfl
  | .seq ts, ρ, h => sentenceOccurrences_eq_sentenceLeavesUnder ts ρ h
  | .modulated m t, ρ, h => by
    have hm : leavesUnder [m] t = (leavesUnder [] t).map (·.modulate m) :=
      leavesUnder_append t [m] []
    simp only [occurrences, occurrences_eq_leavesUnder t ρ h, leavesUnder, List.nil_append, hm]
    rfl
  | .letIn _ _ _, _, h => h.elim
  | .var _, _, h => absurd h List.not_mem_nil

theorem sentenceOccurrences_eq_sentenceLeavesUnder :
    ∀ (ts : List (Term S P M)) (ρ : Bindings S P M), SentenceLetFree [] ts →
      sentenceOccurrences ts ρ = .ok (sentenceLeavesUnder [] ts)
  | [], _, _ => rfl
  | t :: ts, ρ, h => by
    simp only [sentenceOccurrences, occurrences_eq_leavesUnder t ρ h.1,
      sentenceOccurrences_eq_sentenceLeavesUnder ts ρ h.2, sentenceLeavesUnder]
    rfl

end

/-- A closed sentence expands to the leaves of its inlined form, which has no let and no variable
left. -/
theorem expandSentence_eq_leaves (ts : Sentence S P M) (h : Closed ts) :
    SentenceLetFree [] (sentenceInlined ts) ∧
      expandSentence ts = .ok (sentenceLeaves (sentenceInlined ts)) := by
  have hfree : SentenceLetFree [] (sentenceInlined ts) :=
    sentenceLetFree_sentenceInlined ts fun x hx => h ▸ hx
  have hcovers : Covers (fun _ => none : Bindings S P M) (sentenceFreeNames ts) :=
    fun x hx => absurd (h ▸ hx) List.not_mem_nil
  refine ⟨hfree, ?_⟩
  calc expandSentence ts = sentenceOccurrences ts fun _ => none := expandSentence_eq ts
    _ = sentenceOccurrences (sentenceInlined ts) fun _ => none :=
      (sentenceOccurrences_sentenceInlined ts hcovers).symm
    _ = .ok (sentenceLeaves (sentenceInlined ts)) :=
      sentenceOccurrences_eq_sentenceLeavesUnder (sentenceInlined ts) _ hfree

/-- An inner let of the same name whose value reads the outer one, under a modulation. -/
def shadowing : Sentence Char Nat Nat :=
  [.letIn "x" (.leaf 'A' 1)
    (.modulated 5 (.letIn "x" (.seq [.var "x", .modulated 2 (.leaf 'B' 2)])
      (.seq [.var "x", .leaf 'C' 3, .var "x"])))]

theorem expandSentence_shadowing :
    Closed shadowing ∧
      expandSentence shadowing =
        .ok [⟨[5], 'A', 1⟩, ⟨[5, 2], 'B', 2⟩, ⟨[5], 'C', 3⟩, ⟨[5], 'A', 1⟩, ⟨[5, 2], 'B', 2⟩] := by
  have hclosed : Closed shadowing := by decide
  refine ⟨hclosed, ?_⟩
  rw [(expandSentence_eq_leaves shadowing hclosed).2]
  rfl

end ChordGrammar
