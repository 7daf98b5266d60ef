import Mathlib.Data.List.Forall2
import ChordGrammar.Music.Progression
import ChordGrammar.Proofs.DeferredSubstitution

/-!
# Runs that differ in their parameters

Suppose that two tables agree rule by rule: the same symbol, the same weight, and right-hand sides
that are the same once the parameters of the first are mapped to those of the second. Then a run
over the second table from mapped parameters is the mapped run over the first. Both take the same
draws, choose the same rules and expand to the same leaves under the same modulations.
-/
namespace ChordGrammar

variable {W S P Q M T σ : Type} {f : P → Q}

/-! ## Mapped forms -/

theorem Term.mapSentenceParam_append (f : P → Q) (ts us : List (Term S P M)) :
    Term.mapSentenceParam f (ts ++ us) =
      Term.mapSentenceParam f ts ++ Term.mapSentenceParam f us := by
  induction ts with
  | nil => rfl
  | cons t ts ih => simp only [List.cons_append, Term.mapSentenceParam, ih]

theorem Term.mapParam_ofSentence (f : P → Q) (ts : Sentence S P M) :
    (Term.ofSentence ts).mapParam f = .ofSentence (Term.mapSentenceParam f ts) := by
  match ts with
  | [] => rfl
  | [_] => rfl
  | _ :: _ :: _ => rfl

/-! ## Mapped rules -/

/-- The second rule does to mapped parameters what the first does to parameters. -/
structure Rule.MapsTo (f : P → Q) (r : Rule W S P M) (r' : Rule W S Q M) : Prop where
  symbol : r'.symbol = r.symbol
  weight : r'.weight = r.weight
  production : ∀ p, r'.production (f p) = Term.mapSentenceParam f (r.production p)

/-- The tables agree rule by rule. -/
def RuleTable.MapsTo (f : P → Q) (table : RuleTable W S P M) (table' : RuleTable W S Q M) : Prop :=
  List.Forall₂ (Rule.MapsTo f) table.rules table'.rules

/-- Guards that agree on mapped parameters keep the agreement. -/
theorem Rule.MapsTo.guarded {r : Rule W S P M} {r' : Rule W S Q M} (h : r.MapsTo f r')
    {accept : P → Bool} {accept' : Q → Bool} (haccept : ∀ p, accept' (f p) = accept p) :
    (r.guarded accept).MapsTo f (r'.guarded accept') where
  symbol := h.symbol
  weight := h.weight
  production p := by
    simp only [Rule.guarded, haccept, h.symbol, h.production]
    split_ifs <;> rfl

theorem RuleTable.MapsTo.matching [DecidableEq S] {table : RuleTable W S P M}
    {table' : RuleTable W S Q M} (h : table.MapsTo f table') (s : S) :
    List.Forall₂ (Rule.MapsTo f) (table.matching s) (table'.matching s) :=
  List.rel_filter (fun _ _ hr => by simp [hr.symbol]) h

theorem rel_getElem? {α β : Type} {R : α → β → Prop} {xs : List α} {ys : List β}
    (h : List.Forall₂ R xs ys) (i : Nat) : Option.Rel R xs[i]? ys[i]? := by
  induction h generalizing i with
  | nil => exact .none
  | cons hxy _ ih =>
    cases i with
    | zero => exact .some hxy
    | succ i => exact ih i

/-- The same draw selects corresponding rules. -/
theorem rel_select [Scalar W] {rules : List (Rule W S P M)} {rules' : List (Rule W S Q M)}
    (h : List.Forall₂ (Rule.MapsTo f) rules rules') (x : W) :
    Option.Rel (Rule.MapsTo f) (select rules x) (select rules' x) := by
  have hweights : rules'.map (·.weight) = rules.map (·.weight) := by
    rw [← List.forall₂_eq_eq_eq]
    simpa using (h.imp fun _ _ hr => hr.weight).flip
  rw [select, select, hweights]
  cases bucket (rules.map (·.weight)) x with
  | none => exact .none
  | some i => exact rel_getElem? h i

/-! ## Mapped runs -/

section Runs

variable [DecidableEq S] [Scalar W] [DrawSource σ W] {table : RuleTable W S P M}
  {table' : RuleTable W S Q M}

theorem produceLeaf_mapParam (h : table.MapsTo f table') (s : S) (p : P) (src : σ) :
    produceLeaf table' s (f p) src =
      (Term.mapSentenceParam f (produceLeaf table s p src).1, (produceLeaf table s p src).2) := by
  have hmatching := h.matching s
  rw [produceLeaf, produceLeaf]
  generalize table.matching s = rules at hmatching ⊢
  generalize table'.matching s = rules' at hmatching ⊢
  cases hmatching with
  | nil => rfl
  | @cons r r' rs rs' hr hrs =>
    have hselect := rel_select (.cons hr hrs) (draw src : W × σ).1
    simp only
    generalize select (r :: rs) (draw src : W × σ).1 = chosen at hselect ⊢
    generalize select (r' :: rs') (draw src : W × σ).1 = chosen' at hselect ⊢
    cases hselect with
    | none => rfl
    | some hchosen => simp only [hchosen.production]

mutual

theorem produceTerm_mapParam (h : table.MapsTo f table') : ∀ (t : Term S P M) (src : σ),
    produceTerm table' (t.mapParam f) src =
      (Term.mapSentenceParam f (produceTerm table t src).1, (produceTerm table t src).2)
  | .leaf s p, src => produceLeaf_mapParam h s p src
  | .seq ts, src => by
    simp only [Term.mapParam, produceTerm, produce_mapParam h ts src, Term.mapSentenceParam]
  | .modulated m t, src => by
    simp only [Term.mapParam, produceTerm, produceTerm_mapParam h t src, Term.mapSentenceParam,
      Term.mapParam_ofSentence]
  | .letIn x v b, src => by
    simp only [Term.mapParam, produceTerm, produceTerm_mapParam h v src,
      produceTerm_mapParam h b, Term.mapSentenceParam, Term.mapParam_ofSentence]
  | .var _, _ => rfl

/-- The step: a pass over a mapped sentence is the mapped pass. -/
theorem produce_mapParam (h : table.MapsTo f table') : ∀ (ts : List (Term S P M)) (src : σ),
    produce table' (Term.mapSentenceParam f ts) src =
      (Term.mapSentenceParam f (produce table ts src).1, (produce table ts src).2)
  | [], _ => rfl
  | t :: ts, src => by
    simp only [Term.mapSentenceParam, produce, produceTerm_mapParam h t src,
      produce_mapParam h ts, Term.mapSentenceParam_append]

end

/-- The run: so is any number of passes. -/
theorem generate_mapParam (h : table.MapsTo f table') (n : Nat) (ts : Sentence S P M) (src : σ) :
    generate table' n (Term.mapSentenceParam f ts) src =
      (Term.mapSentenceParam f (generate table n ts src).1, (generate table n ts src).2) := by
  induction n generalizing ts src with
  | zero => rfl
  | succ n ih => simp only [generate, produce_mapParam h ts src, ih]

end Runs

/-- A composition from a mapped span leaves its source like the composition from the span, and
resolves the same occurrences with their spans mapped. -/
theorem compose_mapParam [DecidableEq S] [Scalar W] [Scalar T] [DrawSource σ W]
    {table table' : MusicRules W S T} {f : Span T → Span T} (h : table.MapsTo f table') (n : Nat)
    (start : S) (p : Span T) (src : σ) :
    compose table' n start (f p) src =
      ((expandSentence (generate table n [.leaf start p] src).1).map fun os =>
        resolve (os.map (·.mapParam f)),
        (compose table n start p src).2) := by
  have hrun := generate_mapParam h n [.leaf start p] src
  simp only [Term.mapSentenceParam, Term.mapParam] at hrun
  rw [compose_eq, compose_eq, hrun, expandSentence_mapParam]
  cases expandSentence (generate table n [.leaf start p] src).1 <;> rfl

end ChordGrammar
