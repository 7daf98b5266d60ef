import Mathlib.Data.List.Chain
import Mathlib.Data.List.ProdSigma
import ChordGrammar.Proofs.Layout
import ChordGrammar.Proofs.StockRules

/-!
# Harmonic syntax of the stock grammars

Which chord may follow which, which may open a progression and which may close it, is a matter of
neighbours, once the two ends count as neighbours too. A block may take the place of a symbol if it
may stand between any two neighbours that the symbol may stand between. Then all symbols may be
replaced at once, although the neighbours of each change with it. A progression that grows from a
single chord keeps to the neighbours that its grammar allows.
-/
namespace ChordGrammar

variable {W S P M T σ : Type}

/-! ## Words by their neighbours -/

/-- The pairs of neighbours that a grammar allows. `none` is the edge of the word. -/
abbrev Neighbours (S : Type) := List (Option S × Option S)

section Words

variable {allowed : Neighbours S} {a b : Option S} {s : S} {word rest block : List S}

/-- The word may stand between the two neighbours. -/
def Between (allowed : Neighbours S) (a b : Option S) (word : List S) : Prop :=
  (a :: (word.map some ++ [b])).IsChain fun x y => (x, y) ∈ allowed

instance [DecidableEq S] (allowed : Neighbours S) (a b : Option S) (word : List S) :
    Decidable (Between allowed a b word) :=
  inferInstanceAs (Decidable (List.IsChain _ _))

/-- The block may stand wherever the symbol may. -/
def Fits (allowed : Neighbours S) (s : S) (block : List S) : Prop :=
  ∀ l ∈ allowed, l.2 = some s → ∀ r ∈ allowed, r.1 = some s → Between allowed l.1 r.2 block

instance [DecidableEq S] (allowed : Neighbours S) (s : S) (block : List S) :
    Decidable (Fits allowed s block) :=
  inferInstanceAs (Decidable (∀ l ∈ allowed, l.2 = some s → ∀ r ∈ allowed, r.1 = some s →
    Between allowed l.1 r.2 block))

theorem between_nil : Between allowed a b [] ↔ (a, b) ∈ allowed := List.isChain_pair

theorem between_cons :
    Between allowed a b (s :: word) ↔ (a, some s) ∈ allowed ∧ Between allowed (some s) b word :=
  List.isChain_cons_cons

theorem between_append_cons : Between allowed a b (word ++ s :: rest) ↔
    Between allowed a (some s) word ∧ Between allowed (some s) b rest := by
  rw [Between, List.map_append, List.map_cons, List.append_assoc, List.cons_append]
  exact List.isChain_cons_split

theorem fits_singleton (allowed : Neighbours S) (s : S) : Fits allowed s [s] := by
  rintro ⟨a, _⟩ hl rfl ⟨_, b⟩ hr rfl
  exact between_cons.mpr ⟨hl, between_nil.mpr hr⟩

/-- A block takes the place of its symbol at the head of a word. -/
theorem Fits.between_append (hfits : Fits allowed s block) (hs : (a, some s) ∈ allowed)
    (hrest : Between allowed (some s) b rest) : Between allowed a b (block ++ rest) := by
  cases rest with
  | nil =>
    rw [List.append_nil]
    exact hfits _ hs rfl _ (between_nil.mp hrest) rfl
  | cons c rest =>
    obtain ⟨hc, hrest⟩ := between_cons.mp hrest
    exact between_append_cons.mpr ⟨hfits _ hs rfl _ hc rfl, hrest⟩

/-- Blocks take the place of all symbols of a word at once. -/
theorem between_flatten {blocks : List (List S)} (h : List.Forall₂ (Fits allowed) word blocks)
    (hword : Between allowed a b word) : Between allowed a b blocks.flatten := by
  -- `ih` still has the old symbol in front of the rest, so each block meets neighbours that its
  -- symbol may have.
  induction h generalizing a with
  | nil => exact hword
  | cons hfits _ ih =>
    obtain ⟨hs, hrest⟩ := between_cons.mp hword
    exact hfits.between_append hs (ih hrest)

theorem Between.exists_head? (h : Between allowed a b word) (hne : word ≠ []) :
    ∃ s, word.head? = some s ∧ (a, some s) ∈ allowed := by
  cases word with
  | nil => exact absurd rfl hne
  | cons s word => exact ⟨s, rfl, (between_cons.mp h).1⟩

theorem Between.exists_getLast? (h : Between allowed a b word) (hne : word ≠ []) :
    ∃ s, word.getLast? = some s ∧ (some s, b) ∈ allowed := by
  obtain rfl | ⟨front, s, rfl⟩ := List.eq_nil_or_concat' word
  · exact absurd rfl hne
  · exact ⟨s, by simp, between_nil.mp (between_append_cons.mp h).2⟩

/-- Every symbol of the word may follow something. -/
theorem Between.exists_before (h : Between allowed a b word) (hs : s ∈ word) :
    ∃ l, (l, some s) ∈ allowed := by
  induction word generalizing a with
  | nil => simp at hs
  | cons c word ih =>
    obtain ⟨hc, hrest⟩ := between_cons.mp h
    rcases List.mem_cons.mp hs with rfl | hs
    · exact ⟨a, hc⟩
    · exact ih hrest hs

theorem Between.isChain (h : Between allowed a b word) :
    word.IsChain fun x y => (some x, some y) ∈ allowed := by
  have hword : (word.map some).IsChain fun x y => (x, y) ∈ allowed :=
    (List.isChain_of_isChain_cons h).left_of_append
  exact (List.isChain_map some).mp hword

end Words

/-! ## Passes -/

/-- The symbols of the occurrences may stand wherever the chord may. -/
def KeepsNeighbours (allowed : Neighbours S) (s : S) (_ : P) (os : List (Occurrence S P M)) :
    Prop :=
  Fits allowed s (os.map (·.symbol))

section Passes

variable [DecidableEq S] {allowed : Neighbours S}

theorem fits_of_rewritten {table : RuleTable W S P M}
    (htable : ∀ r ∈ table.rules, r.Yields (KeepsNeighbours allowed))
    {o : Occurrence S P M} {piece : List (Occurrence S P M)} (h : Rewritten table o piece) :
    Fits allowed o.symbol (piece.map (·.symbol)) := by
  rcases h.eq_or_yields htable with rfl | ⟨os, hfits, rfl⟩
  · exact fits_singleton allowed o.symbol
  · rw [List.map_map]
    exact hfits

/-- The step: a pass keeps to the allowed neighbours. -/
theorem between_pieces {table : RuleTable W S P M}
    (htable : ∀ r ∈ table.rules, r.Yields (KeepsNeighbours allowed))
    {a b : Option S} {es : List (Occurrence S P M)} {pieces : List (List (Occurrence S P M))}
    (hes : Between allowed a b (es.map (·.symbol)))
    (h : List.Forall₂ (Rewritten table) es pieces) :
    Between allowed a b (pieces.flatten.map (·.symbol)) := by
  rw [List.map_flatten]
  refine between_flatten ?_ hes
  rw [List.forall₂_map_left_iff, List.forall₂_map_right_iff]
  exact h.imp fun _ _ => fits_of_rewritten htable

/-- The run: a composition keeps to the neighbours that its first chord may have. -/
theorem exists_compose_between [Scalar W] [Scalar T] [DrawSource σ W] {table : MusicRules W S T}
    (hbinds : table.BindsItsVariables)
    (htable : ∀ r ∈ table.rules, r.Yields (KeepsNeighbours allowed)) (n : Nat)
    {start : S} (hstart : Between allowed none none [start]) (p : Span T) (src : σ) :
    ∃ cs, (compose table n start p src).1 = .ok cs ∧
      Between allowed none none (cs.map (·.symbol)) := by
  obtain ⟨os, hcs, hbetween⟩ := exists_compose_resolved hbinds
    (fun _ es => Between allowed none none (es.map Occurrence.symbol))
    (fun _ _ _ => between_pieces htable) n hstart src
  refine ⟨resolve os, hcs, ?_⟩
  rwa [map_symbol_resolve]

end Passes

/-! ## The stock rules -/

/-- In the functional grammar a subdominant is followed by a subdominant or a dominant. -/
def Region.neighbours : Neighbours Region :=
  [none, some .subdominant].product [some .subdominant, some .dominant] ++
    (none, some .tonic) ::
    [some .tonic, some .dominant].product [some .tonic, some .subdominant, some .dominant, none]

/-- In the Roman grammar the first chord is a tonic, and a predominant leads on to a dominant. -/
def Numeral.neighbours : Neighbours Numeral :=
  (none, some .I) ::
    [some .I, some .V].product [some .I, some .II, some .IV, some .V, none] ++
    [some .II, some .IV].product [some .II, some .IV, some .V]

section Tables

variable [Scalar W] [Scalar T] (least : T)

theorem functionalRules_keepsNeighbours :
    ∀ r ∈ (functionalRules least : MusicRules W Region T).rules,
      r.Yields (KeepsNeighbours Region.neighbours) := by
  have hsplits : ∀ x ∈ Region.splits, Fits Region.neighbours x.1 [x.2.1, x.2.2] := by decide
  exact yields_functionalRules (fun s _ => fits_singleton _ s) fun s a b _ hmem _ =>
    hsplits (s, a, b) hmem

theorem romanRules_keepsNeighbours :
    ∀ r ∈ (romanRules least : MusicRules W Numeral T).rules,
      r.Yields (KeepsNeighbours Numeral.neighbours) := by
  have hsplits : ∀ x ∈ Numeral.splits, Fits Numeral.neighbours x.1 [x.2.1, x.2.2] := by decide
  have htonics : Fits Numeral.neighbours .I [.I, .I] := by decide
  have hhalfCadence : Fits Numeral.neighbours .I [.I, .V] := by decide
  exact yields_romanRules (fun s _ => fits_singleton _ s)
    (fun s a b _ hmem _ => hsplits (s, a, b) hmem) (fun _ _ => hhalfCadence) fun _ _ => htonics

end Tables

/-! ## What the neighbours say about whole progressions -/

/-- A functional progression closes on a tonic or a dominant, and no subdominant moves to a
tonic. -/
structure FunctionalSyntax (word : List Region) : Prop where
  last : ∃ s, word.getLast? = some s ∧ s ≠ .subdominant
  next : word.IsChain fun x y => x = .subdominant → y ≠ .tonic

theorem functionalSyntax_of_between {word : List Region}
    (h : Between Region.neighbours none none word) : FunctionalSyntax word := by
  have hne : word ≠ [] := by
    rintro rfl
    exact absurd (between_nil.mp h) (by decide)
  refine ⟨?_, ?_⟩
  · obtain ⟨s, hlast, hs⟩ := h.exists_getLast? hne
    refine ⟨s, hlast, ?_⟩
    rintro rfl
    exact absurd hs (by decide)
  · refine h.isChain.imp ?_
    rintro _ _ hpair rfl rfl
    exact absurd hpair (by decide)

/-- A chord that prepares a dominant. -/
def Numeral.IsPredominant (s : Numeral) : Prop := s = .II ∨ s = .IV

/-- A Roman progression opens on I, closes on I or V, knows four chords, and never moves from a
predominant to I: every run of predominants leads to a V. -/
structure RomanSyntax (word : List Numeral) : Prop where
  first : word.head? = some .I
  last : word.getLast? = some .I ∨ word.getLast? = some .V
  chords : ∀ s ∈ word, s = .I ∨ s = .II ∨ s = .IV ∨ s = .V
  next : word.IsChain fun x y => x.IsPredominant → y ≠ .I
  resolved : ∀ before s after, word = before ++ s :: after → s.IsPredominant →
    ∃ run rest, after = run ++ .V :: rest ∧ ∀ x ∈ run, x.IsPredominant

namespace Numeral

variable {s t : Numeral}

theorem eq_of_first_neighbour (h : (none, some s) ∈ neighbours) : s = .I := by
  simpa [neighbours] using h

theorem eq_of_last_neighbour (h : (some s, none) ∈ neighbours) : s = .I ∨ s = .V := by
  simpa [neighbours] using h

theorem eq_of_neighbour {l : Option Numeral} (h : (l, some s) ∈ neighbours) :
    s = .I ∨ s = .II ∨ s = .IV ∨ s = .V := by
  cases s <;> simp [neighbours] at h ⊢

/-- Behind a predominant stands another or a V. -/
theorem IsPredominant.next {r : Option Numeral} (hs : s.IsPredominant)
    (h : (some s, r) ∈ neighbours) : r = some .V ∨ ∃ t, r = some t ∧ t.IsPredominant := by
  have hr : r = some .II ∨ r = some .IV ∨ r = some .V := by
    rcases hs with rfl | rfl <;> simpa [neighbours] using h
  rcases hr with hII | hIV | hV
  · exact Or.inr ⟨.II, hII, Or.inl rfl⟩
  · exact Or.inr ⟨.IV, hIV, Or.inr rfl⟩
  · exact Or.inl hV

end Numeral

/-- A predominant within a progression is followed by predominants up to the next V. -/
theorem exists_run_to_dominant {s : Numeral} {after : List Numeral} (hs : s.IsPredominant)
    (h : Between Numeral.neighbours (some s) none after) :
    ∃ run rest, after = run ++ .V :: rest ∧ ∀ x ∈ run, x.IsPredominant := by
  induction after generalizing s with
  | nil =>
    rcases hs.next (between_nil.mp h) with hV | ⟨t, ht, -⟩
    · cases hV
    · cases ht
  | cons t after ih =>
    obtain ⟨hpair, hafter⟩ := between_cons.mp h
    rcases hs.next hpair with hV | ⟨t', ht, hpre⟩
    · obtain rfl := Option.some.inj hV
      exact ⟨[], after, rfl, by simp⟩
    · obtain rfl := Option.some.inj ht
      obtain ⟨run, rest, rfl, hrun⟩ := ih hpre hafter
      exact ⟨t :: run, rest, rfl, List.forall_mem_cons.mpr ⟨hpre, hrun⟩⟩

theorem romanSyntax_of_between {word : List Numeral}
    (h : Between Numeral.neighbours none none word) : RomanSyntax word := by
  have hne : word ≠ [] := by
    rintro rfl
    exact absurd (between_nil.mp h) (by decide)
  refine ⟨?_, ?_, ?_, ?_, ?_⟩
  · obtain ⟨s, hfirst, hs⟩ := h.exists_head? hne
    rw [hfirst, Numeral.eq_of_first_neighbour hs]
  · obtain ⟨s, hlast, hs⟩ := h.exists_getLast? hne
    rw [hlast]
    exact (Numeral.eq_of_last_neighbour hs).imp (congrArg some) (congrArg some)
  · intro s hs
    obtain ⟨l, hl⟩ := h.exists_before hs
    exact Numeral.eq_of_neighbour hl
  · refine h.isChain.imp ?_
    rintro x _ hpair hx rfl
    rcases hx.next hpair with hV | ⟨t, ht, hpre⟩
    · cases hV
    · obtain rfl := Option.some.inj ht
      rcases hpre with hII | hIV
      · cases hII
      · cases hIV
  · rintro before s after rfl hs
    exact exists_run_to_dominant hs (between_append_cons.mp h).2

/-- Harmonic syntax of the stock grammars. Whatever the draws and the number of passes, what grows
from I is a well-formed Roman progression and what grows from a tonic a well-formed functional
one. -/
theorem compose_stock_syntax [Scalar W] [Scalar T] [DrawSource σ W] (least : T) (n : Nat)
    (p : Span T) (src : σ) :
    (∃ cs, (compose (romanRules least : MusicRules W Numeral T) n .I p src).1 = .ok cs ∧
      RomanSyntax (cs.map (·.symbol))) ∧
    (∃ cs, (compose (functionalRules least : MusicRules W Region T) n .tonic p src).1 = .ok cs ∧
      FunctionalSyntax (cs.map (·.symbol))) := by
  have hI : Between Numeral.neighbours none none [.I] := by decide
  have htonic : Between Region.neighbours none none [.tonic] := by decide
  obtain ⟨chords, hchords, hroman⟩ := exists_compose_between romanRules_bindsItsVariables
    (romanRules_keepsNeighbours (W := W) least) n hI p src
  obtain ⟨regions, hregions, hfunctional⟩ := exists_compose_between
    functionalRules_bindsItsVariables
    (functionalRules_keepsNeighbours (W := W) least) n htonic p src
  exact ⟨⟨chords, hchords, romanSyntax_of_between hroman⟩,
    ⟨regions, hregions, functionalSyntax_of_between hfunctional⟩⟩

end ChordGrammar
