import Mathlib.Data.List.Nodup
import ChordGrammar.Proofs.Histories
import ChordGrammar.Proofs.WrittenRecords
import ChordGrammar.Random.Xoshiro

/-!
# Checkpoints

The text of a generator holds its four words digit by digit, so the state that is read from it is
the state that was written, bit for bit. A run can therefore be put aside between two passes: what
is made of the sentence reached and the generator read back is what an uninterrupted run makes.
-/
namespace ChordGrammar

open Json

namespace Xoshiro

/-- A word of the list is read with what separates it from the word before. -/
theorem wordsReader_word (allowance : Nat) (first : Bool) (w : UInt64) {rest : List Char}
    (hrest : EndsValue rest) :
    wordsReader.word allowance first (separator first ++ ((Codec.document w).compact ++ rest)) =
      .ok (w, rest) := by
  obtain ⟨c, ds, hds, hc⟩ := Decimal.exists_digitChars_eq_cons w.toNat
  have htext : (Codec.document w).compact ++ rest = c :: (ds ++ rest) := by
    rw [← List.cons_append, ← hds, ← compact_ofNat]
    rfl
  have hclosing : c ≠ ']' := by
    rintro rfl
    exact absurd hc (by decide)
  have hitem : nextItem first (separator first ++ ((Codec.document w).compact ++ rest)) =
      .ok (true, (Codec.document w).compact ++ rest) := by
    rw [htext]
    exact nextItem_cons first (not_isBlank_of_isDigit hc) hclosing (ds ++ rest)
  rw [wordsReader.word, hitem]
  exact word_reads w allowance rest (Nat.zero_le allowance) hrest

theorem wordsReader_reads (g : Xoshiro) : wordsReader.Reads (Codec.document g.words) g := by
  intro allowance rest hallowance _
  obtain ⟨inner, rfl⟩ : ∃ inner, allowance = inner + 1 :=
    Nat.exists_eq_add_one_of_ne_zero (Nat.ne_zero_of_lt hallowance)
  have hcomma (cs : List Char) : EndsValue (separator false ++ cs) := endsValue_cons (.inl rfl) cs
  -- What stands behind each of the words, the last one first.
  let behind3 : List Char := ']' :: rest
  let behind2 : List Char := separator false ++ ((Codec.document g.s3).compact ++ behind3)
  let behind1 : List Char := separator false ++ ((Codec.document g.s2).compact ++ behind2)
  let behind0 : List Char := separator false ++ ((Codec.document g.s1).compact ++ behind1)
  have hdocument : Codec.document g.words = .array
      [Codec.document g.s0, Codec.document g.s1, Codec.document g.s2, Codec.document g.s3] := rfl
  have htext : (Codec.document g.words).compact ++ rest =
      '[' :: (separator true ++ ((Codec.document g.s0).compact ++ behind0)) := by
    simp [hdocument, Document.compact, Document.compactItems, separator, behind0, behind1, behind2,
      behind3]
  have hskip (cs : List Char) : skipBlanks ('[' :: cs) = '[' :: cs := rfl
  have h0 : wordsReader.word inner true
      (separator true ++ ((Codec.document g.s0).compact ++ behind0)) = .ok (g.s0, behind0) :=
    wordsReader_word inner true g.s0 (hcomma _)
  have h1 : wordsReader.word inner false behind0 = .ok (g.s1, behind1) :=
    wordsReader_word inner false g.s1 (hcomma _)
  have h2 : wordsReader.word inner false behind1 = .ok (g.s2, behind2) :=
    wordsReader_word inner false g.s2 (hcomma _)
  have h3 : wordsReader.word inner false behind2 = .ok (g.s3, behind3) :=
    wordsReader_word inner false g.s3 (endsValue_cons (.inr (.inl rfl)) rest)
  have hend : endOfList behind3 = .ok rest := rfl
  rw [htext, wordsReader]
  simp only [hskip, h0, h1, h2, h3, hend, bind, Except.bind]
  rfl

theorem codec_reads (g : Xoshiro) : ReadsBack g :=
  record_reads (.cons (readsMember_setting rfl g.wordsReader_reads) .nil) (List.nodup_singleton "s")
    rfl

/-- Every state is read back from its text. -/
theorem read_write (g : Xoshiro) : read (write g) = .ok g := by
  have hnesting : (Codec.document g).nesting = 2 := rfl
  refine Json.read_write g.codec_reads ?_
  rw [hnesting]
  decide

example : write (⟨1, 0, 0xffffffffffffffff, 3⟩ : Xoshiro) =
    "\x7b\"s\":[1,0,18446744073709551615,3]\x7d" := by decide +kernel

end Xoshiro

variable {W S P M : Type} [DecidableEq S] [Scalar W]

/-- A run can be checkpointed. Every generator is read back from its text, so a run that is put
aside after `n` passes and goes on for `m` more with the generator read from its text ends with the
sentence and the generator of a run of `n + m` passes. -/
theorem generate_from_checkpoint :
    (∀ g : Xoshiro, Json.read (Json.write g) = .ok g) ∧
    ∀ (table : RuleTable W S P M) (n m : Nat) (ts : Sentence S P M) (seed : UInt64),
      ∃ g, Json.read (Json.write (generate table n ts (Xoshiro.ofSeed seed)).2) = .ok g ∧
        generate table m (generate table n ts (Xoshiro.ofSeed seed)).1 g =
          generate table (n + m) ts (Xoshiro.ofSeed seed) := by
  refine ⟨Xoshiro.read_write, fun table n m ts seed => ?_⟩
  exact ⟨_, Xoshiro.read_write _, (generate_add table n m ts (Xoshiro.ofSeed seed)).symm⟩

end ChordGrammar
