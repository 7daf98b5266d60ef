import ChordGrammar.Proofs.WrittenRecords

/-!
# Written doubles

The text of a double has no blanks, whatever its digits are. A double that is read back from its
text alone is therefore read back from it anywhere: the reader cannot have stopped before its end.
-/
namespace ChordGrammar

namespace Json

/-- A text without blanks. -/
def Solid (cs : List Char) : Prop := ∀ c ∈ cs, isBlank c = false

@[simp] theorem solid_nil : Solid [] := List.forall_mem_nil _

@[simp] theorem solid_cons {c : Char} {cs : List Char} :
    Solid (c :: cs) ↔ isBlank c = false ∧ Solid cs := List.forall_mem_cons

@[simp] theorem solid_append {cs ds : List Char} : Solid (cs ++ ds) ↔ Solid cs ∧ Solid ds :=
  List.forall_mem_append

theorem Solid.of_subset {cs ds : List Char} (hds : Solid ds) (h : cs ⊆ ds) : Solid cs :=
  fun c hc => hds c (h hc)

theorem Solid.skipBlanks_eq {cs : List Char} (h : Solid cs) : skipBlanks cs = cs := by
  cases cs with
  | nil => rfl
  | cons c cs => exact skipBlanks_cons (solid_cons.1 h).1 cs

end Json

namespace Decimal

open Json

theorem solid_digitChars (n : Nat) : Solid (digitChars n) :=
  fun _ hc => not_isBlank_of_isDigit (isDigit_of_mem_digitChars hc)

theorem solid_zeros (n : Nat) : Solid (zeros n) := by
  intro c hc
  rw [List.eq_of_mem_replicate hc]
  rfl

theorem solid_signed {negative : Bool} {cs : List Char} (h : Solid cs) :
    Solid (signed negative cs) := by
  cases negative with
  | true => exact solid_cons.2 ⟨rfl, h⟩
  | false => exact h

namespace Style

variable (style : Style)

theorem solid_positionalText (d : Digits) : Solid (style.positionalText d) := by
  have hdigits := solid_digitChars d.digits
  have hstart (k : Nat) := hdigits.of_subset (List.take_subset k _)
  have hend (k : Nat) := hdigits.of_subset (List.drop_subset k _)
  simp only [positionalText]
  split_ifs <;> simp [isBlank, solid_zeros, hdigits, hstart, hend]

theorem solid_exponentText (d : Digits) : Solid (style.exponentText d) := by
  have hdigits := solid_digitChars d.digits
  have hstart := hdigits.of_subset (List.take_subset 1 _)
  have hend := hdigits.of_subset (List.drop_subset 1 _)
  simp only [exponentText, solid_append, solid_cons]
  split_ifs <;> simp only [isBlank, solid_digitChars, hstart, hend, solid_nil, solid_cons] <;>
    decide

theorem solid_digitsText (d : Digits) : Solid (style.digitsText d) := by
  unfold digitsText
  cases style.positional with
  | none => exact style.solid_positionalText d
  | some range =>
    dsimp only
    split_ifs
    · exact style.solid_positionalText d
    · exact style.solid_exponentText d

theorem solid_text (x : Float) : Solid (style.text x).toList := by
  have hinfinite : Solid ['i', 'n', 'f'] := by simp [isBlank]
  unfold text
  split
  · simp [isBlank]
  · rw [String.toList_ofList]
    exact solid_signed hinfinite
  · rw [String.toList_ofList]
    exact solid_signed (style.solid_positionalText ⟨0, 0⟩)
  · rw [String.toList_ofList]
    exact solid_signed (style.solid_digitsText _)

end Style
end Decimal

namespace Json

theorem exists_of_run {α : Type} {read : Reader α} {text : String} {x : α}
    (h : read.run text = .ok x) :
    ∃ rest, read maxNesting text.toList = .ok (x, rest) ∧ skipBlanks rest = [] := by
  unfold Reader.run at h
  cases hread : read maxNesting text.toList with
  | error e =>
    rw [hread] at h
    cases h
  | ok p =>
    rw [hread] at h
    simp only [bind, Except.bind, List.isEmpty_iff] at h
    split_ifs at h with hrest
    cases h
    exact ⟨p.2, rfl, hrest⟩

/-- What is left over by a number that was read alone is blank, but its text has no blanks. -/
theorem number_eq_of_anyNumber {allowance : Nat} {cs rest : List Char} {n : Number}
    (hsolid : Solid cs) (h : Reader.anyNumber allowance cs = .ok (n, rest))
    (hrest : skipBlanks rest = []) : number cs = .ok (n, []) := by
  have hnumber : number cs = .ok (n, rest) := by
    unfold Reader.anyNumber at h
    rw [hsolid.skipBlanks_eq] at h
    cases cs with
    | nil => cases h
    | cons c cs =>
      dsimp only at h
      split_ifs at h
      exact h
  have hsuffix : Solid rest := hsolid.of_subset (leavesEnd_number hnumber).subset
  rw [hnumber, ← hrest, hsuffix.skipBlanks_eq]

/-- The double that a number stands for. -/
def Number.toFloat : Number → Float
  | .integer n => if n < 0 then -Float.ofNat n.natAbs else Float.ofNat n.natAbs
  | .real x => x

theorem float_eq (allowance : Nat) (cs : List Char) :
    Reader.float allowance cs =
      (Reader.anyNumber allowance cs).map fun p => (p.1.toFloat, p.2) := by
  unfold Reader.float
  cases Reader.anyNumber allowance cs with
  | error e => rfl
  | ok p => obtain ⟨n | x, rest⟩ := p <;> rfl

/-- A double that is read back from its text alone is read back in front of whatever may follow a
value. -/
theorem float_reads {x : Float} (h : read (write x) = .ok x) : ReadsBack x := by
  have hfinite : x.isFinite := by
    by_contra hfinite
    have hnull : Codec.document x = .null := if_neg hfinite
    have hread : read (write x) = (.error .mismatch : Except Fault Float) := by
      rw [write, hnull]
      rfl
    rw [hread] at h
    cases h
  have hdocument : Codec.document x = .number (Decimal.Style.exchange.text x) := if_pos hfinite
  have htext : write x = Decimal.Style.exchange.text x := by
    rw [write, hdocument, Document.compact, String.ofList_toList]
  obtain ⟨rest, hread, hrest⟩ := exists_of_run h
  rw [htext] at hread
  have hfloat : Reader.float maxNesting (Decimal.Style.exchange.text x).toList = .ok (x, rest) :=
    hread
  rw [float_eq] at hfloat
  cases hany : Reader.anyNumber maxNesting (Decimal.Style.exchange.text x).toList with
  | error e =>
    rw [hany] at hfloat
    cases hfloat
  | ok p =>
    rw [hany] at hfloat
    obtain ⟨n, more⟩ := p
    cases hfloat
    have hnumber := number_eq_of_anyNumber (Decimal.Style.exchange.solid_text _) hany hrest
    intro allowance behind _ hbehind
    have hreads := anyNumber_reads hnumber allowance behind (Nat.zero_le allowance) hbehind
    rw [hdocument]
    exact (float_eq allowance _).trans (by rw [hreads]; rfl)

end Json
end ChordGrammar
