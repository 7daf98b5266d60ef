/-!
# Natural numbers in digits

The written form of a natural number and the number that a list of digits stands for. The reader
also takes leading zeros.
-/
namespace ChordGrammar.Decimal

/-- The decimal digits of a number. -/
def digitChars (n : Nat) : List Char := Nat.toDigits 10 n

def zeros (n : Nat) : List Char := List.replicate n '0'

/-- The value of a digit. -/
def digitValue (c : Char) : Nat := c.toNat - '0'.toNat

/-- The number that a list of digits stands for. -/
def digitsValue (ds : List Char) : Nat := Nat.ofDigitChars 10 ds 0

/-- Written digits stand for the number they were written for. -/
@[simp] theorem digitsValue_digitChars (n : Nat) : digitsValue (digitChars n) = n :=
  Nat.ofDigitChars_toDigits (by decide) (by decide)

theorem isDigit_of_mem_digitChars {n : Nat} {c : Char} (h : c ∈ digitChars n) : c.isDigit :=
  Nat.isDigit_of_mem_toDigits (by decide) (by decide) h

theorem exists_digitChars_eq_cons (n : Nat) : ∃ c ds, digitChars n = c :: ds ∧ c.isDigit := by
  obtain ⟨c, ds, h⟩ := List.exists_cons_of_ne_nil (Nat.toDigits_ne_nil : digitChars n ≠ [])
  exact ⟨c, ds, h, isDigit_of_mem_digitChars (h ▸ List.mem_cons_self)⟩

/-- Only zero begins with a zero. -/
theorem head?_digitChars_ne {n : Nat} (hn : 0 < n) : (digitChars n).head? ≠ some '0' := by
  induction n using Nat.strongRecOn with
  | _ n ih =>
    rcases Nat.lt_or_ge n 10 with hlt | hge
    · rw [digitChars, Nat.toDigits_of_lt_base hlt]
      simpa using Nat.ne_of_gt hn
    · obtain ⟨c, ds, hds, -⟩ := exists_digitChars_eq_cons (n / 10)
      have htens : (digitChars (n / 10)).head? ≠ some '0' := ih (n / 10) (by omega) (by omega)
      rw [digitChars, Nat.toDigits_of_base_le (by decide) hge, ← digitChars, hds]
      rwa [hds] at htens

end ChordGrammar.Decimal
