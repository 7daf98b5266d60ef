import Mathlib.Data.List.TakeWhile
import Mathlib.Tactic.SplitIfs
import ChordGrammar.Json.Codec

/-!
# Written numbers

A reader of numbers goes on as long as digits, a point or an exponent follow. A comma or a closing
bracket is none of these, so a number inside a list or an object is read like the same number alone,
and a word is read back from the digits that are written for it.
-/
namespace ChordGrammar.Json

open Decimal

/-! ## What stands behind a number -/

/-- What may stand behind a value: nothing, a comma or a closing bracket. -/
def EndsValue (rest : List Char) : Prop := ∀ c ∈ rest.head?, c = ',' ∨ c = ']' ∨ c = '}'

theorem endsValue_nil : EndsValue [] := fun _ h => by cases h

theorem endsValue_cons {c : Char} (h : c = ',' ∨ c = ']' ∨ c = '}') (cs : List Char) :
    EndsValue (c :: cs) := fun _ hc => by cases hc; exact h

/-- The end of a value does not matter to what is read of it. -/
def Parse.StopsAtEnd {α : Type} (read : Parse α) : Prop :=
  ∀ ⦃cs more rest : List Char⦄ ⦃x : α⦄, read cs = .ok (x, more) → EndsValue rest →
    read (cs ++ rest) = .ok (x, more ++ rest)

theorem Parse.StopsAtEnd.bind {α β : Type} {read : Parse α} {next : α → Parse β}
    (hread : read.StopsAtEnd) (hnext : ∀ x, (next x).StopsAtEnd) :
    Parse.StopsAtEnd (fun cs => read cs >>= fun p => next p.1 p.2) := by
  intro cs more rest y h hrest
  dsimp only at h ⊢
  cases hcs : read cs with
  | error e =>
    rw [hcs] at h
    cases h
  | ok p =>
    rw [hcs] at h
    rw [hread hcs hrest]
    exact hnext p.1 h hrest

theorem Parse.StopsAtEnd.map {α β : Type} {read : Parse α} (hread : read.StopsAtEnd)
    (f : α → β) : Parse.StopsAtEnd (fun cs => (read cs).map fun p => (f p.1, p.2)) := by
  intro cs more rest y h hrest
  dsimp only at h ⊢
  cases hcs : read cs with
  | error e =>
    rw [hcs] at h
    cases h
  | ok p =>
    rw [hcs] at h
    rw [hread hcs hrest]
    cases h
    rfl

theorem stopsAtEnd_ok {α : Type} (x : α) : Parse.StopsAtEnd fun cs => .ok (x, cs) := by
  intro cs more rest y h _
  cases h
  rfl

theorem takeDigits_append {rest : List Char} (hrest : EndsValue rest) (cs : List Char) :
    takeDigits (cs ++ rest) = ((takeDigits cs).1, (takeDigits cs).2 ++ rest) := by
  induction cs with
  | nil =>
    cases rest with
    | nil => rfl
    | cons c rest =>
      have hc : c.isDigit = false := by
        rcases hrest c rfl with rfl | rfl | rfl <;> rfl
      simp [takeDigits, hc]
  | cons c cs ih =>
    simp only [takeDigits, Prod.mk.injEq] at ih ⊢
    cases hc : c.isDigit <;> simp [hc, ih]

theorem stopsAtEnd_someDigits : Parse.StopsAtEnd someDigits := by
  intro cs more rest ds h hrest
  cases cs with
  | nil => cases h
  | cons c cs =>
    simp only [someDigits, List.cons_append] at h ⊢
    split_ifs at h ⊢ with hc
    rw [← List.cons_append, takeDigits_append hrest, Except.ok.inj h]

theorem stopsAtEnd_wholeDigits : Parse.StopsAtEnd wholeDigits := by
  have hcheck (ds : List Char) : Parse.StopsAtEnd fun cs =>
      if ds.head? = some '0' ∧ ds.length ≠ 1 then .error .malformed else .ok (ds, cs) := by
    intro cs more rest x h _
    dsimp only at h ⊢
    split_ifs at h ⊢
    cases h
    rfl
  exact stopsAtEnd_someDigits.bind hcheck

theorem fractionDigits_end {rest : List Char} (h : EndsValue rest) :
    fractionDigits rest = .ok (none, rest) := by
  cases rest with
  | nil => rfl
  | cons c rest =>
    rcases h c rfl with rfl | rfl | rfl <;> rfl

theorem exponentDigits_end {rest : List Char} (h : EndsValue rest) :
    exponentDigits rest = .ok (none, rest) := by
  cases rest with
  | nil => rfl
  | cons c rest =>
    rcases h c rfl with rfl | rfl | rfl <;> rfl

theorem fractionDigits_none {c : Char} (hc : c ≠ '.') (cs : List Char) :
    fractionDigits (c :: cs) = .ok (none, c :: cs) := by simp [fractionDigits, hc]

theorem stopsAtEnd_fractionDigits : Parse.StopsAtEnd fractionDigits := by
  intro cs more rest x h hrest
  match cs with
  | [] =>
    cases h
    exact fractionDigits_end hrest
  | c :: cs =>
    by_cases hc : c = '.'
    · subst hc
      exact stopsAtEnd_someDigits.map some h hrest
    · rw [fractionDigits_none hc] at h
      cases h
      exact fractionDigits_none hc (cs ++ rest)

theorem exponentDigits_signed {c : Char} (hc : c = 'e' ∨ c = 'E') (d : Char) (cs : List Char) :
    exponentDigits (c :: d :: cs) =
      if d = '+' then (someDigits cs).map fun p => (some (false, p.1), p.2)
      else if d = '-' then (someDigits cs).map fun p => (some (true, p.1), p.2)
      else (someDigits (d :: cs)).map fun p => (some (false, p.1), p.2) := by
  simp only [exponentDigits, if_pos hc]
  split_ifs <;> simp_all

theorem exponentDigits_none {c : Char} (hc : ¬(c = 'e' ∨ c = 'E')) (cs : List Char) :
    exponentDigits (c :: cs) = .ok (none, c :: cs) := by simp [exponentDigits, hc]

theorem stopsAtEnd_exponentDigits : Parse.StopsAtEnd exponentDigits := by
  intro cs more rest x h hrest
  match cs with
  | [] =>
    cases h
    exact exponentDigits_end hrest
  | c :: cs =>
    by_cases hc : c = 'e' ∨ c = 'E'
    · match cs with
      | [] => simp [exponentDigits, hc, someDigits, Except.map] at h
      | d :: cs =>
        rw [exponentDigits_signed hc] at h
        rw [List.cons_append, List.cons_append, exponentDigits_signed hc]
        split_ifs at h ⊢
        · exact stopsAtEnd_someDigits.map (fun ds => some (false, ds)) h hrest
        · exact stopsAtEnd_someDigits.map (fun ds => some (true, ds)) h hrest
        · exact stopsAtEnd_someDigits.map (fun ds => some (false, ds)) h hrest
    · rw [exponentDigits_none hc] at h
      cases h
      exact exponentDigits_none hc (cs ++ rest)

/-- The parts of a number behind its sign. -/
def unsignedText (negative : Bool) : Parse NumberText := fun cs =>
  wholeDigits cs >>= fun w => fractionDigits w.2 >>= fun f => exponentDigits f.2 >>= fun e =>
    .ok (⟨negative, w.1, f.1, e.1⟩, e.2)

theorem numberText_unsigned {c : Char} (hc : c ≠ '-') (cs : List Char) :
    numberText (c :: cs) = unsignedText false (c :: cs) := by
  simp [numberText, unsignedText, hc, pure, Except.pure]

theorem stopsAtEnd_numberText : Parse.StopsAtEnd numberText := by
  have hparts (negative : Bool) : (unsignedText negative).StopsAtEnd :=
    stopsAtEnd_wholeDigits.bind fun whole => stopsAtEnd_fractionDigits.bind fun fraction =>
      stopsAtEnd_exponentDigits.bind fun exponent =>
        stopsAtEnd_ok (NumberText.mk negative whole fraction exponent)
  intro cs more rest t h hrest
  match cs with
  | [] => cases h
  | c :: cs =>
    by_cases hc : c = '-'
    · subst hc
      exact hparts true h hrest
    · rw [numberText_unsigned hc] at h
      rw [List.cons_append, numberText_unsigned hc]
      exact hparts false h hrest

theorem number_eq (cs : List Char) :
    number cs = numberText cs >>= fun p =>
      p.1.value?.elim (.error .malformed) fun n => .ok (n, p.2) := by
  refine congrArg (numberText cs >>= ·) (funext fun p => ?_)
  obtain ⟨t, rest⟩ := p
  dsimp only
  cases t.value? <;> rfl

/-- A number is read alike whatever value or bracket it stands before. -/
theorem stopsAtEnd_number : Parse.StopsAtEnd number := by
  have hvalue (t : NumberText) : Parse.StopsAtEnd fun cs =>
      t.value?.elim (.error .malformed) fun n => .ok (n, cs) := by
    cases t.value? with
    | none => exact fun _ _ _ _ h _ => by cases h
    | some n => exact stopsAtEnd_ok n
  rw [funext number_eq]
  exact stopsAtEnd_numberText.bind hvalue

/-! ## What is left behind a number -/

/-- What is left over is the end of the text that was read. -/
def Parse.LeavesEnd {α : Type} (read : Parse α) : Prop :=
  ∀ ⦃cs more : List Char⦄ ⦃x : α⦄, read cs = .ok (x, more) → more <:+ cs

theorem Parse.LeavesEnd.bind {α β : Type} {read : Parse α} {next : α → Parse β}
    (hread : read.LeavesEnd) (hnext : ∀ x, (next x).LeavesEnd) :
    Parse.LeavesEnd (fun cs => read cs >>= fun p => next p.1 p.2) := by
  intro cs more y h
  dsimp only at h
  cases hcs : read cs with
  | error e =>
    rw [hcs] at h
    cases h
  | ok p =>
    rw [hcs] at h
    exact (hnext p.1 h).trans (hread hcs)

theorem Parse.LeavesEnd.map {α β : Type} {read : Parse α} (hread : read.LeavesEnd) (f : α → β) :
    Parse.LeavesEnd (fun cs => (read cs).map fun p => (f p.1, p.2)) := by
  intro cs more y h
  dsimp only at h
  cases hcs : read cs with
  | error e =>
    rw [hcs] at h
    cases h
  | ok p =>
    rw [hcs] at h
    cases h
    exact hread hcs

theorem leavesEnd_ok {α : Type} (x : α) : Parse.LeavesEnd fun cs => .ok (x, cs) := by
  intro cs more y h
  cases h
  exact List.suffix_rfl

theorem leavesEnd_someDigits : Parse.LeavesEnd someDigits := by
  intro cs more ds h
  cases cs with
  | nil => cases h
  | cons c cs =>
    simp only [someDigits] at h
    split_ifs at h
    cases h
    exact List.dropWhile_suffix _

theorem leavesEnd_wholeDigits : Parse.LeavesEnd wholeDigits := by
  have hcheck (ds : List Char) : Parse.LeavesEnd fun cs =>
      if ds.head? = some '0' ∧ ds.length ≠ 1 then .error .malformed else .ok (ds, cs) := by
    intro cs more x h
    dsimp only at h
    split_ifs at h
    exact leavesEnd_ok ds h
  exact leavesEnd_someDigits.bind hcheck

theorem leavesEnd_fractionDigits : Parse.LeavesEnd fractionDigits := by
  intro cs more x h
  match cs with
  | [] => exact leavesEnd_ok none h
  | c :: cs =>
    by_cases hc : c = '.'
    · subst hc
      exact (leavesEnd_someDigits.map some h).trans (List.suffix_cons '.' cs)
    · rw [fractionDigits_none hc] at h
      exact leavesEnd_ok none h

theorem leavesEnd_exponentDigits : Parse.LeavesEnd exponentDigits := by
  intro cs more x h
  match cs with
  | [] => exact leavesEnd_ok none h
  | c :: cs =>
    by_cases hc : c = 'e' ∨ c = 'E'
    · match cs with
      | [] => simp [exponentDigits, hc, someDigits, Except.map] at h
      | d :: cs =>
        rw [exponentDigits_signed hc] at h
        have hsigned : cs <:+ c :: d :: cs := ⟨[c, d], rfl⟩
        split_ifs at h
        · exact (leavesEnd_someDigits.map (fun ds => some (false, ds)) h).trans hsigned
        · exact (leavesEnd_someDigits.map (fun ds => some (true, ds)) h).trans hsigned
        · exact (leavesEnd_someDigits.map (fun ds => some (false, ds)) h).trans
            (List.suffix_cons c (d :: cs))
    · rw [exponentDigits_none hc] at h
      exact leavesEnd_ok none h

theorem leavesEnd_numberText : Parse.LeavesEnd numberText := by
  have hparts (negative : Bool) : (unsignedText negative).LeavesEnd :=
    leavesEnd_wholeDigits.bind fun whole => leavesEnd_fractionDigits.bind fun fraction =>
      leavesEnd_exponentDigits.bind fun exponent =>
        leavesEnd_ok (NumberText.mk negative whole fraction exponent)
  intro cs more t h
  match cs with
  | [] => cases h
  | c :: cs =>
    by_cases hc : c = '-'
    · subst hc
      exact (hparts true h).trans (List.suffix_cons '-' cs)
    · rw [numberText_unsigned hc] at h
      exact hparts false h

theorem leavesEnd_number : Parse.LeavesEnd number := by
  have hvalue (t : NumberText) : Parse.LeavesEnd fun cs =>
      t.value?.elim (.error .malformed) fun n => .ok (n, cs) := by
    cases t.value? with
    | none => exact fun _ _ _ h => by cases h
    | some n => exact leavesEnd_ok n
  rw [funext number_eq]
  exact leavesEnd_numberText.bind hvalue

/-! ## Whole numbers -/

theorem takeDigits_digitChars (n : Nat) : takeDigits (digitChars n) = (digitChars n, []) := by
  have hall : ∀ c ∈ digitChars n, c.isDigit := fun _ => isDigit_of_mem_digitChars
  rw [takeDigits, List.takeWhile_eq_self_iff.mpr hall, List.dropWhile_eq_nil_iff.mpr hall]

theorem wholeDigits_digitChars (n : Nat) : wholeDigits (digitChars n) = .ok (digitChars n, []) := by
  obtain ⟨c, ds, hds, hc⟩ := exists_digitChars_eq_cons n
  have hsome : someDigits (digitChars n) = .ok (digitChars n, []) := by
    rw [← takeDigits_digitChars, hds, someDigits, if_pos hc]
  have hzero : ¬((digitChars n).head? = some '0' ∧ (digitChars n).length ≠ 1) := by
    rintro ⟨hhead, hlength⟩
    rcases Nat.eq_zero_or_pos n with rfl | hn
    · exact hlength rfl
    · exact head?_digitChars_ne hn hhead
  rw [wholeDigits, hsome]
  exact if_neg hzero

theorem numberText_digitChars (n : Nat) :
    numberText (digitChars n) = .ok (⟨false, digitChars n, none, none⟩, []) := by
  obtain ⟨c, ds, hds, hc⟩ := exists_digitChars_eq_cons n
  have hwhole := wholeDigits_digitChars n
  have hsign : c ≠ '-' := by
    rintro rfl
    exact absurd hc (by decide)
  rw [hds] at hwhole ⊢
  simp [numberText, hsign, hwhole, fractionDigits, exponentDigits, bind, Except.bind, pure,
    Except.pure]

/-- A natural number that fits a word is read back from its digits. -/
theorem number_digitChars {n : Nat} (hn : n < wordBound) :
    number (digitChars n) = .ok (.integer n, []) := by
  have hvalue : NumberText.value? ⟨false, digitChars n, none, none⟩ = some (.integer n) := by
    simp [NumberText.value?, NumberText.toInt?, hn]
  rw [number, numberText_digitChars]
  simp only [bind, Except.bind, hvalue]
  rfl

theorem numberText_neg_digitChars (n : Nat) :
    numberText ('-' :: digitChars n) = .ok (⟨true, digitChars n, none, none⟩, []) := by
  simp [numberText, wholeDigits_digitChars, fractionDigits, exponentDigits, bind, Except.bind, pure,
    Except.pure]

/-- So is a negative number that fits a signed word, from its digits behind a minus sign. -/
theorem number_neg_digitChars {n : Nat} (hpos : 0 < n) (hn : n ≤ wordBound / 2) :
    number ('-' :: digitChars n) = .ok (.integer (-n), []) := by
  have hvalue : NumberText.value? ⟨true, digitChars n, none, none⟩ = some (.integer (-n)) := by
    have hword : ¬(n = 0 ∨ wordBound / 2 < n) := by omega
    simp [NumberText.value?, NumberText.toInt?, hword]
  rw [number, numberText_neg_digitChars]
  simp only [bind, Except.bind, hvalue]
  rfl

/-- A number begins with a sign or a digit. -/
theorem sign_or_digit_of_number {c : Char} {cs rest : List Char} {n : Number}
    (h : number (c :: cs) = .ok (n, rest)) : c = '-' ∨ c.isDigit := by
  by_contra hc
  rw [not_or] at hc
  have herror : number (c :: cs) = .error .malformed := by
    simp [number, numberText, wholeDigits, someDigits, hc, bind, Except.bind]
  rw [herror] at h
  cases h

end ChordGrammar.Json
