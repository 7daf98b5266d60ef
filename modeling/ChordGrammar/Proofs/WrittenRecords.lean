import Mathlib.Data.List.Forall2
import ChordGrammar.Proofs.WrittenNumbers

/-!
# Written strings and records

A document is read back if its reader takes the compact text of the document, in front of whatever
may follow a value, for the value that it was written for. Words and strings are read back as they
stand, and a record is read back from an object if each member is: the members may come in any order
as long as no name comes twice.
-/
namespace ChordGrammar.Json

variable {α β δ : Type}

/-- The reader takes the text of the document for the value, whatever follows. It is allowed to open
as many brackets as the document has open at once. -/
def Reader.Reads (read : Reader α) (d : Document) (x : α) : Prop :=
  ∀ (allowance : Nat) (rest : List Char), d.nesting ≤ allowance → EndsValue rest →
    read allowance (d.compact ++ rest) = .ok (x, rest)

theorem Reader.Reads.filterMap {read : Reader α} {d : Document} {x : α} (h : read.Reads d x)
    {f : α → Option β} {y : β} (hf : f x = some y) : (read.filterMap f).Reads d y := by
  intro allowance rest hallowance hrest
  rw [Reader.filterMap, h allowance rest hallowance hrest]
  simp only [bind, Except.bind, hf]
  rfl

/-- The text of the value is read back, whatever follows. -/
def ReadsBack [Codec α] (x : α) : Prop := (Codec.reader : Reader α).Reads (Codec.document x) x

/-- A text that begins with this character has no blanks in front. -/
theorem skipBlanks_cons {c : Char} (hc : isBlank c = false) (cs : List Char) :
    skipBlanks (c :: cs) = c :: cs := by
  simp [skipBlanks, hc]

/-! ## Numbers -/

theorem not_isBlank_of_isDigit {c : Char} (hc : c.isDigit) : isBlank c = false := by
  by_contra hblank
  simp only [isBlank, Bool.not_eq_false, Bool.or_eq_true, decide_eq_true_eq] at hblank
  rcases hblank with ((rfl | rfl) | rfl) | rfl <;> exact absurd hc (by decide)

/-- A number text that is read alone is read in front of whatever may follow a value. -/
theorem anyNumber_reads {text : String} {n : Number} (h : number text.toList = .ok (n, [])) :
    Reader.anyNumber.Reads (.number text) n := by
  intro allowance rest _ hrest
  have hnumber := stopsAtEnd_number h hrest
  rw [Document.compact]
  cases htext : text.toList with
  | nil =>
    rw [htext] at h
    cases h
  | cons c cs =>
    rw [htext] at h hnumber
    have hc := sign_or_digit_of_number h
    have hblank : isBlank c = false := by
      rcases hc with rfl | hc
      · rfl
      · exact not_isBlank_of_isDigit hc
    rw [List.cons_append] at hnumber ⊢
    rw [Reader.anyNumber, skipBlanks_cons hblank]
    simp only [if_pos hc]
    exact hnumber

theorem compact_ofNat (n : Nat) : (Document.ofNat n).compact = Decimal.digitChars n := by
  rw [Document.ofNat, Document.compact, String.toList_ofList]

theorem natural_reads {n bound : Nat} (hn : n < bound) (hbound : bound ≤ wordBound) :
    (Reader.natural bound).Reads (.ofNat n) n := by
  have hnumber : number (String.ofList (Decimal.digitChars n)).toList = .ok (.integer n, []) := by
    rw [String.toList_ofList, number_digitChars (hn.trans_le hbound)]
  have hinteger : (Reader.integer 0 (bound - 1 : Nat)).Reads (.ofNat n) n :=
    (anyNumber_reads hnumber).filterMap (if_pos (by omega))
  exact hinteger.filterMap rfl

theorem word_reads (w : UInt64) : ReadsBack w :=
  (natural_reads w.toNat_lt le_rfl).filterMap (by rw [UInt64.ofNat_toNat])

/-- An integer is read back if both it and the range that it is read in fit a signed word. -/
theorem integer_reads {n low high : Int} (hn : low ≤ n ∧ n ≤ high)
    (hlow : -(wordBound / 2 : Nat) ≤ low) (hhigh : high < (wordBound / 2 : Nat)) :
    (Reader.integer low high).Reads (.ofInt n) n := by
  have hrange : (if low ≤ n ∧ n ≤ high then some n else none) = some n := if_pos hn
  rw [Document.ofInt]
  split_ifs with hneg
  · have hnumber : number (String.ofList ('-' :: Decimal.digitChars n.natAbs)).toList =
        .ok (.integer n, []) := by
      rw [String.toList_ofList, number_neg_digitChars (by omega) (by omega)]
      simp only [Except.ok.injEq, Prod.mk.injEq, Number.integer.injEq, and_true]
      omega
    exact (anyNumber_reads hnumber).filterMap hrange
  · have hnumber : number (String.ofList (Decimal.digitChars n.natAbs)).toList =
        .ok (.integer n, []) := by
      rw [String.toList_ofList, number_digitChars (by omega)]
      simp only [Except.ok.injEq, Prod.mk.injEq, Number.integer.injEq, and_true]
      omega
    exact (anyNumber_reads hnumber).filterMap hrange

/-! ## Strings -/

theorem stringBody_quote (rest : List Char) : stringBody ('"' :: rest) = .ok ([], rest) := by
  rw [stringBody.eq_def]
  rfl

theorem stringBody_plain {c : Char} (hquote : c ≠ '"') (hbackslash : c ≠ '\\')
    (hcontrol : ¬c.toNat < 0x20) (rest : List Char) :
    stringBody (c :: rest) = prepend c (stringBody rest) := by
  rw [stringBody.eq_def]
  simp only [if_neg hquote, if_neg hbackslash, if_neg hcontrol]

theorem stringBody_shortEscape {e c : Char} (h : shortEscape e = some c) (rest : List Char) :
    stringBody ('\\' :: e :: rest) = prepend c (stringBody rest) := by
  have hu : e ≠ 'u' := by
    rintro rfl
    cases h
  rw [stringBody.eq_def]
  simp [h, hu]

theorem hexUnit_control {n : Nat} (hn : n < 0x20) :
    hexUnit '0' '0' (hexDigit (n / 16)) (hexDigit (n % 16)) = some n := by
  revert n
  decide

theorem stringBody_control {c : Char} (hcontrol : c.toNat < 0x20) (rest : List Char) :
    stringBody ('\\' :: 'u' :: '0' :: '0' :: hexDigit (c.toNat / 16) :: hexDigit (c.toNat % 16) ::
      rest) = prepend c (stringBody rest) := by
  have hlow : isLowSurrogate c.toNat = false := by simp [isLowSurrogate]; omega
  have hhigh : isHighSurrogate c.toNat = false := by simp [isHighSurrogate]; omega
  rw [stringBody.eq_def]
  simp [hexUnit_control hcontrol, hlow, hhigh]

/-- The three forms of a character in a string. -/
theorem escape_cases (c : Char) :
    (∃ e, shortEscape e = some c ∧ escape c = ['\\', e]) ∨
    (c.toNat < 0x20 ∧
      escape c = ['\\', 'u', '0', '0', hexDigit (c.toNat / 16), hexDigit (c.toNat % 16)]) ∨
    (c ≠ '"' ∧ c ≠ '\\' ∧ ¬c.toNat < 0x20 ∧ escape c = [c]) := by
  unfold escape
  split_ifs with hquote hbackslash hb hf hn hr ht hcontrol
  · exact .inl ⟨'"', congrArg some hquote.symm, rfl⟩
  · exact .inl ⟨'\\', congrArg some hbackslash.symm, rfl⟩
  · exact .inl ⟨'b', congrArg some hb.symm, rfl⟩
  · exact .inl ⟨'f', congrArg some hf.symm, rfl⟩
  · exact .inl ⟨'n', congrArg some hn.symm, rfl⟩
  · exact .inl ⟨'r', congrArg some hr.symm, rfl⟩
  · exact .inl ⟨'t', congrArg some ht.symm, rfl⟩
  · exact .inr (.inl ⟨hcontrol, rfl⟩)
  · exact .inr (.inr ⟨hquote, hbackslash, hcontrol, rfl⟩)

/-- A character is read back from its form in a string. -/
theorem stringBody_escape (c : Char) (rest : List Char) :
    stringBody (escape c ++ rest) = prepend c (stringBody rest) := by
  obtain ⟨e, he, hc⟩ | ⟨hcontrol, hc⟩ | ⟨hquote, hbackslash, hcontrol, hc⟩ := escape_cases c
  · rw [hc]
    exact stringBody_shortEscape he rest
  · rw [hc]
    exact stringBody_control hcontrol rest
  · rw [hc]
    exact stringBody_plain hquote hbackslash hcontrol rest

theorem stringBody_flatMap_escape (s rest : List Char) :
    stringBody (s.flatMap escape ++ '"' :: rest) = .ok (s, rest) := by
  induction s with
  | nil => exact stringBody_quote rest
  | cons c s ih =>
    rw [List.flatMap_cons, List.append_assoc, stringBody_escape, ih]
    rfl

/-! ## Items -/

/-- What stands in front of an item or a member: a comma, if it is not the first. -/
def separator (first : Bool) : List Char := if first then [] else [',']

theorem nextItem_cons (first : Bool) {c : Char} (hblank : isBlank c = false) (hclosing : c ≠ ']')
    (cs : List Char) : nextItem first (separator first ++ c :: cs) = .ok (true, c :: cs) := by
  have hskip : skipBlanks (c :: cs) = c :: cs := skipBlanks_cons hblank cs
  cases first with
  | true =>
    change nextItem true (c :: cs) = _
    rw [nextItem, hskip]
    simp
  | false =>
    change nextItem false (',' :: c :: cs) = _
    have hcomma : skipBlanks (',' :: c :: cs) = ',' :: c :: cs := rfl
    rw [nextItem, hcomma]
    simp [hskip, hclosing]

/-! ## Records -/

theorem nextMember_quoted (first : Bool) (name : String) (rest : List Char) :
    nextMember first (separator first ++ (quoted name ++ rest)) = .ok (some name, rest) := by
  have hquoted : quoted name ++ rest = '"' :: (name.toList.flatMap escape ++ '"' :: rest) := by
    simp [quoted]
  have hname : nextMember.name (name.toList.flatMap escape ++ '"' :: rest) =
      .ok (some name, rest) := by
    rw [nextMember.name, stringBody_flatMap_escape]
    simp [Except.map, String.ofList_toList]
  rw [hquoted]
  cases first <;> exact hname

/-- The written member is known under its name, and its value is read as this change of a draft. -/
def ReadsMember (members : List (Member δ)) (written : String × Document) (update : δ → δ) : Prop :=
  ∃ m, members.find? (·.name = written.1) = some m ∧ m.read.Reads written.2 update

theorem Reader.Reads.setting {read : Reader α} {d : Document} {x : α} (h : read.Reads d x)
    (name : String) (set : α → δ → δ) : (Member.setting name read set).read.Reads d (set x) := by
  intro allowance rest hallowance hrest
  simp only [Member.setting, h allowance rest hallowance hrest]
  rfl

theorem readsMember_setting {members : List (Member δ)} {name : String} {read : Reader α}
    {set : α → δ → δ}
    (hm : members.find? (·.name = name) = some (.setting name read set)) {d : Document} {x : α}
    (h : read.Reads d x) : ReadsMember members (name, d) (set x) :=
  ⟨_, hm, h.setting name set⟩

/-- The step: the next member of an object changes the draft, and its name is now seen. -/
theorem membersOf_member {members : List (Member δ)} {name : String} {d : Document}
    {update : δ → δ} (h : ReadsMember members (name, d) update) {allowance : Nat}
    (hallowance : d.nesting ≤ allowance) {seen : List String} (hseen : name ∉ seen) (fuel : Nat)
    (draft : δ) (first : Bool) {rest : List Char} (hrest : EndsValue rest) :
    membersOf members allowance (fuel + 1) seen draft first
        (separator first ++ (quoted name ++ ':' :: (d.compact ++ rest))) =
      membersOf members allowance fuel (name :: seen) (update draft) false rest := by
  obtain ⟨m, hm, hread⟩ := h
  have hcolon : colon (':' :: (d.compact ++ rest)) = .ok (d.compact ++ rest) := rfl
  have hvalue := hread allowance rest hallowance hrest
  rw [membersOf, nextMember_quoted]
  simp only [bind, Except.bind, hm, if_neg hseen, hcolon, hvalue]

/-- The members of an object from the next one on, each behind what separates it. -/
def membersFrom : (first : Bool) → List (String × Document) → List Char
  | _, [] => []
  | first, w :: ws =>
    separator first ++ (quoted w.1 ++ ':' :: (w.2.compact ++ membersFrom false ws))

theorem compactMembers_eq (written : List (String × Document)) :
    Document.compactMembers written = membersFrom false written := by
  induction written with
  | nil => rfl
  | cons w written ih => simp [Document.compactMembers, membersFrom, separator, ih]

theorem compact_object (written : List (String × Document)) :
    (Document.object written).compact = '{' :: (membersFrom true written ++ ['}']) := by
  cases written with
  | nil => rfl
  | cons w written => simp [Document.compact, membersFrom, separator, compactMembers_eq]

theorem endsValue_membersFrom (written : List (String × Document)) (rest : List Char) :
    EndsValue (membersFrom false written ++ '}' :: rest) := by
  cases written with
  | nil => exact endsValue_cons (by simp) rest
  | cons w written => exact endsValue_cons (by simp) _

theorem length_le_length_membersFrom (first : Bool) (written : List (String × Document)) :
    written.length ≤ (membersFrom first written).length := by
  induction written generalizing first with
  | nil => exact Nat.zero_le _
  | cons w written ih =>
    have hlater := ih false
    simp only [membersFrom, List.length_cons, List.length_append]
    omega

/-- The run: an object is read to its end if its names are new and its members are read. -/
theorem membersOf_membersFrom {members : List (Member δ)} {written : List (String × Document)}
    {updates : List (δ → δ)} (h : List.Forall₂ (ReadsMember members) written updates)
    {allowance fuel : Nat} (hallowance : Document.membersNesting written ≤ allowance)
    (hfuel : written.length < fuel) {seen : List String}
    (hnames : (written.map Prod.fst).Nodup) (hseen : ∀ w ∈ written, w.1 ∉ seen) (draft : δ)
    (first : Bool) (rest : List Char) :
    membersOf members allowance fuel seen draft first (membersFrom first written ++ '}' :: rest) =
      .ok (updates.foldl (fun draft update => update draft) draft, rest) := by
  induction h generalizing fuel seen draft first with
  | nil =>
    obtain ⟨fuel, rfl⟩ := Nat.exists_eq_add_one_of_ne_zero (Nat.ne_zero_of_lt hfuel)
    rfl
  | @cons w update written updates hw _ ih =>
    obtain ⟨fuel, rfl⟩ := Nat.exists_eq_add_one_of_ne_zero (Nat.ne_zero_of_lt hfuel)
    simp only [Document.membersNesting, Nat.max_le] at hallowance
    simp only [List.map_cons, List.nodup_cons, List.mem_map, not_exists, not_and] at hnames
    have hlater : ∀ v ∈ written, v.1 ∉ w.1 :: seen := by
      intro v hv
      rw [List.mem_cons, not_or]
      exact ⟨hnames.1 v hv, hseen v (List.mem_cons_of_mem w hv)⟩
    let behind : List Char := membersFrom false written ++ '}' :: rest
    calc membersOf members allowance (fuel + 1) seen draft first
          (membersFrom first (w :: written) ++ '}' :: rest)
      _ = membersOf members allowance (fuel + 1) seen draft first
            (separator first ++ (quoted w.1 ++ ':' :: (w.2.compact ++ behind))) := by
        simp [membersFrom, behind]
      _ = membersOf members allowance fuel (w.1 :: seen) (update draft) false behind :=
        membersOf_member hw hallowance.1 (hseen w List.mem_cons_self) fuel draft first
          (endsValue_membersFrom written rest)
      _ = .ok (updates.foldl (fun draft update => update draft) (update draft), rest) :=
        ih hallowance.2 (Nat.lt_of_succ_lt_succ hfuel) hnames.2 hlater (update draft) false

/-- A record is read back from an object of members that are read back, in any order. -/
theorem record_reads {members : List (Member δ)} {blank : δ} {finish : δ → Option α}
    {written : List (String × Document)} {updates : List (δ → δ)}
    (h : List.Forall₂ (ReadsMember members) written updates)
    (hnames : (written.map Prod.fst).Nodup) {x : α}
    (hfinish : finish (updates.foldl (fun draft update => update draft) blank) = some x) :
    (Reader.record members blank finish).Reads (.object written) x := by
  intro allowance rest hallowance _
  rw [Document.nesting] at hallowance
  obtain ⟨inner, rfl⟩ : ∃ inner, allowance = inner + 1 :=
    Nat.exists_eq_add_one_of_ne_zero (Nat.ne_zero_of_lt hallowance)
  let body : List Char := membersFrom true written ++ '}' :: rest
  have hfuel : written.length < body.length + 1 := by
    have hlength := length_le_length_membersFrom true written
    simp only [body, List.length_append]
    omega
  have hbody : membersOf members inner (body.length + 1) [] blank true body =
      .ok (updates.foldl (fun draft update => update draft) blank, rest) :=
    membersOf_membersFrom h (Nat.le_of_succ_le_succ hallowance) hfuel hnames
      (fun _ _ => List.not_mem_nil) blank true rest
  calc Reader.record members blank finish (inner + 1) ((Document.object written).compact ++ rest)
    _ = Reader.record members blank finish (inner + 1) ('{' :: body) := by
      rw [compact_object, List.cons_append, List.append_assoc]
      rfl
    _ = Reader.record.finishing finish
          (membersOf members inner (body.length + 1) [] blank true body) := rfl
    _ = .ok (x, rest) := by
      rw [hbody, Reader.record.finishing]
      simp only [bind, Except.bind, hfinish]
      rfl

/-! ## Whole texts -/

theorem Reader.Reads.run_eq {read : Reader α} {d : Document} {x : α} (h : read.Reads d x)
    (hnesting : d.nesting ≤ maxNesting) : read.run (.ofList d.compact) = .ok x := by
  have hread := h maxNesting [] hnesting endsValue_nil
  rw [List.append_nil] at hread
  rw [run, String.toList_ofList, hread]
  rfl

/-- What is written for a value is read back, unless it opens too many brackets at once. -/
theorem read_write [Codec α] {x : α} (h : ReadsBack x)
    (hnesting : (Codec.document x).nesting ≤ maxNesting) : read (write x) = .ok x :=
  h.run_eq hnesting

end ChordGrammar.Json
