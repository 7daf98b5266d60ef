import ChordGrammar.Proofs.WrittenRecords

/-!
# Written strings, lists and alternatives

A string is read back from its text, a list if each of its items is, and one of several alternatives
if what it holds is. Readers that call themselves for inner values run out of brackets when the text
does, so they read back what a single one of their steps reads back.
-/
namespace ChordGrammar.Json

variable {α β : Type}

theorem quoted_append (s : String) (rest : List Char) :
    quoted s ++ rest = '"' :: (s.toList.flatMap escape ++ '"' :: rest) := by
  simp [quoted]

theorem string_reads (s : String) : ReadsBack s := by
  intro allowance rest _ _
  have htext : (Codec.document s).compact ++ rest =
      '"' :: (s.toList.flatMap escape ++ '"' :: rest) := quoted_append s rest
  have hskip (cs : List Char) : skipBlanks ('"' :: cs) = '"' :: cs := rfl
  have hreader : (Codec.reader : Reader String) = Reader.string := rfl
  rw [htext, hreader, Reader.string, hskip]
  simp only [stringBody_flatMap_escape, Except.map, String.ofList_toList]

/-! ## Lists -/

/-- The text can be that of an item: it does not begin with a blank or with the end of a list. -/
def Document.IsItem (d : Document) : Prop :=
  ∃ c cs, d.compact = c :: cs ∧ isBlank c = false ∧ c ≠ ']'

theorem isItem_object (ms : List (String × Document)) : (Document.object ms).IsItem :=
  ⟨'{', _, compact_object ms, rfl, by decide⟩

/-- The items of a list from the next one on, each behind what separates it. -/
def itemsFrom : (first : Bool) → List Document → List Char
  | _, [] => []
  | first, d :: ds => separator first ++ (d.compact ++ itemsFrom false ds)

theorem compactItems_eq (ds : List Document) : Document.compactItems ds = itemsFrom false ds := by
  induction ds with
  | nil => rfl
  | cons d ds ih => simp [Document.compactItems, itemsFrom, separator, ih]

theorem compact_array (ds : List Document) :
    (Document.array ds).compact = '[' :: (itemsFrom true ds ++ [']']) := by
  cases ds with
  | nil => rfl
  | cons d ds => simp [Document.compact, itemsFrom, separator, compactItems_eq]

theorem endsValue_itemsFrom (ds : List Document) (rest : List Char) :
    EndsValue (itemsFrom false ds ++ ']' :: rest) := by
  cases ds with
  | nil => exact endsValue_cons (by simp) rest
  | cons d ds => exact endsValue_cons (by simp) _

theorem length_le_length_itemsFrom {ds : List Document} (h : ∀ d ∈ ds, d.IsItem) (first : Bool) :
    ds.length ≤ (itemsFrom first ds).length := by
  induction ds generalizing first with
  | nil => exact Nat.zero_le _
  | cons d ds ih =>
    obtain ⟨⟨c, cs, hc, -⟩, hds⟩ := List.forall_mem_cons.1 h
    have hlater := ih hds false
    simp only [itemsFrom, hc, List.length_cons, List.length_append]
    omega

/-- The run: the items up to the end of a list are read if each of them is. -/
theorem items_itemsFrom {read : Reader α} {allowance : Nat} {ds : List Document} {xs : List α}
    (h : List.Forall₂ read.Reads ds xs) (hitem : ∀ d ∈ ds, d.IsItem)
    (hallowance : Document.itemsNesting ds ≤ allowance) {fuel : Nat} (hfuel : ds.length < fuel)
    (first : Bool) (rest : List Char) :
    items (read allowance) fuel first (itemsFrom first ds ++ ']' :: rest) = .ok (xs, rest) := by
  induction h generalizing fuel first with
  | nil =>
    obtain ⟨fuel, rfl⟩ := Nat.exists_eq_add_one_of_ne_zero (Nat.ne_zero_of_lt hfuel)
    rfl
  | @cons d x ds xs hd _ ih =>
    obtain ⟨fuel, rfl⟩ := Nat.exists_eq_add_one_of_ne_zero (Nat.ne_zero_of_lt hfuel)
    obtain ⟨⟨c, cs, hc, hblank, hclosing⟩, hds⟩ := List.forall_mem_cons.1 hitem
    simp only [Document.itemsNesting, Nat.max_le] at hallowance
    let behind : List Char := itemsFrom false ds ++ ']' :: rest
    have htext : itemsFrom first (d :: ds) ++ ']' :: rest =
        separator first ++ (d.compact ++ behind) := by simp [itemsFrom, behind]
    have hnext : nextItem first (separator first ++ (d.compact ++ behind)) =
        .ok (true, d.compact ++ behind) := by
      rw [hc]
      exact nextItem_cons first hblank hclosing (cs ++ behind)
    have hvalue : read allowance (d.compact ++ behind) = .ok (x, behind) :=
      hd allowance behind hallowance.1 (endsValue_itemsFrom ds rest)
    have hlater : items (read allowance) fuel false behind = .ok (xs, rest) :=
      ih hds hallowance.2 (Nat.lt_of_succ_lt_succ hfuel) false
    rw [htext, items, hnext]
    simp only [bind, Except.bind, hvalue, hlater]
    rfl

/-- A list is read back if its items are. -/
theorem list_reads {read : Reader α} {ds : List Document} {xs : List α}
    (h : List.Forall₂ read.Reads ds xs) (hitem : ∀ d ∈ ds, d.IsItem) :
    (Reader.list read).Reads (.array ds) xs := by
  intro allowance rest hallowance _
  rw [Document.nesting] at hallowance
  obtain ⟨inner, rfl⟩ : ∃ inner, allowance = inner + 1 :=
    Nat.exists_eq_add_one_of_ne_zero (Nat.ne_zero_of_lt hallowance)
  let body : List Char := itemsFrom true ds ++ ']' :: rest
  have hfuel : ds.length < body.length + 1 := by
    have hlength := length_le_length_itemsFrom hitem true
    simp only [body, List.length_append]
    omega
  calc Reader.list read (inner + 1) ((Document.array ds).compact ++ rest)
    _ = Reader.list read (inner + 1) ('[' :: body) := by
      rw [compact_array, List.cons_append, List.append_assoc]
      rfl
    _ = items (read inner) (body.length + 1) true body := rfl
    _ = .ok (xs, rest) :=
      items_itemsFrom h hitem (Nat.le_of_succ_le_succ hallowance) hfuel true rest

/-! ## Alternatives -/

/-- An alternative that holds something is read back if what it holds is. -/
theorem oneOf_reads {alternatives : List (String × Payload α)} {name : String} {read : Reader α}
    (hname : alternatives.lookup name = some (.holding read)) {d : Document} {x : α}
    (h : read.Reads d x) : (Reader.oneOf alternatives).Reads (.tagged name d) x := by
  intro allowance rest hallowance _
  have hnesting : (Document.tagged name d).nesting = d.nesting + 1 := by
    simp [Document.tagged, Document.nesting, Document.membersNesting]
  obtain ⟨inner, rfl⟩ : ∃ inner, allowance = inner + 1 :=
    Nat.exists_eq_add_one_of_ne_zero (by omega)
  have htext : (Document.tagged name d).compact ++ rest =
      '{' :: (quoted name ++ ':' :: (d.compact ++ '}' :: rest)) := by
    simp [Document.tagged, Document.compact, Document.compactMembers]
  have hskip (cs : List Char) : skipBlanks ('{' :: cs) = '{' :: cs := rfl
  have hobject (cs : List Char) : nameInObject (quoted name ++ cs) = .ok (name.toList, cs) := by
    rw [quoted_append]
    exact stringBody_flatMap_escape name.toList cs
  have hcolon : colon (':' :: (d.compact ++ '}' :: rest)) = .ok (d.compact ++ '}' :: rest) := rfl
  have hvalue : read inner (d.compact ++ '}' :: rest) = .ok (x, '}' :: rest) :=
    h inner ('}' :: rest) (by omega) (endsValue_cons (by simp) rest)
  have hend : endOfObject ('}' :: rest) = .ok rest := rfl
  rw [htext, Reader.oneOf]
  simp only [hskip, hobject, String.ofList_toList, hname, hcolon, hvalue, hend, bind, Except.bind]
  rfl

/-! ## Inner values -/

/-- A reader that reads inner values with itself, two brackets further in, reads back what one step
of it reads back. -/
theorem Reader.Reads.of_step {read : Reader α} (step : Reader α → Reader α)
    (hread : ∀ a, read (a + 2) = step (fun _ => read a) (a + 2)) {d : Document} {n : Nat}
    (hnesting : d.nesting = n + 2) {x : α} (h : ∀ a, n ≤ a → (step fun _ => read a).Reads d x) :
    read.Reads d x := by
  intro allowance rest hallowance hrest
  obtain ⟨a, rfl⟩ : ∃ a, allowance = a + 2 := ⟨allowance - 2, by omega⟩
  rw [hread]
  exact h a (by omega) (a + 2) rest hallowance hrest

/-- An inner value is read with the brackets that are left, whatever it is allowed to open. -/
theorem Reader.Reads.inner {read : Reader α} {d : Document} {x : α} (h : read.Reads d x) {a : Nat}
    (ha : d.nesting ≤ a) : Reader.Reads (fun _ => read a) d x :=
  fun _ rest _ hrest => h a rest ha hrest

end ChordGrammar.Json
