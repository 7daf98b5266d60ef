import Mathlib.Data.List.Nodup
import ChordGrammar.Grammar.Codec
import ChordGrammar.Proofs.Leaves
import ChordGrammar.Proofs.WrittenAlternatives
import ChordGrammar.Proofs.WrittenDoubles

/-!
# Written terms

A term is read back from its text, whatever its shape: each kind of node from its members, and those
from their own texts by induction. The text may open as many brackets at once as the reader allows,
and the numbers in it must be among those that are read back from the digits written for them.
-/
namespace ChordGrammar

open Json

variable {S P M α β : Type}

/-! ## Nodes -/

section Nodes

variable [Codec S] [Codec P] [Codec M]

theorem leaf_reads {s : S} {p : P} (hs : ReadsBack s) (hp : ReadsBack p) (make : S → P → α) :
    (leafReader make).Reads (leafDocument s p) (make s p) := by
  have hnames : ["symbol", "param"].Nodup := by decide
  exact record_reads (.cons (readsMember_setting rfl hs) (.cons (readsMember_setting rfl hp) .nil))
    hnames rfl

theorem modulation_reads {m : M} (hm : ReadsBack m) {inner : Reader α} {d : Document} {t : α}
    (ht : inner.Reads d t) (make : M → α → β) :
    (modulationReader inner make).Reads (modulationDocument m d) (make m t) := by
  have hnames : ["modulation", "term"].Nodup := by decide
  exact record_reads (.cons (readsMember_setting rfl hm) (.cons (readsMember_setting rfl ht) .nil))
    hnames rfl

end Nodes

theorem let_reads (x : String) {inner : Reader (Term S P M)} {dv db : Document} {v b : Term S P M}
    (hv : inner.Reads dv v) (hb : inner.Reads db b) :
    (Term.letReader inner).Reads
      (.object [("name", Codec.document x), ("value", dv), ("body", db)]) (.letIn x v b) := by
  have hnames : ["name", "value", "body"].Nodup := by decide
  exact record_reads (.cons (readsMember_setting rfl (string_reads x))
    (.cons (readsMember_setting rfl hv) (.cons (readsMember_setting rfl hb) .nil))) hnames rfl

/-! ## Terms -/

theorem nesting_tagged (name : String) (d : Document) :
    (Document.tagged name d).nesting = d.nesting + 1 := by
  simp [Document.tagged, Document.nesting, Document.membersNesting]

theorem nesting_tagged_object (name : String) (ms : List (String × Document)) :
    (Document.tagged name (.object ms)).nesting = Document.membersNesting ms + 2 := by
  rw [nesting_tagged, Document.nesting]

section Terms

variable [Codec S] [Codec P] [Codec M]

theorem isItem_document (t : Term S P M) : t.document.IsItem := by
  cases t <;> exact isItem_object _

theorem isItem_of_mem_documents {d : Document} {ts : List (Term S P M)}
    (h : d ∈ Term.documents ts) : d.IsItem := by
  induction ts with
  | nil => cases h
  | cons t ts ih =>
    rcases List.mem_cons.mp h with rfl | h
    · exact isItem_document t
    · exact ih h

theorem forall₂_reads_inner {ts : List (Term S P M)}
    (h : List.Forall₂ (Reader.Reads Term.reader) (Term.documents ts) ts) {a : Nat}
    (ha : Document.itemsNesting (Term.documents ts) ≤ a) :
    List.Forall₂ (Reader.Reads fun _ => Term.reader a) (Term.documents ts) ts := by
  induction ts with
  | nil => exact .nil
  | cons t ts ih =>
    obtain ⟨ht, hts⟩ := List.forall₂_cons.1 h
    simp only [Term.documents, Document.itemsNesting, Nat.max_le] at ha
    exact .cons (ht.inner ha.1) (ih hts ha.2)

/-- What one step of the reader reads back, with an allowance for the nodes below. -/
theorem readsBack_of_step {t : Term S P M} {n : Nat} (hnesting : t.document.nesting = n + 2)
    (h : ∀ a, n ≤ a → (Term.readerWith fun _ => Term.reader a).Reads t.document t) :
    ReadsBack t :=
  .of_step Term.readerWith (fun _ => rfl) hnesting h

/-- A variable opens a single bracket, so its text is read also where there is no room for more. -/
theorem var_reads (x : String) : ReadsBack (.var x : Term S P M) := by
  have hstep (inner : Reader (Term S P M)) :
      (Term.readerWith inner).Reads (Term.var x : Term S P M).document (.var x) :=
    oneOf_reads rfl ((string_reads x).filterMap rfl)
  intro allowance
  match allowance with
  | 0 => exact hstep (fun _ _ => .error .malformed) 0
  | 1 => exact hstep (fun _ _ => .error .malformed) 1
  | a + 2 => exact hstep (fun _ => Term.reader a) (a + 2)

mutual

/-- A term is read back if the symbols, the modulations and its parameters are. -/
theorem term_reads (hS : ∀ s : S, ReadsBack s) (hM : ∀ m : M, ReadsBack m) :
    ∀ (t : Term S P M) (path : List M),
      (∀ o ∈ leavesUnder path t, ReadsBack o.param) → ReadsBack t
  | .leaf s p, path, h => by
    have hp : ReadsBack p := h ⟨path, s, p⟩ (List.mem_singleton_self _)
    exact readsBack_of_step (nesting_tagged_object _ _) fun a _ =>
      oneOf_reads rfl (leaf_reads (hS s) hp Term.leaf)
  | .seq ts, path, h => by
    have hnesting : (Term.seq ts : Term S P M).document.nesting =
        Document.itemsNesting (Term.documents ts) + 2 := by
      rw [Term.document, nesting_tagged, Document.nesting]
    refine readsBack_of_step hnesting fun a ha => oneOf_reads rfl ?_
    have hinner := forall₂_reads_inner (sentence_reads hS hM ts path h) ha
    exact (list_reads hinner fun d => isItem_of_mem_documents).filterMap rfl
  | .modulated m t, path, h => by
    have hnesting : (Term.modulated m t : Term S P M).document.nesting =
        max (Codec.document m).nesting t.document.nesting + 2 := by
      simp [Term.document, modulationDocument, nesting_tagged_object, Document.membersNesting]
    have ht := term_reads hS hM t (path ++ [m]) h
    refine readsBack_of_step hnesting fun a ha => oneOf_reads rfl ?_
    exact modulation_reads (hM m) (ht.inner ((Nat.le_max_right _ _).trans ha)) Term.modulated
  | .letIn x v b, path, h => by
    have hnesting : (Term.letIn x v b : Term S P M).document.nesting =
        max v.document.nesting b.document.nesting + 2 := by
      simp [Term.document, nesting_tagged_object, Document.membersNesting, Codec.document,
        Document.nesting]
    rw [leavesUnder, List.forall_mem_append] at h
    have hv := term_reads hS hM v path h.1
    have hb := term_reads hS hM b path h.2
    refine readsBack_of_step hnesting fun a ha => oneOf_reads rfl ?_
    exact let_reads x (hv.inner ((Nat.le_max_left _ _).trans ha))
      (hb.inner ((Nat.le_max_right _ _).trans ha))
  | .var x, _, _ => var_reads x

theorem sentence_reads (hS : ∀ s : S, ReadsBack s) (hM : ∀ m : M, ReadsBack m) :
    ∀ (ts : List (Term S P M)) (path : List M),
      (∀ o ∈ sentenceLeavesUnder path ts, ReadsBack o.param) →
        List.Forall₂ (Reader.Reads Term.reader) (Term.documents ts) ts
  | [], _, _ => .nil
  | t :: ts, path, h => by
    rw [sentenceLeavesUnder, List.forall_mem_append] at h
    exact .cons (term_reads hS hM t path h.1) (sentence_reads hS hM ts path h.2)

end

/-- An occurrence is a leaf inside its modulations: by induction on these, the outermost first. -/
theorem occurrence_reads {s : S} {p : P} (hs : ReadsBack s) (hp : ReadsBack p)
    (hM : ∀ m : M, ReadsBack m) (ms : List M) :
    ReadsBack (⟨ms, s, p⟩ : Occurrence S P M) := by
  induction ms with
  | nil =>
    exact .of_step Occurrence.readerWith (fun _ => rfl) (nesting_tagged_object _ _) fun a _ =>
      oneOf_reads rfl (leaf_reads hs hp Occurrence.ofLeaf)
  | cons m ms ih =>
    have hnesting : (⟨m :: ms, s, p⟩ : Occurrence S P M).document.nesting =
        max (Codec.document m).nesting (⟨ms, s, p⟩ : Occurrence S P M).document.nesting + 2 := by
      simp [Occurrence.document, modulationDocument, nesting_tagged_object,
        Document.membersNesting]
    refine .of_step Occurrence.readerWith (fun _ => rfl) hnesting fun a ha => oneOf_reads rfl ?_
    have hinner := ih.inner ((Nat.le_max_right _ _).trans ha)
    exact modulation_reads (hM m) hinner Occurrence.modulate

end Terms

/-! ## Terms over names, doubles and small integers -/

theorem int8_reads (n : Int8) : ReadsBack n := by
  have hlow := n.le_toInt
  have hhigh := n.toInt_lt
  have hinteger : (Reader.integer (-128) 127).Reads (.ofInt n.toInt) n.toInt :=
    integer_reads (by omega) (by decide) (by decide)
  exact hinteger.filterMap (by rw [Int8.ofInt_toInt])

/-- Terms and their expanded occurrences are read back from their texts, whatever their shape and
names: it is enough that the numbers in them are, and that no more than 127 brackets are open at
once. A number that is not finite is never read back. -/
theorem terms_read_back :
    (∀ t : Term String Float Int8,
      (∀ o ∈ leavesUnder [] t, Json.read (Json.write o.param) = .ok o.param) →
      (Codec.document t).nesting ≤ 127 → Json.read (Json.write t) = .ok t) ∧
    ∀ o : Occurrence String Float Int8,
      Json.read (Json.write o.param) = .ok o.param →
      (Codec.document o).nesting ≤ 127 → Json.read (Json.write o) = .ok o := by
  refine ⟨fun t hfloats hnesting => ?_, fun o hfloat hnesting => ?_⟩
  · have hleaves : ∀ o ∈ leavesUnder [] t, ReadsBack o.param := fun o ho =>
      float_reads (hfloats o ho)
    exact Json.read_write (term_reads string_reads int8_reads t [] hleaves) hnesting
  · exact Json.read_write
      (occurrence_reads (string_reads o.symbol) (float_reads hfloat) int8_reads o.modulations)
      hnesting

/-- A term whose names hold a quote, a backslash, control characters and nothing at all. -/
def strangeNames : Term String Float Int8 :=
  .letIn "x\"" (.modulated (-128) (.leaf "\\\x01é" 0.75))
    (.seq [.var "x\"", .seq [], .leaf "" (-1e-7)])

theorem strangeNames_read_back :
    (∀ o ∈ leavesUnder [] strangeNames, Json.read (Json.write o.param) = .ok o.param ∧
      (Codec.document o).nesting ≤ 127 ∧ Json.read (Json.write o) = .ok o) ∧
    (Codec.document strangeNames).nesting ≤ 127 ∧
    Json.read (Json.write strangeNames) = .ok strangeNames := by
  have hfloats : ∀ o ∈ leavesUnder [] strangeNames,
      Json.read (Json.write o.param) = .ok o.param := by decide +kernel
  have hleaves : ∀ o ∈ leavesUnder [] strangeNames, (Codec.document o).nesting ≤ 127 := by
    decide +kernel
  have hterm : (Codec.document strangeNames).nesting ≤ 127 := by decide +kernel
  exact ⟨fun o ho => ⟨hfloats o ho, hleaves o ho,
    terms_read_back.2 o (hfloats o ho) (hleaves o ho)⟩, hterm,
    terms_read_back.1 strangeNames hfloats hterm⟩

end ChordGrammar
