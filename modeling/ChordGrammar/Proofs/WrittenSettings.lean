import Mathlib.Data.List.Nodup
import ChordGrammar.Proofs.WrittenAlternatives
import ChordGrammar.Proofs.WrittenDoubles
import ChordGrammar.Settings.Assembly

/-!
# Written settings

A settings text may leave members out and have them in any order. Each member that stands in it sets
its part of the settings, whatever was set before, and no part is set by two members; what the text
leaves out keeps its default. The text that holds all members is therefore read back as a whole.
-/
namespace ChordGrammar

namespace Json

variable {α : Type}

/-! ## Readers of the parts -/

/-- An alternative that holds nothing is read back from its name. -/
theorem plain_reads {alternatives : List (String × Payload α)} {name : String} {x : α}
    (hname : alternatives.lookup name = some (.plain x)) :
    (Reader.oneOf alternatives).Reads (.string name) x := by
  intro allowance rest _ _
  have hskip (cs : List Char) : skipBlanks ('"' :: cs) = '"' :: cs := rfl
  rw [Document.compact, quoted_append, Reader.oneOf, hskip]
  simp only [stringBody_flatMap_escape, bind, Except.bind, String.ofList_toList, hname]
  rfl

theorem none_reads (read : Reader α) : (Reader.optional read).Reads .null none :=
  fun _ _ _ _ => rfl

/-- The text is that of a value and not of `null`: it begins with neither a blank nor an `n`. -/
theorem some_reads {read : Reader α} {d : Document} {x : α} (h : read.Reads d x) {c : Char}
    {cs : List Char} (hd : d.compact = c :: cs) (hblank : isBlank c = false) (hnull : c ≠ 'n') :
    (Reader.optional read).Reads d (some x) := by
  intro allowance rest hallowance hrest
  have hread := h allowance rest hallowance hrest
  rw [hd, List.cons_append] at hread ⊢
  rw [Reader.optional, skipBlanks_cons hblank]
  simp [hnull, hread, Except.map]

theorem byte_reads (b : UInt8) : ReadsBack b :=
  (natural_reads b.toNat_lt (by decide)).filterMap (by rw [UInt8.ofNat_toNat])

theorem exists_compact_ofNat (n : Nat) :
    ∃ c cs, (Document.ofNat n).compact = c :: cs ∧ c.isDigit := by
  obtain ⟨c, cs, hcs, hc⟩ := Decimal.exists_digitChars_eq_cons n
  exact ⟨c, cs, (compact_ofNat n).trans hcs, hc⟩

theorem bytes_read (bs : List UInt8) : ReadsBack bs := by
  refine list_reads ?_ ?_
  · rw [List.forall₂_map_left_iff, List.forall₂_same]
    exact fun b _ => byte_reads b
  · intro d hd
    obtain ⟨b, -, rfl⟩ := List.mem_map.mp hd
    obtain ⟨c, cs, hcs, hc⟩ := exists_compact_ofNat b.toNat
    refine ⟨c, cs, hcs, not_isBlank_of_isDigit hc, ?_⟩
    rintro rfl
    exact absurd hc (by decide)

theorem optionalWord_reads (w : Option UInt64) : ReadsBack w := by
  cases w with
  | none => exact none_reads _
  | some w =>
    obtain ⟨c, cs, hcs, hc⟩ := exists_compact_ofNat w.toNat
    refine some_reads (word_reads w) hcs (not_isBlank_of_isDigit hc) ?_
    rintro rfl
    exact absurd hc (by decide)

end Json

open Json

theorem mode_reads (m : Mode) : ReadsBack m := by
  cases m with
  | custom offsets => exact oneOf_reads rfl ((bytes_read offsets).filterMap rfl)
  | _ => exact plain_reads rfl

theorem grammarKind_reads (g : GrammarKind) : ReadsBack g := by
  cases g <;> exact plain_reads rfl

namespace Settings

/-! ## Parts of settings -/

/-- The parts of settings. -/
inductive Part where
  | seed
  | iterations
  | grammar
  | mode
  | key
  | duration
  | minDuration
  deriving DecidableEq

namespace Part

/-- All parts, in the order in which they are written. -/
def all : List Part := [.seed, .iterations, .grammar, .mode, .key, .duration, .minDuration]

/-- The name of the member for a part. -/
def name : Part → String
  | .seed => "seed"
  | .iterations => "iterations"
  | .grammar => "grammar"
  | .mode => "mode"
  | .key => "key"
  | .duration => "duration"
  | .minDuration => "min_duration"

/-- What is written for a part of the settings. -/
def document (c : Settings) : Part → Document
  | .seed => Codec.document c.seed
  | .iterations => Codec.document c.iterations
  | .grammar => Codec.document c.grammar
  | .mode => Codec.document c.mode
  | .key => Codec.document c.key
  | .duration => Codec.document c.duration
  | .minDuration => Codec.document c.minDuration

/-- The member for a part of the settings. -/
def member (c : Settings) (f : Part) : String × Document := (f.name, f.document c)

/-- Gives the part that the settings `c` have. -/
def give (c : Settings) : Part → Layer → Layer
  | .seed, l => { l with seed := some c.seed }
  | .iterations, l => { l with iterations := some c.iterations }
  | .grammar, l => { l with grammar := some c.grammar }
  | .mode, l => { l with mode := some c.mode }
  | .key, l => { l with key := some c.key }
  | .duration, l => { l with duration := some c.duration }
  | .minDuration, l => { l with minDuration := some c.minDuration }

theorem mem_all (f : Part) : f ∈ all := by
  cases f <;> decide

theorem name_injective : Function.Injective name := by
  intro f g h
  cases f <;> cases g <;> first | rfl | exact absurd h (by decide)

end Part

/-- The settings with the parts of a list taken over from `c`. -/
def taking (d : Settings) (parts : List Part) (c : Settings) : Settings where
  seed := if .seed ∈ parts then c.seed else d.seed
  iterations := if .iterations ∈ parts then c.iterations else d.iterations
  grammar := if .grammar ∈ parts then c.grammar else d.grammar
  mode := if .mode ∈ parts then c.mode else d.mode
  key := if .key ∈ parts then c.key else d.key
  duration := if .duration ∈ parts then c.duration else d.duration
  minDuration := if .minDuration ∈ parts then c.minDuration else d.minDuration

theorem give_on_taking (f : Part) (parts : List Part) (l : Layer) (c d : Settings) :
    ((f.give c l).on d).taking parts c = (l.on d).taking (f :: parts) c := by
  cases f <;> simp [taking, Part.give, Layer.on]

/-- A layer to which parts were given one after the other. -/
theorem foldl_give_on (parts : List Part) (l : Layer) (c d : Settings) :
    ((parts.map (Part.give c)).foldl (fun l update => update l) l).on d =
      (l.on d).taking parts c := by
  induction parts generalizing l with
  | nil => simp [taking]
  | cons f parts ih => rw [List.map_cons, List.foldl_cons, ih, give_on_taking]

theorem taking_all (d c : Settings) {parts : List Part} (h : ∀ f, f ∈ parts) :
    d.taking parts c = c := by
  simp [taking, h]

/-! ## Texts -/

/-- The text of an object with members for the given parts, in the given order. -/
def partialText (c : Settings) (parts : List Part) : String :=
  .ofList (Document.object (parts.map (Part.member c))).compact

theorem membersNesting_le {n : Nat} {written : List (String × Document)}
    (h : ∀ w ∈ written, w.2.nesting ≤ n) : Document.membersNesting written ≤ n := by
  induction written with
  | nil => exact Nat.zero_le n
  | cons w written ih =>
    rw [List.forall_mem_cons] at h
    exact Nat.max_le.mpr ⟨h.1, ih h.2⟩

theorem itemsNesting_bytes (bs : List UInt8) :
    Document.itemsNesting (bs.map Codec.document) = 0 := by
  induction bs with
  | nil => rfl
  | cons b bs ih => rw [List.map_cons, Document.itemsNesting, ih]; rfl

/-- Only a custom mode opens brackets of its own: one for its name and one for its offsets. -/
theorem nesting_mode_le (m : Mode) : (Codec.document m).nesting ≤ 2 := by
  cases m with
  | custom offsets =>
    have hinner : (Codec.document (Mode.custom offsets)).nesting =
        max (Document.itemsNesting (offsets.map Codec.document) + 1) 0 + 1 := rfl
    rw [hinner, itemsNesting_bytes]
    decide
  | _ => exact Nat.zero_le 2

theorem nesting_optionalWord (w : Option UInt64) : (Codec.document w).nesting = 0 := by
  cases w <;> rfl

theorem nesting_float (x : Float) : (Codec.document x).nesting = 0 := by
  change (if x.isFinite then Document.number _ else .null).nesting = 0
  split_ifs <;> rfl

theorem nesting_document_le (c : Settings) (f : Part) : (f.document c).nesting ≤ 2 := by
  cases f with
  | seed => exact (nesting_optionalWord c.seed).le.trans (Nat.zero_le 2)
  | mode => exact nesting_mode_le c.mode
  | duration => exact (nesting_float c.duration).le.trans (Nat.zero_le 2)
  | minDuration => exact (nesting_float c.minDuration).le.trans (Nat.zero_le 2)
  | _ => exact Nat.zero_le 2

variable {c : Settings}

theorem readsMember (hduration : ReadsBack c.duration) (hminDuration : ReadsBack c.minDuration)
    (f : Part) : ReadsMember Layer.members (f.member c) (f.give c) := by
  cases f with
  | seed => exact ⟨_, rfl, (optionalWord_reads c.seed).setting _ _⟩
  | iterations => exact ⟨_, rfl, (word_reads c.iterations).setting _ _⟩
  | grammar => exact ⟨_, rfl, (grammarKind_reads c.grammar).setting _ _⟩
  | mode => exact ⟨_, rfl, (mode_reads c.mode).setting _ _⟩
  | key => exact ⟨_, rfl, (byte_reads c.key).setting _ _⟩
  | duration => exact ⟨_, rfl, hduration.setting _ _⟩
  | minDuration => exact ⟨_, rfl, hminDuration.setting _ _⟩

theorem ofJson_partialText (hduration : ReadsBack c.duration)
    (hminDuration : ReadsBack c.minDuration) {parts : List Part} (hparts : parts.Nodup) :
    ofJson (c.partialText parts) = .ok (({} : Settings).taking parts c) := by
  have hmembers : List.Forall₂ (ReadsMember Layer.members) (parts.map (Part.member c))
      (parts.map (Part.give c)) := by
    rw [List.forall₂_map_left_iff, List.forall₂_map_right_iff, List.forall₂_same]
    exact fun f _ => readsMember hduration hminDuration f
  have hnames : ((parts.map (Part.member c)).map Prod.fst).Nodup := by
    rw [List.map_map]
    exact hparts.map Part.name_injective
  have hlayer : Layer.reader.Reads (.object (parts.map (Part.member c)))
      ((parts.map (Part.give c)).foldl (fun l update => update l) {}) :=
    record_reads hmembers hnames rfl
  have hreads : reader.Reads (.object (parts.map (Part.member c)))
      (({} : Settings).taking parts c) :=
    hlayer.filterMap (congrArg some (foldl_give_on parts {} c {}))
  have hnesting : (Document.object (parts.map (Part.member c))).nesting ≤ maxNesting := by
    have hmember : ∀ w ∈ parts.map (Part.member c), w.2.nesting ≤ 2 :=
      List.forall_mem_map.mpr fun f _ => nesting_document_le c f
    have hinner := membersNesting_le hmember
    rw [Document.nesting, maxNesting]
    omega
  have hread : Json.read (c.partialText parts) = .ok (({} : Settings).taking parts c) :=
    hreads.run_eq hnesting
  rw [ofJson, hread]
  rfl

/-- Partial settings texts. For settings whose durations are read back from their digits, the text
that holds members for any of the parts, each once and in any order, gives the defaults with these
parts taken over. The text written for the settings holds all of them, so it gives the settings
back, and so does the text with all members in another order. -/
theorem ofJson_any_parts (c : Settings)
    (hduration : Json.read (Json.write c.duration) = .ok c.duration)
    (hminDuration : Json.read (Json.write c.minDuration) = .ok c.minDuration) :
    (∀ parts : List Part, parts.Nodup →
      ofJson (c.partialText parts) = .ok (({} : Settings).taking parts c)) ∧
    (∀ parts : List Part, parts.Perm Part.all → ofJson (c.partialText parts) = .ok c) ∧
    Json.write c = c.partialText Part.all ∧ ofJson (Json.write c) = .ok c := by
  have hparts : ∀ parts : List Part, parts.Nodup →
      ofJson (c.partialText parts) = .ok (({} : Settings).taking parts c) :=
    fun _ => ofJson_partialText (float_reads hduration) (float_reads hminDuration)
  have hall : ∀ parts : List Part, parts.Perm Part.all → ofJson (c.partialText parts) = .ok c := by
    intro parts hperm
    rw [hparts parts (hperm.nodup_iff.mpr (by decide)),
      taking_all _ _ fun f => hperm.mem_iff.mpr f.mem_all]
  exact ⟨hparts, hall, rfl, hall Part.all (.refl _)⟩

/-- Settings none of which is the default: the greatest seed, no passes, a custom mode and a key
that are no pitch classes, and a duration that is written with an exponent. -/
def farSettings : Settings where
  seed := some 0xffffffffffffffff
  iterations := 0
  grammar := .tsd
  mode := .custom [0, 255]
  key := 200
  duration := 0.1
  minDuration := 1e-7

theorem ofJson_any_parts_far :
    let parts : List Part := [.minDuration, .mode, .seed]
    let text : String := "\x7b\"min_duration\":1e-7,\"mode\":\x7b\"custom\":[0,255]\x7d," ++
      "\"seed\":18446744073709551615\x7d"
    Json.read (Json.write farSettings.duration) = .ok farSettings.duration ∧
    Json.read (Json.write farSettings.minDuration) = .ok farSettings.minDuration ∧
    parts.Nodup ∧ farSettings.partialText parts = text ∧
    ofJson text = .ok
      { seed := some 0xffffffffffffffff, mode := .custom [0, 255], minDuration := 1e-7 } ∧
    ofJson (Json.write farSettings) = .ok farSettings := by
  intro parts text
  have hduration : Json.read (Json.write farSettings.duration) = .ok farSettings.duration := by
    decide +kernel
  have hminDuration :
      Json.read (Json.write farSettings.minDuration) = .ok farSettings.minDuration := by
    decide +kernel
  have hparts : parts.Nodup := by decide
  have htext : farSettings.partialText parts = text := by decide +kernel
  obtain ⟨hany, -, -, hall⟩ := ofJson_any_parts farSettings hduration hminDuration
  have hread := hany parts hparts
  refine ⟨hduration, hminDuration, hparts, htext, ?_, hall⟩
  rw [← htext]
  exact hread

end Settings
end ChordGrammar
