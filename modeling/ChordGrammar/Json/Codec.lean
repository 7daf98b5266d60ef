import ChordGrammar.Decimal.Style
import ChordGrammar.Json.Alternative
import ChordGrammar.Json.Document
import ChordGrammar.Json.Record

/-!
# Values with a written form

A codec pairs the document that is written for a value with the reader of such documents. Objects
and alternatives are written with all members in order and without blanks; reading also takes the
other forms described with the readers.
-/
namespace ChordGrammar.Json

class Codec (α : Type) where
  document : α → Document
  reader : Reader α

variable {α : Type}

/-- The compact text of a value. -/
def write [Codec α] (x : α) : String := .ofList (Codec.document x).compact

/-- The text of a value on several lines. -/
def writePretty [Codec α] (x : α) : String := .ofList ((Codec.document x).pretty 0)

/-- The value of a text. -/
def read [Codec α] (text : String) : Except Fault α := (Codec.reader : Reader α).run text

/-- A natural number or an integer as a document. -/
def Document.ofNat (n : Nat) : Document := .number (.ofList (Decimal.digitChars n))

def Document.ofInt (n : Int) : Document :=
  if n < 0 then .number (.ofList ('-' :: Decimal.digitChars n.natAbs)) else .ofNat n.natAbs

/-- One of several alternatives that holds something. -/
def Document.tagged (name : String) (d : Document) : Document := .object [(name, d)]

instance : Codec String := ⟨.string, Reader.string⟩

/-- A double that is not finite has no written form of its own and becomes `null`. -/
instance : Codec Float where
  document x := if x.isFinite then .number (Decimal.Style.exchange.text x) else .null
  reader := Reader.float

instance : Codec UInt8 where
  document n := .ofNat n.toNat
  reader := (Reader.natural UInt8.size).filterMap fun n => some (.ofNat n)

instance : Codec UInt64 where
  document n := .ofNat n.toNat
  reader := (Reader.natural UInt64.size).filterMap fun n => some (.ofNat n)

instance : Codec Int8 where
  document n := .ofInt n.toInt
  reader := (Reader.integer (-128) 127).filterMap fun n => some (.ofInt n)

instance [Codec α] : Codec (Option α) where
  document
    | none => .null
    | some x => Codec.document x
  reader := Reader.optional Codec.reader

instance [Codec α] : Codec (List α) where
  document xs := .array (xs.map Codec.document)
  reader := Reader.list Codec.reader

/-- Values that are written as their name. -/
@[reducible] def Codec.named (values : List α) (name : α → String) : Codec α where
  document x := .string (name x)
  reader := Reader.named values name

end ChordGrammar.Json
