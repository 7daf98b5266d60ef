import ChordGrammar.Grammar.Term
import ChordGrammar.Json.Codec

/-!
# Written forms of terms

A term is written as one of five alternatives. A subterm stands two brackets further in than its
term, which is what the recursion of the reader follows.
-/
namespace ChordGrammar

open Json

variable {S P M : Type}

/-- The members of a leaf. -/
def leafMembers [Codec S] [Codec P] : List (Member (Option S × Option P)) :=
  [ .setting "symbol" Codec.reader fun s draft => (some s, draft.2),
    .setting "param" Codec.reader fun p draft => (draft.1, some p) ]

/-- A leaf, made into a value of another type. -/
def leafReader {α : Type} [Codec S] [Codec P] (make : S → P → α) : Reader α :=
  .record leafMembers (none, none) fun draft => do return make (← draft.1) (← draft.2)

/-- The members of a modulation, the inner value being read by `inner`. -/
def modulationMembers {α : Type} [Codec M] (inner : Reader α) :
    List (Member (Option M × Option α)) :=
  [ .setting "modulation" Codec.reader fun m draft => (some m, draft.2),
    .setting "term" inner fun t draft => (draft.1, some t) ]

/-- A modulation and what is inside, made into a value of another type. -/
def modulationReader {α β : Type} [Codec M] (inner : Reader α) (make : M → α → β) : Reader β :=
  .record (modulationMembers inner) (none, none) fun draft => do
    return make (← draft.1) (← draft.2)

def leafDocument [Codec S] [Codec P] (s : S) (p : P) : Document :=
  .object [("symbol", Codec.document s), ("param", Codec.document p)]

def modulationDocument [Codec M] (m : M) (inner : Document) : Document :=
  .object [("modulation", Codec.document m), ("term", inner)]

namespace Term

/-- What is known of a let while its members are read. -/
structure LetDraft (S P M : Type) where
  name : Option String
  value : Option (Term S P M)
  body : Option (Term S P M)

def letMembers (inner : Reader (Term S P M)) : List (Member (LetDraft S P M)) :=
  [ .setting "name" Codec.reader fun x draft => { draft with name := some x },
    .setting "value" inner fun v draft => { draft with value := some v },
    .setting "body" inner fun b draft => { draft with body := some b } ]

def letReader (inner : Reader (Term S P M)) : Reader (Term S P M) :=
  .record (letMembers inner) ⟨none, none, none⟩ fun draft => do
    return .letIn (← draft.name) (← draft.value) (← draft.body)

variable [Codec S] [Codec P] [Codec M]

mutual

def document : Term S P M → Document
  | .leaf s p => .tagged "NonTerminal" (leafDocument s p)
  | .seq ts => .tagged "Sequence" (.array (documents ts))
  | .modulated m t => .tagged "Modulation" (modulationDocument m (document t))
  | .letIn x v b =>
    .tagged "Let"
      (.object [("name", Codec.document x), ("value", document v), ("body", document b)])
  | .var x => .tagged "Var" (Codec.document x)

def documents : List (Term S P M) → List Document
  | [] => []
  | t :: ts => document t :: documents ts

end

/-- A term whose subterms are read by `inner`. -/
def readerWith (inner : Reader (Term S P M)) : Reader (Term S P M) :=
  .oneOf
    [ ("NonTerminal", .holding (leafReader .leaf)),
      ("Sequence", .holding ((Reader.list inner).filterMap fun ts => some (.seq ts))),
      ("Modulation", .holding (modulationReader inner .modulated)),
      ("Let", .holding (letReader inner)),
      ("Var", .holding ((Codec.reader : Reader String).filterMap fun x => some (.var x))) ]

/-- A term inside at most `allowance` further brackets. With fewer than two of them there is no room
for a subterm, and the reader of subterms is never called. -/
def reader : (allowance : Nat) → Parse (Term S P M)
  | 0 => readerWith (fun _ _ => .error .malformed) 0
  | 1 => readerWith (fun _ _ => .error .malformed) 1
  | allowance + 2 => readerWith (fun _ => reader allowance) (allowance + 2)

instance : Codec (Term S P M) := ⟨document, reader⟩

end Term

namespace Occurrence

variable [Codec S] [Codec P] [Codec M]

/-- An occurrence is written as its leaf inside its modulations, one inside the other. -/
def document (o : Occurrence S P M) : Document :=
  o.modulations.foldr (fun m inner => .tagged "Modulation" (modulationDocument m inner))
    (.tagged "NonTerminal" (leafDocument o.symbol o.param))

/-- An occurrence whose inner part is read by `inner`. -/
def readerWith (inner : Reader (Occurrence S P M)) : Reader (Occurrence S P M) :=
  .oneOf
    [ ("NonTerminal", .holding (leafReader .ofLeaf)),
      ("Modulation", .holding (modulationReader inner modulate)) ]

/-- An occurrence inside at most `allowance` further brackets. -/
def reader : (allowance : Nat) → Parse (Occurrence S P M)
  | 0 => readerWith (fun _ _ => .error .malformed) 0
  | 1 => readerWith (fun _ _ => .error .malformed) 1
  | allowance + 2 => readerWith (fun _ => reader allowance) (allowance + 2)

instance : Codec (Occurrence S P M) := ⟨document, reader⟩

end Occurrence
end ChordGrammar
