import ChordGrammar.Grammar.Term

/-!
# Expansion

Expansion replaces every variable by the value of the innermost enclosing binding of its name. A
let's value is expanded in the scope outside the let, once; its body sees the binding and nothing
after the body does. Juxtaposition is flattened and modulations are pushed down onto every
occurrence inside them, so the result is a flat list of occurrences.
-/
namespace ChordGrammar

variable {S P M : Type}

/-- The bindings visible at a point, innermost first. -/
structure Environment (S P M : Type) where
  scopes : List (String × List (Occurrence S P M))
  deriving BEq, DecidableEq

namespace Environment

def empty : Environment S P M := ⟨[]⟩

/-- Opens a scope, hiding any outer binding of the name. -/
def bind (env : Environment S P M) (name : String) (value : List (Occurrence S P M)) :
    Environment S P M :=
  ⟨(name, value) :: env.scopes⟩

/-- Closes the innermost scope, if there is one. -/
def unbind (env : Environment S P M) : Environment S P M := ⟨env.scopes.tail⟩

/-- The innermost value of a name. -/
def lookup (env : Environment S P M) (name : String) : Option (List (Occurrence S P M)) :=
  env.scopes.lookup name

/-- Number of open scopes. -/
def depth (env : Environment S P M) : Nat := env.scopes.length

end Environment

/-- A variable that no enclosing let binds. -/
structure UnboundVariable where
  name : String
  deriving DecidableEq

/-- What is reported to the user. -/
def UnboundVariable.message (e : UnboundVariable) : String :=
  "unbound variable `" ++ e.name ++ "`: no enclosing let binds it"

/-- The outcome of expanding under an environment, and the environment as it was left. -/
abbrev Expansion (S P M : Type) :=
  Except UnboundVariable (List (Occurrence S P M)) × Environment S P M

mutual

/-- Expansion of a term. A let's scope is closed again whether or not its body expands. -/
def expand : Term S P M → Environment S P M → Expansion S P M
  | .leaf s p, env => (.ok [.ofLeaf s p], env)
  | .seq ts, env => expandAll ts env
  | .modulated m t, env =>
    let (result, env) := expand t env
    (result.map (·.map (·.modulate m)), env)
  | .letIn x v b, env =>
    match expand v env with
    | (.error e, env) => (.error e, env)
    | (.ok value, env) =>
      let (result, env) := expand b (env.bind x value)
      (result, env.unbind)
  | .var x, env =>
    match env.lookup x with
    | some value => (.ok value, env)
    | none => (.error ⟨x⟩, env)

/-- Expansion of terms in order, up to the first that fails. -/
def expandAll : List (Term S P M) → Environment S P M → Expansion S P M
  | [], env => (.ok [], env)
  | t :: ts, env =>
    match expand t env with
    | (.error e, env) => (.error e, env)
    | (.ok os, env) =>
      let (result, env) := expandAll ts env
      (result.map (os ++ ·), env)

end

/-- Expansion of a sentence that nothing encloses. -/
def expandSentence (ts : Sentence S P M) :
    Except UnboundVariable (List (Occurrence S P M)) :=
  (expandAll ts .empty).1

end ChordGrammar
