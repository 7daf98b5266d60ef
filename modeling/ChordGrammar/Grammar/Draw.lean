import ChordGrammar.Scalar

/-!
# Draw sources

Choosing a rule consumes numbers, meant to lie in `[0, 1)`, from a source that is handed in
explicitly. A source is any state with a step; everything that consumes draws returns the source
as it was left.
-/
namespace ChordGrammar

/-- One step of a source: the number drawn and the source afterwards. -/
class DrawSource (σ W : Type) where
  draw : σ → W × σ

export DrawSource (draw)

/-- A request that no source can serve. -/
inductive DrawError where
  /-- Bounds that leave no room for a draw between them. -/
  | emptyRange
  /-- A list to repeat that has no element. -/
  | noDraws
  deriving DecidableEq

/-- What is reported to the user. -/
def DrawError.message : DrawError → String
  | .emptyRange => "range_f64: low must be less than high"
  | .noDraws => "CycleDraws needs at least one draw"

/-- A fixed list of draws, repeated for ever. -/
structure Cycle (W : Type) where
  draws : List W
  ne_nil : draws ≠ []
  /-- How many draws have been handed out. -/
  issued : Nat

namespace Cycle

variable {W : Type}

/-- Starts at the head of the list, which must not be empty. -/
def ofList (draws : List W) : Except DrawError (Cycle W) :=
  if h : draws = [] then .error .noDraws else .ok ⟨draws, h, 0⟩

theorem position_lt (c : Cycle W) : c.issued % c.draws.length < c.draws.length :=
  Nat.mod_lt _ (List.length_pos_iff.2 c.ne_nil)

/-- The draw that comes next. -/
def current (c : Cycle W) : W := c.draws.get ⟨_, c.position_lt⟩

instance : DrawSource (Cycle W) W where
  draw c := (c.current, { c with issued := c.issued + 1 })

end Cycle

/-- A number that grows by `step` before each draw and is the draw. -/
structure Ramp (W : Type) where
  value : W
  step : W

instance {W : Type} [Scalar W] : DrawSource (Ramp W) W where
  draw r := (r.value + r.step, { r with value := r.value + r.step })

/-- A source that remembers what it handed out, latest first. -/
structure Recorded (σ W : Type) where
  source : σ
  taken : List W

namespace Recorded

variable {σ W : Type}

def start (source : σ) : Recorded σ W := ⟨source, []⟩

/-- The draws handed out, in order. -/
def history (r : Recorded σ W) : List W := r.taken.reverse

instance [DrawSource σ W] : DrawSource (Recorded σ W) W where
  draw r :=
    let (x, source) := draw r.source
    (x, ⟨source, x :: r.taken⟩)

end Recorded

/-- The next `n` draws of a source. -/
def drawMany {σ W : Type} [DrawSource σ W] : Nat → σ → List W × σ
  | 0, src => ([], src)
  | n + 1, src =>
    let (x, src) := draw src
    let (xs, src) := drawMany n src
    (x :: xs, src)

end ChordGrammar
