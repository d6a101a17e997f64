import RecurrenceCompiler.Constraint.Basic
import RecurrenceCompiler.Text.Units

/-!
# Guards

A guard is a conjunction of constraints. `unsatisfiable` collects the bounds on each index into a
range and reports a guard whose ranges are empty; it looks at bounds only, so a negative answer means
that nothing was found, not that the guard can hold.
-/

namespace RecurrenceCompiler

open Text Decimal Arith

/-- A conjunction of constraints. -/
structure Guard where
  constraints : List Constraint := []
deriving DecidableEq

/-- The integers that the bounds on one index leave. The ends of the unbounded range are the values
that stand for the infinities. -/
structure Range where
  low : Int := -overflow
  high : Int := overflow
  excluded : List Int := []

namespace Range

/-- Raise the lower end. -/
def atLeast (r : Range) (v : Int) : Range :=
  { r with low := max r.low v }

/-- Lower the upper end. -/
def atMost (r : Range) (v : Int) : Range :=
  { r with high := min r.high v }

/-- The range with one more bound. Strict bounds move to the next integer on the grid of doubles. -/
def add (r : Range) (b : Bound) : Range :=
  match b.op with
  | .eq => (r.atLeast b.value).atMost b.value
  | .ne => { r with excluded := b.value :: r.excluded }
  | .lt => r.atMost (onDoubleGrid (b.value - 1))
  | .le => r.atMost b.value
  | .gt => r.atLeast (onDoubleGrid (b.value + 1))
  | .ge => r.atLeast b.value

/-- Whether a range has no integer left. -/
def empty (r : Range) : Bool :=
  r.high < r.low || (r.low == r.high && r.excluded.contains r.low)

end Range

namespace Guard

/-- The constraints of one text, joined by a double ampersand; blank parts are skipped. -/
def parseParts : List (List Char) → Except Error (List Constraint)
  | [] => .ok []
  | part :: parts =>
    if (trim part).isEmpty then parseParts parts
    else do
      let c ← Constraint.parse (String.ofList part)
      let cs ← parseParts parts
      return c :: cs

/-- The parts of a text between double ampersands. -/
def splitAnd : List Char → List (List Char)
  | [] => [[]]
  | '&' :: '&' :: cs => [] :: splitAnd cs
  | c :: cs =>
    match splitAnd cs with
    | [] => [[c]]
    | part :: parts => (c :: part) :: parts

/-- The guard that several texts make together. -/
def parse (texts : List String) : Except Error Guard := do
  let parts := texts.flatMap fun t => splitAnd t.toList
  let cs ← parseParts parts
  return ⟨cs⟩

/-- The number of constraints. -/
def size (g : Guard) : Nat :=
  g.constraints.length

/-- The number of equalities. -/
def equalities (g : Guard) : Nat :=
  g.constraints.countP fun c => c.op == .eq

/-- Both guards together. -/
def and (g h : Guard) : Guard :=
  ⟨g.constraints ++ h.constraints⟩

/-- The constraints that satisfy a test. -/
def filter (p : Constraint → Bool) (g : Guard) : Guard :=
  ⟨g.constraints.filter p⟩

/-- Whether a constraint mentions a name. -/
def mentions (g : Guard) (name : String) : Bool :=
  g.constraints.any fun c => c.mentions name

/-- The guard as a condition. -/
def render (g : Guard) : String :=
  if g.constraints.isEmpty then "true" else " && ".intercalate (g.constraints.map Constraint.render)

/-- The negated guard as a condition. -/
def renderNegated (g : Guard) : String :=
  if g.size == 1 then "!" ++ g.render else "!(" ++ g.render ++ ")"

/-- A text that does not depend on the order of the constraints. -/
def key (g : Guard) : String :=
  " && ".intercalate (sortByUnits (g.constraints.map Constraint.render))

/-- Whether every constraint holds. Constraints after one that does not hold are not evaluated. -/
def allHold [Carrier α] (env : Env α) : List Constraint → Except Error Bool
  | [] => .ok true
  | c :: cs => do
    let b ← c.holds env
    if b then allHold env cs else return false

/-- Whether a guard holds. -/
def holds [Carrier α] (g : Guard) (env : Env α) : Except Error Bool :=
  allHold env g.constraints

/-- The bounds among the constraints. -/
def bounds (g : Guard) : List Bound :=
  g.constraints.filterMap Constraint.bound?

/-- The range that a guard leaves to a name. -/
def range (g : Guard) (name : String) : Range :=
  (g.bounds.filter fun b => b.name == name).foldl Range.add {}

/-- Whether the bounds contradict each other. -/
def unsatisfiable (g : Guard) : Bool :=
  g.bounds.any fun b => (g.range b.name).empty

/-- Whether the bounds of two guards contradict each other. -/
def provablyDisjoint (g h : Guard) : Bool :=
  (g.and h).unsatisfiable

end Guard

end RecurrenceCompiler
