import RecurrenceCompiler.Expr.Cost
import RecurrenceCompiler.Expr.Signature

/-!
# Sharing repeated subexpressions

Calls and coefficients that occur often enough are computed once, under a name, and read back by
reference. `Expr.visits` lists the places that take part, in the order in which they are evaluated;
`candidates` keeps those that repeat and are worth a name; `share` replaces every such place.
-/

namespace RecurrenceCompiler

/-- What kind of place a shared expression stands in. -/
inductive ShareKind where
  | call
  | coeff
deriving DecidableEq

/-- The word for a kind. -/
def ShareKind.text : ShareKind → String
  | call => "call"
  | coeff => "coeff"

/-- An expression that occurs in places of one kind, and how often. -/
structure Occurrence where
  kind : ShareKind
  signature : String
  count : Nat
  expr : Expr

/-- An occurrence that gets a name. -/
structure Candidate extends Occurrence where
  name : String

/-- An expression with its intermediates: the bindings come first, in order. -/
structure Shared where
  candidates : List Candidate
  result : Expr

namespace Expr

/-- The signature that decides whether two places share: that of the call, or of the expression. -/
def shareSignature (indices : List String) : Expr → String
  | .call c => c.signature indices
  | e => e.signature indices

/-- The places of a term: its coefficient unless it is one, and its call. -/
def termVisits (t : Term Expr) : List (ShareKind × Expr) :=
  (if t.coeff.isUnit then [] else [(.coeff, t.coeff)]) ++
    match t.factor with
    | .call c => [(.call, .call c)]
    | .ref _ => []

mutual

/-- The places that take part in sharing, from left to right. -/
def visits : Expr → List (ShareKind × Expr)
  | .call c => [(.call, .call c)]
  | .term t => termVisits t
  | .sum ts => ts.flatMap termVisits
  | .scaled inner scale _ => visits inner ++ [(.coeff, scale)]
  | .average bs scale => visitsOfList bs ++ [(.coeff, scale)]
  | .binop _ l r => visits l ++ visits r
  | .const _ | .var _ | .index _ | .lookup _ _ | .ref _ => []

/-- The places of a list of expressions. -/
def visitsOfList : List Expr → List (ShareKind × Expr)
  | [] => []
  | e :: es => visits e ++ visitsOfList es

end

/-- Count one more occurrence. -/
def record (indices : List String) (seen : List Occurrence) (visit : ShareKind × Expr) :
    List Occurrence :=
  let signature := shareSignature indices visit.2
  let same := fun (o : Occurrence) => o.kind == visit.1 && o.signature == signature
  if seen.any same then seen.map fun o => if same o then { o with count := o.count + 1 } else o
  else seen ++ [⟨visit.1, signature, 1, visit.2⟩]

/-- What occurs in an expression, in the order of first occurrence. -/
def occurrences (indices : List String) (e : Expr) : List Occurrence :=
  e.visits.foldl (record indices) []

/-- Whether an occurrence is worth a name. -/
def worthNaming (threshold : Int) (o : Occurrence) : Bool :=
  threshold ≤ o.count && (o.kind == .call || 1 ≤ coeffCost o.expr)

/-- Names for occurrences, numbered from `n`. -/
def nameFrom (n : Nat) : List Occurrence → List Candidate
  | [] => []
  | o :: os =>
    { o with name := "_cse_" ++ o.kind.text ++ "_" ++ toString n } :: nameFrom (n + 1) os

/-- The occurrences that get a name. -/
def candidates (indices : List String) (threshold : Int) (e : Expr) : List Candidate :=
  nameFrom 1 ((e.occurrences indices).filter (worthNaming threshold))

/-- The name under which a place is shared. -/
def sharedName? (indices : List String) (cs : List Candidate) (kind : ShareKind) (e : Expr) :
    Option String :=
  let signature := shareSignature indices e
  (cs.find? fun c => c.kind == kind && c.signature == signature).map (·.name)

/-- A coefficient, or the reference that replaces it. -/
def shareCoeff (indices : List String) (cs : List Candidate) (e : Expr) : Expr :=
  match sharedName? indices cs .coeff e with
  | some n => .ref n
  | none => e

/-- A factor, or the reference that replaces its call. -/
def shareFactor (indices : List String) (cs : List Candidate) : Factor → Factor
  | .call c =>
    match sharedName? indices cs .call (.call c) with
    | some n => .ref n
    | none => .call c
  | .ref n => .ref n

/-- A term with its shared parts replaced. -/
def shareTerm (indices : List String) (cs : List Candidate) (t : Term Expr) : Term Expr :=
  ⟨if t.coeff.isUnit then t.coeff else shareCoeff indices cs t.coeff, shareFactor indices cs t.factor⟩

mutual

/-- An expression with its shared places replaced. -/
def shareWith (indices : List String) (cs : List Candidate) : Expr → Expr
  | .call c =>
    match sharedName? indices cs .call (.call c) with
    | some n => .ref n
    | none => .call c
  | .term t => .term (shareTerm indices cs t)
  | .sum ts => .sum (ts.map (shareTerm indices cs))
  | .scaled inner scale division =>
    .scaled (shareWith indices cs inner) (shareCoeff indices cs scale) division
  | .average bs scale => .average (shareListWith indices cs bs) (shareCoeff indices cs scale)
  | .binop op l r => .binop op (shareWith indices cs l) (shareWith indices cs r)
  | .const c => .const c
  | .var n => .var n
  | .index t => .index t
  | .lookup t i => .lookup t i
  | .ref n => .ref n

/-- Expressions with their shared places replaced. -/
def shareListWith (indices : List String) (cs : List Candidate) : List Expr → List Expr
  | [] => []
  | e :: es => shareWith indices cs e :: shareListWith indices cs es

end

/-- An expression with its repeated parts named. -/
def share (indices : List String) (threshold : Int) (e : Expr) : Shared :=
  let cs := e.candidates indices threshold
  ⟨cs, if cs.isEmpty then e else e.shareWith indices cs⟩

/-- Whether sharing is tried: a call repeats, or there are enough calls for coefficients to. -/
def worthSharing (indices : List String) (e : Expr) : Bool :=
  let signatures := e.calls.map (Call.signature indices)
  (Arith.distinct signatures).length < signatures.length || 3 ≤ signatures.length

end Expr

end RecurrenceCompiler
