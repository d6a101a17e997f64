import RecurrenceCompiler.Recurrence.Basic

/-!
# Selection

At a point the first matching base case counts, in the order of declaration; else the first rule, by
priority, whose guard and validity hold; else the value is zero. Compiled code cannot try cases in
order everywhere, so `ruleGuards` also gives each rule the earlier cases that may overlap it.
-/

namespace RecurrenceCompiler

open Arith Decimal

/-- The case that counts at a point. -/
inductive Selection where
  | base (index : Nat) (base : BaseCase)
  | rule (rule : Rule)
  | primary

/-- A rule with its full guard and the earlier cases that it must exclude. -/
structure RuleGuard where
  rule : Rule
  /-- The rule's constraints and the validity. -/
  guard : Guard
  exclusions : List Guard

/-- The guard that excludes every match of the earlier cases. It is empty for a rule that holds
everywhere. -/
def RuleGuard.exclusive (g : RuleGuard) : String :=
  " && ".intercalate ((if g.guard.constraints.isEmpty then [] else [g.guard.render]) ++
    g.exclusions.map Guard.renderNegated)

/-- What stands in code for an index or a slot that is not there. -/
def missingText : String := "undefined"

/-- Equalities for a list of slots, those of the indices from a slot on. -/
def slotEqualities : List String → List (Option Whole) → List Constraint
  | index :: indices, some v :: slots => Constraint.equals index v.toInt :: slotEqualities indices slots
  | _ :: indices, none :: slots => slotEqualities indices slots
  | [], some v :: slots => Constraint.equals missingText v.toInt :: slotEqualities [] slots
  | [], none :: slots => slotEqualities [] slots
  | _, [] => []

namespace Recurrence

/-- The equalities of a base case. -/
def baseGuard (r : Recurrence) (b : BaseCase) : Guard :=
  ⟨slotEqualities r.indices b.slots⟩

/-- Whether a base case matches. A value that it binds beyond the last index cannot be compared. -/
def matchesBase [Carrier α] (r : Recurrence) (env : Env α) (b : BaseCase) : Except Error Bool := do
  let h ← (Guard.mk (slotEqualities r.indices (b.slots.take r.indices.length))).holds env
  if h && (b.slots.drop r.indices.length).any Option.isSome then
    throw (.fault (.readOfUndefined "length"))
  return h

/-- A rule's guard together with the validity. -/
def fullGuard (r : Recurrence) (rule : Rule) : Guard :=
  rule.guard.and r.validity

/-- The guards of rules, given the guards of the cases before them. -/
def guardsAfter (r : Recurrence) : List Guard → List Rule → List RuleGuard
  | _, [] => []
  | earlier, rule :: rules =>
    let guard := r.fullGuard rule
    ⟨rule, guard, earlier.filter fun e => !guard.provablyDisjoint e⟩ ::
      r.guardsAfter (earlier ++ [rule.guard]) rules

/-- The guards of the rules, by priority. -/
def ruleGuards (r : Recurrence) : List RuleGuard :=
  r.guardsAfter (r.bases.map r.baseGuard) r.sortedRules

/-- The first base case that matches, counted from `i`. -/
def selectBase [Carrier α] (r : Recurrence) (env : Env α) :
    Nat → List BaseCase → Except Error (Option (Nat × BaseCase))
  | _, [] => .ok none
  | i, b :: bs => do
    if ← r.matchesBase env b then return some (i, b) else r.selectBase env (i + 1) bs

/-- The first rule whose full guard holds. -/
def selectRule [Carrier α] (r : Recurrence) (env : Env α) : List Rule → Except Error (Option Rule)
  | [] => .ok none
  | rule :: rules => do
    let h ← (r.fullGuard rule).holds env
    if h then return some rule else r.selectRule env rules

/-- The case that counts at a point. -/
def select [Carrier α] (r : Recurrence) (env : Env α) : Except Error Selection := do
  match ← r.selectBase env 0 r.bases with
  | some (i, b) => return .base i b
  | none =>
    match ← r.selectRule env r.sortedRules with
    | some rule => return .rule rule
    | none => return .primary

end Recurrence

end RecurrenceCompiler
