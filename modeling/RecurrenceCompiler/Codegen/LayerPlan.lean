import RecurrenceCompiler.Codegen.Unit

/-!
# Planning layers

One index, the auxiliary one, ranges inside a layer; the others select the layer. The plan of a
recurrence finds the number of slots of a layer, gathers the base cases of each layer, and groups the
rules by their constraints on the layer indices. Inside a group each rule has a role: it fills slot
zero, the slots from some start on, or the single slot that an expression names.

The first group whose guard holds is used for a whole layer. That agrees with the selection of single
values only if overlapping groups do not interleave in priority and the earlier one serves every
slot, which the plan checks.
-/

namespace RecurrenceCompiler

open Text Decimal Arith

/-- The slots that a rule fills. -/
inductive Role where
  | zero
  | max (expr : String)
  | general (start : Int)
deriving DecidableEq

/-- The name of a role. -/
def Role.text : Role → String
  | zero => "zero"
  | max _ => "max"
  | general _ => "general"

/-- A rule with its role. -/
structure LayerRule where
  rule : Rule
  role : Role

/-- Rules with the same constraints on the layer indices. -/
structure LayerGroup where
  guard : Guard
  rules : List LayerRule
  /-- The index of its first rule. -/
  firstIndex : Nat

/-- The base cases of one layer, each with its place among the base cases. -/
structure BaseLayer where
  /-- The values of the layer indices. -/
  values : List Whole
  bases : List (Nat × BaseCase)
  /-- The number of slots. -/
  size : Int

/-- A buffer that holds another layer. -/
structure Buffer where
  signature : String
  name : String
  target : Option String
  /-- The shifts of the layer indices. -/
  shifts : List Int

/-- The plan of a recurrence's layers. -/
structure LayerPlan where
  aux : String
  auxSlot : Nat
  layerIndices : List String
  bound : LayerBound
  baseLayers : List BaseLayer
  groups : List LayerGroup
  diagnostics : List Diagnostic

/-- A constraint on the auxiliary index as a comparison with a text that does not mention it. -/
def Constraint.onAux? (c : Constraint) (aux : String) : Option (Comparison × String) :=
  if c.left == aux && !Arith.mentions c.right aux then some (c.op, c.right)
  else if c.right == aux && !Arith.mentions c.left aux then some (c.op.flip, c.left)
  else none

/-- The constraints of a guard that do not mention the auxiliary index. -/
def Guard.onLayer (g : Guard) (aux : String) : Guard :=
  g.filter fun c => !c.mentions aux

namespace LayerGroup

/-- The rule with a role. -/
def find? (g : LayerGroup) (role : String) : Option LayerRule :=
  g.rules.find? fun lr => lr.role.text == role

/-- Whether every slot has a rule. -/
def coversAux (g : LayerGroup) : Bool :=
  match g.find? "general" with
  | some ⟨_, .general start⟩ => start == 0 || ((g.find? "zero").isSome && start ≤ 1)
  | _ => false

end LayerGroup

namespace Recurrence

variable (r : Recurrence)

/-- The bound that the validity puts on the auxiliary index, from the first constraint that does. -/
def validityBound? (aux : String) : List Constraint → Option String
  | [] => none
  | c :: cs =>
    match c.onAux? aux with
    | some (.le, rhs) => some ("(" ++ rhs ++ ") + 1")
    | some (.lt, rhs) => some ("(" ++ rhs ++ ")")
    | _ => validityBound? aux cs

/-- Whether a base case reads a table at the auxiliary index. -/
def isTabulated (aux : String) : Bool :=
  r.bases.any fun b =>
    match b.value with
    | .lookup table index => r.arrayVars.contains table && trimmed index == aux
    | _ => false

/-- The shifts of a call in the layer indices. -/
def layerShifts (layerIndices : List String) (c : Call) : List Int :=
  layerIndices.map fun i => c.shiftAt (r.indices.idxOf i)

/-- How many more slots a layer needs for each step down, over calls of the rules. -/
def growthOver (aux : String) (layerIndices : List String) :
    Amount → List (Nat × Call) → Except Error Amount
  | growth, [] => .ok growth
  | growth, (rule, c) :: rest =>
    let up := c.shiftAt (r.indices.idxOf aux)
    if !r.isSelf c || up ≤ 0 then growthOver aux layerIndices growth rest
    else
      let drop := (Amount.sum ((r.layerShifts layerIndices c).map .ofInt)).negate
      if drop.isNonpositive then r.cannotGenerate (.auxWithoutDescent rule aux up)
      else growthOver aux layerIndices (growth.max (Amount.ceilQuotient (.ofInt up) drop)) rest

/-- How many more slots a layer needs for each step down, so that every call lands inside the layer
it reads. -/
def auxGrowth (aux : String) (layerIndices : List String) : Except Error Amount :=
  r.growthOver aux layerIndices (.whole 0) <|
    r.rules.flatMap fun rule => rule.expr.calls.map fun c => (rule.index, c)

/-- The number of slots of a layer: from the validity, from a table, or one. -/
def layerBound (aux : String) (layerIndices : List String) (padding : Amount) :
    Except Error LayerBound :=
  match validityBound? aux r.validity.constraints with
  | some expr => .ok ⟨expr, .validity⟩
  | none =>
    if r.isTabulated aux then do
      let growth ← r.auxGrowth aux layerIndices
      let depth := Amount.sum (layerIndices.map r.maxAmount)
      let top := (((r.maxAmount aux).add (.whole 1)).add padding).text
      return ⟨if growth.isZero then top
        else "(" ++ depth.text ++ " - (" ++ " + ".intercalate layerIndices ++ ")) * " ++
          growth.text ++ " + " ++ top, .tabulated⟩
    else .ok ⟨"1", .default⟩

/-- The role that one comparison of the auxiliary index gives, if it gives one. -/
def roleOf (rule : Nat) (aux : String) (op : Comparison) (rhs : String) :
    Except Error (Option Role) :=
  let integer? := if isInteger rhs.toList then some (readInteger rhs.toList) else none
  match op, integer? with
  | .le, _ => .ok none
  | .eq, some 0 => .ok (some .zero)
  | .eq, _ => .ok (some (.max rhs))
  | .gt, some n => .ok (some (.general (max 0 (onDoubleGrid (n + 1)))))
  | .ge, some n => .ok (some (.general (max 0 n)))
  | op, _ => r.cannotGenerate (.auxConstrained rule aux (op.text ++ " " ++ rhs))

/-- The role that constraints give, over the role found so far. -/
def rolesOver (rule : Nat) (aux : String) : Option Role → List Constraint → Except Error Role
  | role, [] => .ok (role.getD (.general 0))
  | role, c :: cs =>
    if !c.mentions aux then rolesOver rule aux role cs
    else
      match c.onAux? aux with
      | none => r.cannotGenerate (.auxMixed rule aux (c.left ++ " " ++ c.op.text ++ " " ++ c.right))
      | some (op, rhs) => do
        match ← r.roleOf rule aux op rhs with
        | none => rolesOver rule aux role cs
        | some next =>
          if role.isSome then r.cannotGenerate (.auxConstrainedTwice rule aux)
          else rolesOver rule aux (some next) cs

/-- The role of a rule. -/
def auxRole (rule : Rule) (aux : String) : Except Error Role :=
  r.rolesOver rule.index aux none rule.guard.constraints

/-- The layer of a base case. Every layer index must be bound. -/
def layerOf (b : BaseCase) : List String → Except Error (List Whole)
  | [] => .ok []
  | i :: is =>
    match b.slots[r.indices.idxOf i]?.join with
    | none => r.cannotGenerate (.layerIndexFree i)
    | some v => do
      let vs ← layerOf b is
      return v :: vs

/-- Put a base case into its layer. -/
def addToLayer (values : List Whole) (b : Nat × BaseCase) : List BaseLayer → List BaseLayer
  | [] => [⟨values, [b], 0⟩]
  | l :: ls =>
    if l.values.map Whole.toInt == values.map Whole.toInt then { l with bases := l.bases ++ [b] } :: ls
    else l :: addToLayer values b ls

/-- The layers of the base cases, without their sizes. -/
def gatherLayers (layerIndices : List String) :
    List BaseLayer → List (Nat × BaseCase) → Except Error (List BaseLayer)
  | layers, [] => .ok layers
  | layers, (i, b) :: rest => do
    let values ← r.layerOf b layerIndices
    gatherLayers layerIndices (addToLayer values (i, b) layers) rest

/-- The values of the layer indices as an environment. -/
def layerEnv [Carrier α] (layerIndices : List String) (values : List Whole) : Env α :=
  fun n => (Json.getField? (layerIndices.zip values) n).map fun w => Carrier.ofFloat w.toFloat

/-- The largest number of a list that starts with a given one. -/
def maximum (first : Int) (rest : List Int) : Int :=
  rest.foldl max first

/-- The number of slots of a base layer. -/
def baseLayerSize (α : Type) [Carrier α] (bound : LayerBound) (auxSlot : Nat)
    (layerIndices : List String) (l : BaseLayer) : Except Error Int :=
  match bound.source with
  | .default =>
    match l.bases.map fun b => ((b.2.slots[auxSlot]?.join).getD 0).toInt with
    | [] => .ok 1
    | v :: vs => .ok (onDoubleGrid (maximum v vs + 1))
  | _ =>
    match evalIndex (layerEnv layerIndices l.values : Env α) bound.expr with
    | .ok v => .ok (((Carrier.toNat? v).getD 0 : Nat) : Int)
    | .error e =>
      r.cannotGenerate (.layerUnsized (", ".intercalate (l.values.map Whole.text)) e.message)

/-- The group with a key. -/
def addToGroup (guard : Guard) (lr : LayerRule) : List LayerGroup → List LayerGroup
  | [] => [⟨guard, [lr], lr.rule.index⟩]
  | g :: gs =>
    if g.guard.key == guard.key then { g with rules := g.rules ++ [lr] } :: gs
    else g :: addToGroup guard lr gs

/-- The groups of rules, in the order of first appearance. No two rules of a group share a role. -/
def gatherGroups (aux : String) : List LayerGroup → List Rule → Except Error (List LayerGroup)
  | groups, [] => .ok groups
  | groups, rule :: rules => do
    let guard := rule.guard.onLayer aux
    let role ← r.auxRole rule aux
    let members := ((groups.find? fun g => g.guard.key == guard.key).map (·.rules)).getD []
    match members.find? fun lr => lr.role.text == role.text with
    | some clash => r.cannotGenerate (.rolesClash clash.rule.index rule.index role.text)
    | none => gatherGroups aux (addToGroup guard ⟨rule, role⟩ groups) rules

/-- The groups in the order of their priority. -/
def sortGroups (groups : List LayerGroup) : List LayerGroup :=
  sortBy (fun a b => priorityLe a.guard a.firstIndex b.guard b.firstIndex) groups

/-- The places of a group's rules in the order of priority. -/
def ranks (g : LayerGroup) : List Int :=
  g.rules.map fun lr => (r.sortedRules.findIdx fun rule => rule.index == lr.rule.index : Nat)

/-- Whether every rule of the first group comes before every rule of the second. -/
def outranks (earlier later : LayerGroup) : Bool :=
  (r.ranks later).all fun l => (r.ranks earlier).all fun e => e ≤ l

/-- A group against those after it. -/
def checkAgainst (earlier : LayerGroup) : List LayerGroup → Except Error Unit
  | [] => .ok ()
  | later :: rest =>
    if earlier.guard.provablyDisjoint later.guard then checkAgainst earlier rest
    else if !r.outranks earlier later then
      r.cannotGenerate (.groupsInterleave earlier.firstIndex later.firstIndex)
    else if !earlier.coversAux then
      r.cannotGenerate
        (.groupUncovering earlier.firstIndex later.firstIndex (r.auxIndex.getD "aux"))
    else checkAgainst earlier rest

/-- Overlapping groups must agree with the priority of their rules. -/
def checkGroups : List LayerGroup → Except Error Unit
  | [] => .ok ()
  | g :: gs => do
    r.checkAgainst g gs
    checkGroups gs

/-- The plan of the layers, base layers sized by arithmetic over a number system. -/
def planLayersIn (α : Type) [Carrier α] (padding : Amount) : Except Error LayerPlan :=
  match r.auxIndex with
  | none => r.cannotGenerate .noAuxiliary
  | some aux => do
    let auxSlot ← r.slotOf aux
    let layerIndices := r.indices.filter (· != aux)
    if layerIndices.isEmpty then r.cannotGenerate (.onlyAuxiliary aux)
    let bound ← r.layerBound aux layerIndices padding
    let diagnostics :=
      if bound.source == .default then
        [Diagnostic.make .defaultedBound (some [("name", .text r.name), ("aux", .text aux)])
          (some [("recurrence", .text r.name), ("aux", .text aux)])]
      else []
    let unsized ← r.gatherLayers layerIndices [] (r.bases.zipIdx.map fun (b, i) => (i, b))
    let baseLayers ← unsized.mapM fun l => do
      let size ← r.baseLayerSize α bound auxSlot layerIndices l
      pure { l with size }
    let groups ← r.gatherGroups aux [] r.sortedRules
    let groups := sortGroups groups
    r.checkGroups groups
    return { aux, auxSlot, layerIndices, bound, baseLayers, groups, diagnostics }

/-- The plan of the layers. -/
def planLayers (padding : Amount) : Except Error LayerPlan :=
  r.planLayersIn Float padding

/-- The signature of a layer: its target and its shifted indices. -/
def bufferSignature (target : Option String) (plan : LayerPlan) (shifts : List Int) : String :=
  target.getD "" ++ "[" ++
    ", ".intercalate ((plan.layerIndices.zip shifts).map fun (i, s) => shiftedIndex i s) ++ "]"

/-- The target of a call outside the recurrence. -/
def foreignTarget (c : Call) : Option String :=
  if r.isSelf c then none else c.target

/-- The layers that calls read, by signature. No call may read the layer being computed. -/
def readLayers (plan : LayerPlan) :
    List (Nat × Call) → Except Error (List (String × Option String × List Int))
  | [] => .ok []
  | (rule, c) :: rest => do
    let shifts := r.layerShifts plan.layerIndices c
    if r.isSelf c && shifts.all (· == 0) then r.cannotGenerate (.readsOwnLayer rule)
    let target := r.foreignTarget c
    let others ← readLayers plan rest
    return (bufferSignature target plan shifts, target, shifts) :: others

/-- The buffers of a group, one a layer that it reads, named in the order of their signatures. -/
def buffers (plan : LayerPlan) (g : LayerGroup) : Except Error (List Buffer) := do
  let found ← r.readLayers plan <|
    g.rules.flatMap fun lr => lr.rule.expr.calls.map fun c => (lr.rule.index, c)
  let signatures := sortByUnits (distinct (found.map (·.1)))
  return signatures.zipIdx.filterMap fun (sig, i) =>
    (Json.getField? found sig).map fun (target, shifts) =>
      ⟨sig, if signatures.length == 1 then "prev" else "prev_" ++ toString i, target, shifts⟩

end Recurrence

end RecurrenceCompiler
