import RecurrenceCompiler.Codegen.LayerPlan
import RecurrenceCompiler.Expr.Substitution

/-!
# Code for whole layers

One call computes all slots of a layer. A rule layer first computes the layers it reads into buffers,
then fills its slots role by role; a base layer writes its base cases. Reads below slot zero give
zero.
-/

namespace RecurrenceCompiler

open Text Decimal Arith

/-- A group with its guard and the guard that excludes the cases before it. -/
structure GroupGuard where
  group : LayerGroup
  guard : Guard
  exclusive : String

/-- One value for one name. -/
def fixed (name value : String) : String → Option String :=
  fun n => if n == name then some value else none

namespace Recurrence

variable (r : Recurrence) (o : CodegenOptions) (resolve : Resolver) (plan : LayerPlan)

/-- How a read of another layer is written: at a slot that is known, or at the loop's. -/
def readCall (buffers : List Buffer) (auxAt : Option Int) : CallText := fun c =>
  let shifts := r.layerShifts plan.layerIndices c
  let signature := bufferSignature (r.foreignTarget c) plan shifts
  match buffers.find? fun b => b.signature == signature with
  | none => r.cannotGenerate .callWithoutBuffer
  | some b =>
    let shift := c.shiftAt plan.auxSlot
    .ok <| match auxAt with
      | some a =>
        if a + shift < 0 then o.dialect.zero else b.name ++ "[" ++ intText (a + shift) ++ "]"
      | none =>
        let index := shiftedIndex plan.aux shift
        if 0 ≤ shift then b.name ++ "[" ++ index ++ "]"
        else "(" ++ index ++ " >= 0 ? " ++ b.name ++ "[" ++ index ++ "] : " ++ o.dialect.zero ++ ")"

/-- The body of a rule that writes slots. -/
def layerBody (buffers : List Buffer) (auxAt : Option Int) (e : Expr) : Except Error Body :=
  Body.render o.dialect (r.readCall o plan buffers auxAt) r.indices o.optimization o.cseThreshold e

/-- The statements of a body that write a slot. -/
def writeSlot (slot : String) (b : Body) : List (Stmt String) :=
  b.statements ++ [.write slot b.result]

/-- The statements of a role, with the strategy of its body. -/
abbrev RoleCode := Strategy × List (Stmt String)

/-- The code for slot zero. -/
def zeroCode (buffers : List Buffer) (lr : LayerRule) : Except Error RoleCode := do
  let e := lr.rule.expr.substitute (fixed plan.aux "0")
  let b ← r.layerBody o plan buffers (some 0) e
  return (b.strategy, [.comment (plan.aux ++ " = 0"), .when "N_VALUES > 0" (writeSlot "0" b)])

/-- The code for the slots from a start on. -/
def generalCode (buffers : List Buffer) (start : Int) (lr : LayerRule) : Except Error RoleCode := do
  let b ← r.layerBody o plan buffers none lr.rule.expr
  return (b.strategy, [.loop plan.aux start (writeSlot plan.aux b)])

/-- The code for the one slot that an expression names. -/
def maxCode (buffers : List Buffer) (expr : String) (lr : LayerRule) : Except Error RoleCode := do
  let b ← r.layerBody o plan buffers none lr.rule.expr
  return (b.strategy,
    [.comment (plan.aux ++ " = " ++ expr),
      .block [.index plan.aux expr,
        .when (plan.aux ++ " >= 0 && " ++ plan.aux ++ " < N_VALUES") (writeSlot plan.aux b)]])

/-- The code of a group's roles, in the order in which they write: zero, general, max. -/
def roleCode (g : LayerGroup) (buffers : List Buffer) : Except Error (List RoleCode) := do
  let zero := g.find? "zero"
  let zeros ← zero.toList.mapM (r.zeroCode o plan buffers)
  let generals ← (g.find? "general").toList.mapM fun lr =>
    let start := match lr.role with
      | .general s => if zero.isSome then max 1 s else s
      | _ => 0
    r.generalCode o plan buffers start lr
  let maxes ← (g.find? "max").toList.mapM fun lr =>
    let expr := match lr.role with
      | .max e => e
      | _ => ""
    r.maxCode o plan buffers expr lr
  return zeros ++ generals ++ maxes

/-- The slots beyond the layer that reads at larger auxiliary indices need. -/
def extraSlots (g : LayerGroup) : Int :=
  maximum 0 <| g.rules.flatMap fun lr => lr.rule.expr.calls.map fun c => c.shiftAt plan.auxSlot

/-- The statements that fill the buffers of a group. -/
def fillBuffers (g : LayerGroup) (buffers : List Buffer) : List (Stmt String) :=
  let fills := buffers.map fun b => Stmt.previous
    { name := b.name
      layer := layerName (b.target.getD r.name)
      args := (plan.layerIndices.zip b.shifts).map fun (i, s) => shiftedIndex i s
      vars := r.callVars resolve b.target
      extra := extraSlots plan g }
  if fills.isEmpty then [] else fills ++ [.blank]

/-- The statements that compute a layer of a group, with the strategies of its rules. -/
def groupCode (g : LayerGroup) : Except Error (List Strategy × List (Stmt String)) := do
  let buffers ← r.buffers plan g
  let roles ← r.roleCode o plan g buffers
  return (roles.map (·.1), r.fillBuffers resolve plan g buffers ++ roles.flatMap (·.2))

/-- Base values contain no calls. -/
def noCalls : CallText := fun _ =>
  r.cannotGenerate .baseWithCall

/-- The statements that write the base cases of a layer. -/
def baseCode (l : BaseLayer) : List BaseCase → Except Error (List (Stmt String))
  | [] => .ok []
  | b :: bs => do
    let values := plan.layerIndices.zip (l.values.map Whole.text)
    let e := b.value.substitute (Json.getField? values)
    let stmts ←
      match b.slots[plan.auxSlot]?.join with
      | none => do
        let text ← renderExpr o.dialect r.noCalls e
        pure [Stmt.loop plan.aux 0 [.write plan.aux text]]
      | some a =>
        if a.toInt < l.size then do
          let text ← renderExpr o.dialect r.noCalls (e.substitute (fixed plan.aux a.text))
          pure [Stmt.write a.text text]
        else pure []
    let rest ← baseCode l bs
    return stmts ++ rest

/-- The equalities of a base layer. -/
def BaseLayer.guard (layerIndices : List String) (l : BaseLayer) : Guard :=
  ⟨(layerIndices.zip l.values).map fun (i, v) => Constraint.equals i v.toInt⟩

/-- The guards of groups, given the guards of the cases before them. -/
def groupGuardsAfter (validity : Guard) :
    List Guard → List LayerGroup → Except Error (List GroupGuard)
  | _, [] => .ok []
  | earlier, g :: gs => do
    let guard := g.guard.and validity
    let parts := (if guard.size == 0 then [] else [guard.render]) ++
      (earlier.filter fun e => !guard.provablyDisjoint e).map Guard.renderNegated
    if parts.isEmpty then r.cannotGenerate (.groupUnguarded g.firstIndex)
    let rest ← groupGuardsAfter validity (earlier ++ [g.guard]) gs
    return ⟨g, guard, " && ".intercalate parts⟩ :: rest

/-- The guards of the groups. -/
def groupGuards : Except Error (List GroupGuard) :=
  r.groupGuardsAfter (r.validity.onLayer plan.aux)
    (plan.baseLayers.map (BaseLayer.guard plan.layerIndices)) plan.groups

/-! ## JavaScript -/

/-- The family of layers. -/
def jsLayered : Except Error (List Strategy × Script.Module String) := do
  let bases ← plan.baseLayers.zipIdx.mapM fun (l, i) => do
    let body ← r.baseCode o plan l (l.bases.map (·.2))
    pure (⟨"base" ++ toString i, (BaseLayer.guard plan.layerIndices l).render, intText l.size, body⟩ :
      Script.LayerCase String)
  let guards ← r.groupGuards plan
  let groups ← guards.zipIdx.mapM fun (gg, i) => do
    let (ss, body) ← r.groupCode o resolve plan gg.group
    pure (ss, (⟨"layer" ++ toString i, gg.guard.render, plan.bound.expr, body⟩ :
      Script.LayerCase String))
  return (groups.flatMap (·.1),
    { recurrence := r.name
      name := r.name ++ "LayeredModule"
      content := .family
        { accessor := coeffName r.name
          indices := r.indices
          layerIndices := plan.layerIndices
          aux := plan.aux
          vars := r.runtimeVars
          cases := bases ++ groups.map (·.2) }
      exports := [coeffName r.name, layerName r.name, layerName r.name ++ "Size"] })

/-! ## C++ -/

/-- The runtime variables as parameters. -/
def cppParams (used : String → Bool) : String :=
  ", ".intercalate (r.runtimeVars.map fun v => r.cppParam o (used v) v)

/-- The parameters of a function that computes a layer. -/
def layerParams (outUsed : Bool) (used : String → Bool) : String :=
  commaNonempty [o.vecType ++ (if outUsed then "* out" else "* /*out*/"), r.cppParams o used]

/-- The lines of a specialisation between its head and its end. -/
def cppLayerStruct (head : List String) (size : String) (params : String) (body : List String) :
    String :=
  "\n".intercalate <|
    head ++ ["    static constexpr int N_VALUES = " ++ size ++ ";", "",
      "    static " ++ forceInline ++ " void compute(" ++ params ++ ") \x7b"] ++
      indent 2 body ++ ["    \x7d", "\x7d;"]

/-- The header with one specialisation a layer case, and the accessor. -/
def cppLayered : Except Error (List Strategy × String) := do
  let layer := layerName r.name
  let includes := r.dependencies.map fun d => unitFile d .layered "hpp"
  let tparams := ", ".intercalate (plan.layerIndices.map ("int " ++ ·))
  let layerArgs := ", ".intercalate plan.layerIndices
  let primary := cppLayerStruct
    ["template<" ++ tparams ++ ", typename Enable = void>", "struct " ++ layer ++ " \x7b"] "0"
    (r.layerParams o false fun _ => false) []
  let bases ← plan.baseLayers.mapM fun l => do
    let used := l.bases.flatMap fun b => b.2.value.usedNames
    let body ← r.baseCode o plan l (l.bases.map (·.2))
    pure <| cppLayerStruct
      ["template<>", "struct " ++ layer ++ "<" ++ ", ".intercalate (l.values.map Whole.text) ++
        ", void> \x7b"] (intText l.size)
      (r.layerParams o true used.contains) (Stmt.renderAll o.dialect body)
  let guards ← r.groupGuards plan
  let groups ← guards.mapM fun gg => do
    let (ss, body) ← r.groupCode o resolve plan gg.group
    pure (ss, cppLayerStruct
      ["template<" ++ tparams ++ ">", "struct " ++ layer ++ "<", "    " ++ layerArgs ++ ",",
        "    typename std::enable_if<" ++ gg.exclusive ++ ">::type", "> \x7b"] plan.bound.expr
      (r.layerParams o true fun _ => true) (Stmt.renderAll o.dialect body))
  let accessor := "\n".intercalate
    ["template<" ++ ", ".intercalate (r.indices.map ("int " ++ ·)) ++ ">",
      "struct " ++ coeffName r.name ++ " \x7b",
      "    static " ++ forceInline ++ " " ++ o.vecType ++ " compute(" ++
        r.cppParams o (fun _ => true) ++ ") \x7b",
      "        constexpr int SIZE = " ++ layer ++ "<" ++ layerArgs ++ ">::N_VALUES;",
      "        if (" ++ plan.aux ++ " < 0 || " ++ plan.aux ++ " >= SIZE) return " ++ o.dialect.zero ++
        ";",
      "        " ++ o.vecType ++ " out[SIZE > 0 ? SIZE : 1] = \x7b\x7d;",
      "        " ++ layer ++ "<" ++ layerArgs ++ ">::compute(" ++
        commaNonempty ["out", ", ".intercalate r.runtimeVars] ++ ");",
      "        return out[" ++ plan.aux ++ "];",
      "    \x7d",
      "\x7d;"]
  return (groups.flatMap (·.1),
    r.cppFile ([r.cppPreamble o includes, primary] ++ bases ++ groups.map (·.2) ++ [accessor]))

/-- The unit that computes layers. -/
def generateLayered : Except Error GeneratedUnit := do
  let plan ← r.planLayers o.tablePadding
  let (strategies, source) ←
    match o.target with
    | .cpp => do
      let (ss, code) ← r.cppLayered o resolve plan
      pure (ss, Source.header code)
    | .js => do
      let (ss, m) ← r.jsLayered o resolve plan
      pure (ss, Source.script m)
  return {
    recurrence := r.name
    kind := .layered
    source, strategies
    moduleName := r.name ++ "LayeredModule"
    exports := [coeffName r.name, layerName r.name, layerName r.name ++ "Size"]
    dependencies :=
      match o.target with
      | .cpp => []
      | .js => r.dependencies.flatMap fun d => [layerName d, layerName d ++ "Size"]
    diagnostics := r.diagnostics ++ plan.diagnostics
    layerBound := some plan.bound }

end Recurrence

end RecurrenceCompiler
