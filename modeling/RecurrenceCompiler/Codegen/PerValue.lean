import RecurrenceCompiler.Codegen.Unit

/-!
# Code for single values

Each case of a recurrence becomes a template specialisation or a function that computes one value by
calling itself at shifted indices. C++ picks the specialisation whose condition holds, so the
conditions of the rules exclude the cases before them; JavaScript tries the cases in order.
-/

namespace RecurrenceCompiler

open Decimal

namespace Recurrence

variable (r : Recurrence) (o : CodegenOptions) (resolve : Resolver)

/-- How a call is written. -/
def perValueCall : CallText := fun c =>
  let name := coeffName (c.target.getD r.name)
  let vars := r.callVars resolve c.target
  .ok <| match o.target with
    | .cpp =>
      name ++ "<" ++ ", ".intercalate (r.callArgs c) ++ ">::compute(" ++ ", ".intercalate vars ++ ")"
    | .js => name ++ "(" ++ ", ".intercalate (", ".intercalate (r.callArgs c) :: vars) ++ ")"

/-- A rule without any condition would recurse forever. -/
def requireGuard (g : RuleGuard) : Except Error String :=
  if g.exclusive.isEmpty then r.cannotGenerate (.ruleUnguarded g.rule.index) else .ok g.exclusive

/-- The body of a rule. -/
def ruleBody (g : RuleGuard) : Except Error Body :=
  Body.render o.dialect (r.perValueCall o resolve) r.indices o.optimization o.cseThreshold g.rule.expr

/-- The comment with a rule's name. -/
def nameComment (name : Option String) : List (Stmt ε) :=
  match name with
  | some n => if n.isEmpty then [] else [.comment n]
  | none => []

/-- The statements of a rule. -/
def ruleStatements (g : RuleGuard) (b : Body) : List (Stmt String) :=
  nameComment g.rule.name ++ b.statements ++ [.ret b.result]

/-! ## C++ -/

/-- The arguments of a base case's specialisation. -/
def baseArgs (b : BaseCase) : List String :=
  r.indices.zipIdx.map fun (index, i) =>
    match b.slots[i]? with
    | some slot => (slot.map Whole.text).getD index
    | none => missingText

/-- The indices that a base case leaves free. -/
def freeIndices (b : BaseCase) : List String :=
  ((r.indices.zip b.slots).filter fun p => p.2.isNone).map (·.1)

/-- The specialisation of a base case. -/
def cppBase (b : BaseCase) : Except Error String := do
  let value ← renderExpr o.dialect (r.perValueCall o resolve) b.value
  let used := b.value.usedNames
  let params := r.runtimeVars.map fun v => r.cppParam o (used.contains v) v
  return "\n".intercalate
    ["template<" ++ ", ".intercalate ((r.freeIndices b).map ("int " ++ ·)) ++ ">",
      "struct " ++ coeffName r.name ++ "<" ++ ", ".intercalate (r.baseArgs b) ++ ", void> \x7b",
      "    static " ++ forceInline ++ " " ++ o.vecType ++ " compute(" ++ ", ".intercalate params ++
        ") \x7b",
      "        return " ++ value ++ ";",
      "    \x7d",
      "\x7d;"]

/-- The template parameters over the indices. -/
def templateParams (indices : List String) : String :=
  ", ".intercalate (indices.map ("int " ++ ·))

/-- The specialisation of a rule. -/
def cppRule (g : RuleGuard) : Except Error (Strategy × String) := do
  let guard ← r.requireGuard g
  let body ← r.ruleBody o resolve g
  let params := r.runtimeVars.map (r.cppParam o true)
  return (body.strategy, "\n".intercalate <|
    ["template<" ++ templateParams r.indices ++ ">",
      "struct " ++ coeffName r.name ++ "<",
      "    " ++ ", ".intercalate r.indices ++ ",",
      "    typename std::enable_if<" ++ guard ++ ">::type",
      "> \x7b",
      "    static " ++ forceInline ++ " " ++ o.vecType ++ " compute(" ++ ", ".intercalate params ++
        ") \x7b"] ++
      indent 2 (Stmt.renderAll o.dialect (ruleStatements g body)) ++
      ["    \x7d", "\x7d;"])

/-- The header with one specialisation a case. -/
def cppPerValue : Except Error (List Strategy × String) := do
  let includes := r.dependencies.map fun d => unitFile d .perValue "hpp"
  let unused := r.runtimeVars.map (r.cppParam o false)
  let primary := "\n".intercalate
    ["template<" ++ templateParams r.indices ++ ", typename Enable = void>",
      "struct " ++ coeffName r.name ++ " \x7b",
      "    static " ++ forceInline ++ " " ++ o.vecType ++ " compute(" ++ ", ".intercalate unused ++
        ") \x7b",
      "        return " ++ o.dialect.zero ++ ";",
      "    \x7d",
      "\x7d;"]
  let bases ← r.bases.mapM (r.cppBase o resolve)
  let rules ← r.ruleGuards.mapM (r.cppRule o resolve)
  return (rules.map (·.1),
    r.cppFile ([r.cppPreamble o includes, primary] ++ bases ++ rules.map (·.2)))

/-! ## JavaScript -/

/-- The parameters of every function. -/
def params : List String :=
  r.indices ++ r.runtimeVars

/-- A call of one of the functions with the parameters passed on. -/
def passOn (name : String) : String :=
  name ++ "(" ++ ", ".intercalate r.params ++ ")"

/-- The function of a base case, and the condition under which it is called. -/
def jsBase (b : BaseCase) (i : Nat) : Except Error (Script.Function String × Stmt String) := do
  let value ← renderExpr o.dialect (r.perValueCall o resolve) b.value
  let name := coeffName r.name ++ "$base" ++ toString i
  return (⟨name, r.params, [.ret value]⟩, .retIf (r.baseGuard b).render (r.passOn name))

/-- The function of a rule, and the condition under which it is called. -/
def jsRule (g : RuleGuard) (i : Nat) :
    Except Error (Strategy × Script.Function String × Stmt String) := do
  let _ ← r.requireGuard g
  let body ← r.ruleBody o resolve g
  let name := coeffName r.name ++ "$rule" ++ toString i
  return (body.strategy, ⟨name, r.params, ruleStatements g body⟩,
    .retIf g.guard.render (r.passOn name))

/-- The module with one function a case. -/
def jsPerValue : Except Error (List Strategy × Script.Module String) := do
  let name := coeffName r.name
  let primary : Script.Function String := ⟨name ++ "$primary", r.params, [.ret o.dialect.zero]⟩
  let bases ← r.bases.zipIdx.mapM fun (b, i) => r.jsBase o resolve b i
  let rules ← r.ruleGuards.zipIdx.mapM fun (g, i) => r.jsRule o resolve g i
  let select : Script.Function String := ⟨name, r.params,
    bases.map (·.2) ++ rules.map (·.2.2) ++ [.ret (r.passOn (name ++ "$primary"))]⟩
  return (rules.map (·.1),
    { recurrence := r.name
      name := r.name ++ "Module"
      content := .functions ([primary] ++ bases.map (·.1) ++ rules.map (·.2.1) ++ [select])
      exports := [name] })

/-- The unit that computes single values. -/
def generatePerValue : Except Error GeneratedUnit := do
  let (strategies, source) ←
    match o.target with
    | .cpp => do
      let (ss, code) ← r.cppPerValue o resolve
      pure (ss, Source.header code)
    | .js => do
      let (ss, m) ← r.jsPerValue o resolve
      pure (ss, Source.script m)
  return {
    recurrence := r.name
    kind := .perValue
    source, strategies
    moduleName := r.name ++ "Module"
    exports := [coeffName r.name]
    dependencies := r.dependencies.map coeffName
    diagnostics := r.diagnostics }

end Recurrence

end RecurrenceCompiler
