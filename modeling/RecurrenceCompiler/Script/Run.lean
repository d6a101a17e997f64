import RecurrenceCompiler.Script.Eval
import RecurrenceCompiler.Script.Host
import RecurrenceCompiler.Script.Program

/-!
# Running programs

A function runs on a stack of bindings. A block adds the names that it declares, without values until
their declarations have run, and takes them away at its end. A function that writes to a table among
its arguments changes the caller's table, so a call gives back its arguments as the function left
them. Calls may nest up to a depth and a loop may run up to a number of passes; beyond them a run
fails.
-/

namespace RecurrenceCompiler

open Script

namespace Script

/-! ## Scopes -/

/-- A name in scope, with its value once its declaration has run. -/
structure Binding (α : Type) where
  name : String
  value : Option (Value α)

/-- The names of a running function, the innermost first. -/
abbrev Locals (α : Type) := List (Binding α)

namespace Locals

/-- The innermost binding of a name. -/
def find? (s : Locals α) (name : String) : Option (Binding α) :=
  List.find? (fun b => b.name == name) s

/-- The value of a name, which a function finds outside if it does not have the name itself. -/
def read (outside : Expression.Names α) (s : Locals α) (name : String) : Except Error (Value α) :=
  match s.find? name with
  | some ⟨_, some v⟩ => .ok v
  | some ⟨_, none⟩ => .error (.fault (.uninitialised name))
  | none => outside name

/-- The innermost binding of a name with a new value. -/
def assign (name : String) (v : Value α) : Locals α → Locals α
  | [] => []
  | b :: s => if b.name == name then ⟨name, some v⟩ :: s else b :: assign name v s

/-- A scope with names that are declared but have no values yet. -/
def enter (s : Locals α) (names : List String) : Locals α :=
  names.map (fun n => ⟨n, none⟩) ++ s

/-- What is left of an inner scope. -/
def leave (outer inner : Locals α) : Locals α :=
  inner.drop (inner.length - outer.length)

/-- Parameters with their arguments. A missing argument is undefined. -/
def ofParams : List String → List (Value α) → Locals α
  | [], _ => []
  | p :: ps, [] => ⟨p, some .undefined⟩ :: ofParams ps []
  | p :: ps, v :: vs => ⟨p, some v⟩ :: ofParams ps vs

/-- Arguments as a function left them: those that have no parameter are unchanged. -/
def arguments : Locals α → List (Value α) → List (Value α)
  | _, [] => []
  | [], vs => vs
  | b :: s, v :: vs => b.value.getD v :: arguments s vs

/-- The names that were passed as arguments, with the values that a function left them. -/
def takeBack (s : Locals α) : List Expression → List (Value α) → Locals α
  | .name n :: es, v :: vs => takeBack (s.assign n v) es vs
  | _ :: es, _ :: vs => takeBack s es vs
  | _, _ => s

end Locals

/-! ## Statements -/

/-- What a function gives back: its value, and its arguments as it left them. -/
structure Returned (α : Type) where
  value : Value α
  args : List (Value α)

/-- What surrounds a running function. -/
structure World (α : Type) where
  /-- The values of names that are not the function's own. -/
  names : Expression.Names α
  call : Callable → List (Value α) → Except Error (Returned α)

/-- How deep calls may nest and how many passes a loop may run. -/
structure Limits where
  depth : Nat
  passes : Nat

/-- The names after a statement and, if it returned, the value. -/
abbrev Outcome (α : Type) := Locals α × Option (Value α)

section

variable {α : Type} [Carrier α]

namespace World

variable (w : World α)

/-- A function called for its value. -/
def value (f : Callable) (args : List (Value α)) : Except Error (Value α) := do
  let r ← w.call f args
  return r.value

/-- The value of an expression in a function. -/
def eval (s : Locals α) (e : Expression) : Except Error (Value α) :=
  e.eval (s.read w.names) w.value

/-- Whether a condition holds in a function. -/
def test (s : Locals α) (e : Expression) : Except Error Bool := do
  let v ← w.eval s e
  return v.holds

/-- An expression evaluated for its effect: a call may change the tables that it is given. -/
def run (s : Locals α) : Expression → Except Error (Locals α)
  | .call f args => do
    let callee ← w.eval s f
    let vs ← Expression.evalAll (s.read w.names) w.value args
    let c ← callee.callable f
    let r ← w.call c vs
    return s.takeBack args r.args
  | e => do
    let _ ← w.eval s e
    return s

end World

/-- The buffer for another layer: as long as the larger of the two layers, and some more. -/
def PreviousLayer.buffer (p : PreviousLayer Expression) : Expression :=
  .zeros (.name "Array") <| .binary .add
    (.call (.member (.name "Math") "max")
      [.call (.name (p.layer ++ "Size")) p.args, .name "N_VALUES"])
    (.num (Decimal.ofInt p.extra))

/-- The call that fills a buffer with another layer. -/
def PreviousLayer.fill (p : PreviousLayer Expression) : Expression :=
  .call (.name p.layer) (p.args ++ [.name p.name] ++ p.vars.map .name)

/-- Repeat a step, and what follows each pass, while a condition holds. -/
def iterate (test : Locals α → Except Error Bool) (step : Locals α → Except Error (Outcome α))
    (next : Locals α → Except Error (Locals α)) : Nat → Locals α → Except Error (Outcome α)
  | 0, _ => .error (.fault .tooDeep)
  | passes + 1, s => do
    if ← test s then
      let (s, r) ← step s
      match r with
      | some v => return (s, some v)
      | none =>
        let s ← next s
        iterate test step next passes s
    else return (s, none)

mutual

/-- Run a statement. -/
def runStmt (limits : Limits) (w : World α) (s : Locals α) :
    Stmt Expression → Except Error (Outcome α)
  | .comment _ | .blank => .ok (s, none)
  | .run e => do
    let s ← w.run s e
    return (s, none)
  | .value n e | .index n e => do
    let v ← w.eval s e
    return (s.assign n v, none)
  | .ret e => do
    let v ← w.eval s e
    return (s, some v)
  | .retIf c e => do
    if ← w.test s c then
      let v ← w.eval s e
      return (s, some v)
    else return (s, none)
  | .write slot e => do
    let table ← w.eval s (.name "out")
    let k ← w.eval s slot
    let v ← w.eval s e
    let table ← table.write k v
    return (s.assign "out" table, none)
  | .previous p => do
    let buffer ← w.eval s (PreviousLayer.buffer p)
    let s ← w.run (s.assign p.name buffer) (PreviousLayer.fill p)
    return (s, none)
  | .when c body => do
    if ← w.test s c then
      let (inner, r) ← runStmts limits w (s.enter (declared body)) body
      return (s.leave inner, r)
    else return (s, none)
  | .loop n start body => do
    let (inner, r) ← iterate (fun t => w.test t (.binary .lt (.name n) (.name "N_VALUES")))
      (fun t => do
        let (inner, r) ← runStmts limits w (t.enter (declared body)) body
        return (t.leave inner, r))
      (fun t => do
        let i ← w.eval t (.name n)
        return t.assign n (.num (Carrier.add i.toNumber (Carrier.ofInt 1))))
      limits.passes (⟨n, some (.num (Carrier.ofInt start))⟩ :: s)
    return (s.leave inner, r)
  | .block body => do
    let (inner, r) ← runStmts limits w (s.enter (declared body)) body
    return (s.leave inner, r)

/-- Run statements until one returns. -/
def runStmts (limits : Limits) (w : World α) (s : Locals α) :
    List (Stmt Expression) → Except Error (Outcome α)
  | [] => .ok (s, none)
  | stmt :: rest => do
    let (s, r) ← runStmt limits w s stmt
    match r with
    | some v => return (s, some v)
    | none => runStmts limits w s rest

end

/-! ## Functions -/

/-- Run a function. -/
def Function.run (limits : Limits) (w : World α) (f : Function Expression) (args : List (Value α)) :
    Except Error (Returned α) := do
  let params := Locals.ofParams f.params args
  let (inner, r) ← runStmts limits w (params.enter (declared f.body)) f.body
  return ⟨r.getD .undefined, (params.leave inner).arguments args⟩

namespace Family

variable (f : Family Expression) (limits : Limits) (w : World α)

/-- The first case whose guard holds. -/
def selectCase (s : Locals α) :
    List (LayerCase Expression) → Except Error (Option (LayerCase Expression))
  | [] => .ok none
  | c :: cs => do
    if ← w.test s c.guard then return some c else selectCase s cs

/-- The number of slots of a layer. -/
def sizeOf (args : List (Value α)) : Except Error (Returned α) := do
  let s := Locals.ofParams f.layerIndices args
  match ← selectCase w s f.cases with
  | none => return ⟨.num Carrier.zero, args⟩
  | some c =>
    let size ← w.eval s c.size
    return ⟨size, args⟩

/-- Fill a buffer with a layer. -/
def fill (args : List (Value α)) : Except Error (Returned α) := do
  let layer := Locals.ofParams f.layerIndices args
  match ← selectCase w layer f.cases with
  | none => return ⟨.undefined, args⟩
  | some c =>
    if c.body.isEmpty then return ⟨.undefined, args⟩
    else
      let size ← w.eval layer c.size
      let params := Locals.ofParams f.fillParams args
      let (inner, _) ← runStmts limits w
        ((params.enter c.declared).assign "N_VALUES" size) c.body
      return ⟨.undefined, (params.leave inner).arguments args⟩

/-- The accessor: a slot outside the layer is zero, and any other is read from a buffer of its
own. -/
def accessorFunction (f : Family Expression) : Function Expression where
  name := f.accessor
  params := f.indices ++ f.vars
  body :=
    let layer := f.layerIndices.map .name
    [.value "size" (.call (.name f.sizeName) layer),
      .retIf (.either (.binary .lt (.name f.aux) (.num 0.0))
        (.binary .ge (.name f.aux) (.name "size"))) (.num 0.0),
      .value "out" (.zeros (.name "Array") (.name "size")),
      .run (.call (.name f.layer) (layer ++ [.name "out"] ++ f.vars.map .name)),
      .ret (.element (.name "out") (.name f.aux))]

end Family

/-- Run a function of a module. -/
def Content.run (limits : Limits) (w : World α) (c : Content Expression) (name : String)
    (args : List (Value α)) : Except Error (Returned α) :=
  match c with
  | .functions fs =>
    match fs.find? fun f => f.name == name with
    | some f => f.run limits w args
    | none => .error (.fault (.unknownName name))
  | .family f =>
    if name == f.accessor then f.accessorFunction.run limits w args
    else if name == f.sizeName then f.sizeOf w args
    else f.fill limits w args

end

end Script

/-! ## Programs -/

namespace Program

section

variable {α : Type} [Carrier α]

/-- The value of a name in a unit, outside its functions: what the unit defines comes before what it
imports, and that before the names of the host. -/
def nameIn (p : Program) (unit : Nat) (name : String) : Except Error (Value α) :=
  match p.units[unit]? with
  | none => .error (.fault (.unknownName name))
  | some u =>
    if u.content.defines name then .ok (.function (.inUnit unit name))
    else
      match MathFn.ofName? name, Json.getField? u.imports name with
      | some f, _ => .ok (.function (.math f))
      | none, some i => .ok (.function (.inUnit i name))
      | none, none =>
        if name == u.name then .ok (.record Value.plainRecord)
        else
          match Host.value? name with
          | some v => .ok v
          | none => .error (.fault (.unknownName name))

/-- Call a function. The fuel bounds how deep calls may nest further. -/
def invoke (p : Program) (limits : Limits) :
    Nat → Callable → List (Value α) → Except Error (Returned α)
  | 0, _, _ => .error (.fault .tooDeep)
  | fuel + 1, .inUnit unit name, args =>
    match p.units[unit]? with
    | some u => u.content.run limits ⟨p.nameIn unit, invoke p limits fuel⟩ name args
    | none => .error (.fault (.unknownName name))
  | _ + 1, f, args => do
    let v ← Value.applyCallable f args
    return ⟨v, args⟩

/-- The limits of every run. -/
def standardLimits : Limits :=
  ⟨10000, 1000000⟩

/-- What a program has under the name of an export. -/
def exported? (p : Program) (name : String) : Option (Value α) :=
  match Json.getField? p.exports name with
  | some unit => some (.function (.inUnit unit name))
  | none => (Ambient.ofName? name).map Value.ofAmbient

/-- The value of an exported function, which must be a number. -/
def call (p : Program) (name : String) (args : List (Value α)) : Except Error α :=
  match (p.exported? name : Option (Value α)) with
  | some (.function f) => do
    let r ← p.invoke standardLimits standardLimits.depth f args
    match r.value with
    | .num x => return x
    | v => .error (.evaluation (.notANumber name v.kind))
  | _ => .error (.evaluation (.notAFunction name))

/-- What an exported function leaves of a buffer of zeros that it is given after the layer
indices. -/
def callLayer (p : Program) (name : String) (layer : List (Value α)) (size : α)
    (vars : List (Value α)) : Except Error (Value α) := do
  let buffer ← Value.zeros (.num size)
  match (p.exported? name : Option (Value α)) with
  | some (.function f) =>
    let r ← p.invoke standardLimits standardLimits.depth f (layer ++ [buffer] ++ vars)
    return r.args[layer.length]?.getD .undefined
  | _ => .error (.fault (.notCallable name))

end

end Program

end RecurrenceCompiler
