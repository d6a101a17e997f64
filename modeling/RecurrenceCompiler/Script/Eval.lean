import RecurrenceCompiler.Script.Expression
import RecurrenceCompiler.Script.Value

/-!
# The value of a script expression

Names and functions are given from outside, so an expression has a value in any scope. Operands and
arguments are evaluated from left to right. What is called is evaluated before its arguments, and
only after them does a call of something that is no function fail.
-/

namespace RecurrenceCompiler.Script

section

variable {α : Type} [Carrier α]

/-- The value of an operator. -/
def Operator.apply (op : Operator) (x y : Value α) : Value α :=
  match op with
  | .add => x.plus y
  | .sub => .num (Carrier.sub x.toNumber y.toNumber)
  | .mul => .num (Carrier.mul x.toNumber y.toNumber)
  | .div => .num (Carrier.div x.toNumber y.toNumber)
  | .eq => .truth (x.equal y)
  | .ne => .truth (!x.equal y)
  | .lt => .truth (x.less y)
  | .le => .truth (x.lessEq y)
  | .gt => .truth (y.less x)
  | .ge => .truth (y.lessEq x)

/-- The function that the value of a callee is. -/
def Value.callable (v : Value α) (callee : Expression) : Except Error Callable :=
  match v with
  | .function f => .ok f
  | _ => .error (.fault (.notCallable callee.shown))

/-- A new table of zeros, if the value of its maker is the constructor of tables. -/
def Value.makeZeros (v : Value α) (maker : Expression) (length : Value α) :
    Except Error (Value α) :=
  match v with
  | .function .array => zeros length
  | _ => .error (.fault (.notConstructor maker.shown))

namespace Expression

/-- The values of names. -/
abbrev Names (α : Type) := String → Except Error (Value α)

/-- The values of functions. -/
abbrev Functions (α : Type) := Callable → List (Value α) → Except Error (Value α)

mutual

/-- The value of an expression. -/
def eval (names : Names α) (functions : Functions α) : Expression → Except Error (Value α)
  | .num x => .ok (.num (Carrier.ofFloat x))
  | .name n => names n
  | .truth b => .ok (.truth b)
  | .null => .ok .null
  | .undefined => .ok .undefined
  | .negate e => do
    let v ← eval names functions e
    return .num (Carrier.neg v.toNumber)
  | .positive e => do
    let v ← eval names functions e
    return .num v.toNumber
  | .not e => do
    let v ← eval names functions e
    return .truth (!v.holds)
  | .binary op l r => do
    let x ← eval names functions l
    let y ← eval names functions r
    return op.apply x y
  | .both l r => do
    let x ← eval names functions l
    if x.holds then eval names functions r else return x
  | .either l r => do
    let x ← eval names functions l
    if x.holds then return x else eval names functions r
  | .cond t y n => do
    let v ← eval names functions t
    if v.holds then eval names functions y else eval names functions n
  | .element t i => do
    let table ← eval names functions t
    let index ← eval names functions i
    table.element index
  | .member e n => do
    let v ← eval names functions e
    v.member n
  | .call f args => do
    let callee ← eval names functions f
    let vs ← evalAll names functions args
    let c ← callee.callable f
    functions c vs
  | .zeros f length => do
    let maker ← eval names functions f
    let n ← eval names functions length
    maker.makeZeros f n

/-- The values of expressions, from left to right. -/
def evalAll (names : Names α) (functions : Functions α) :
    List Expression → Except Error (List (Value α))
  | [] => .ok []
  | e :: es => do
    let v ← eval names functions e
    let vs ← evalAll names functions es
    return v :: vs

end

end Expression

end

end RecurrenceCompiler.Script
