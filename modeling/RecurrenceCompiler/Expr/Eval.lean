import RecurrenceCompiler.Ambient
import RecurrenceCompiler.Arith.Eval
import RecurrenceCompiler.Expr.Basic

/-!
# The value of an expression

Texts inside an expression are evaluated as arithmetic; calls are left to the caller, so one
evaluator serves plain recursion, memoised recursion and calls with given values. Terms and branches
are evaluated and added from left to right, and the call of a term comes before its coefficient.
-/

namespace RecurrenceCompiler

open Arith

/-- What a name stands for where an expression looks up an entry. -/
structure Tabulated (α : Type) where
  entries : List α
  /-- The length, as far as it has one. -/
  length : Option Nat

/-- The table of a list. -/
def Tabulated.ofList (xs : List α) : Tabulated α :=
  ⟨xs, some xs.length⟩

/-- What every record holds has no entries. -/
def Tabulated.ofAmbient (a : Ambient) : Tabulated α :=
  ⟨[], a.arity⟩

/-- What the names in an expression stand for. -/
structure Scope (α : Type) where
  /-- Indices and scalar runtime variables. -/
  value : Env α
  /-- Tabulated runtime variables. -/
  table : String → Option (Tabulated α)
  /-- Named intermediates. -/
  shared : Env α := fun _ => none

/-- The operation of a number system. -/
def BinOp.apply [Carrier α] : BinOp → α → α → α
  | add => Carrier.add
  | sub => Carrier.sub
  | mul => Carrier.mul
  | div => Carrier.div

/-- A result in a computation that may fail. -/
def orThrow [Monad m] [MonadExceptOf Error m] : Except Error α → m α
  | .ok v => pure v
  | .error e => throw e

/-- The sum of values from left to right. The empty sum is zero. -/
def total [Carrier α] : List α → α
  | [] => Carrier.zero
  | v :: vs => vs.foldl Carrier.add v

namespace Expr

section

variable {α : Type} {m : Type → Type} [Carrier α] [Monad m] [MonadExceptOf Error m]

/-- The entry of a table at an index given as text. -/
def evalLookup (s : Scope α) (table index : String) : Except Error α :=
  match s.table table with
  | none => .error (.evaluation (.notAnArray table))
  | some t => do
    let i ← evalIndex s.value index
    match (Carrier.toNat? i).bind fun k => t.entries[k]? with
    | some v => return v
    | none => throw (.evaluation (.outOfRange table (Carrier.text i) t.length))

/-- The value of a named intermediate. -/
def evalRef (s : Scope α) (name : String) : Except Error α :=
  match s.shared name with
  | some v => .ok v
  | none => .error (.evaluation (.unboundIntermediate name))

/-- The value of what a term multiplies. -/
def evalFactor (s : Scope α) (call : Call → m α) : Factor → m α
  | .call c => call c
  | .ref n => orThrow (evalRef s n)

mutual

/-- The value of an expression. -/
def eval (s : Scope α) (call : Call → m α) : Expr → m α
  | .const (.number x) => pure (Carrier.ofFloat x)
  | .const (.raw t) => orThrow (Arith.eval s.value t)
  | .var n => orThrow (Arith.eval s.value n)
  | .index t => orThrow (Arith.eval s.value t)
  | .lookup table i => orThrow (evalLookup s table i)
  | .ref n => orThrow (evalRef s n)
  | .call c => call c
  | .binop op l r => do
    let x ← eval s call l
    let y ← eval s call r
    return op.apply x y
  | .term t => do
    let v ← evalFactor s call t.factor
    if t.coeff.isUnit then return v
    else
      let k ← eval s call t.coeff
      return Carrier.mul k v
  | .sum ts => do
    let vs ← evalTerms s call ts
    return total vs
  | .scaled inner scale division => do
    let x ← eval s call inner
    let k ← eval s call scale
    return if division then Carrier.div x k else Carrier.mul x k
  | .average bs scale => do
    let vs ← evalList s call bs
    if vs.isEmpty then throw (.fault (.readOfUndefined "tag"))
    let k ← eval s call scale
    return Carrier.mul (total vs) k

/-- The values of terms. -/
def evalTerms (s : Scope α) (call : Call → m α) : List (Term Expr) → m (List α)
  | [] => pure []
  | t :: ts => do
    let v ← evalFactor s call t.factor
    let v ←
      if t.coeff.isUnit then pure v
      else do
        let k ← eval s call t.coeff
        pure (Carrier.mul k v)
    let vs ← evalTerms s call ts
    return v :: vs

/-- The values of expressions. -/
def evalList (s : Scope α) (call : Call → m α) : List Expr → m (List α)
  | [] => pure []
  | e :: es => do
    let v ← eval s call e
    let vs ← evalList s call es
    return v :: vs

end

end

end Expr

end RecurrenceCompiler
