import RecurrenceCompiler.Codegen.Dialect

/-!
# Statements of generated code

The bodies of generated functions, over a type of expressions: texts when code is written, parsed
terms when a script is run. The same statements are written in both dialects. A function that
computes a layer writes into the buffer `out` and reads earlier layers from buffers that it fills
first.
-/

namespace RecurrenceCompiler

open Decimal

/-- A buffer that holds another layer. -/
structure PreviousLayer (ε : Type) where
  /-- The name of the buffer. -/
  name : String
  /-- The function that computes the layer. -/
  layer : String
  /-- The layer indices at which it is computed. -/
  args : List ε
  /-- The runtime variables that it is given. -/
  vars : List String
  /-- The slots beyond the larger of the two layers. -/
  extra : Int

/-- A statement. -/
inductive Stmt (ε : Type) where
  | comment (text : String)
  | blank
  /-- Compute something for its effect. -/
  | run (e : ε)
  /-- Declare a value. -/
  | value (name : String) (value : ε)
  /-- Declare an index. -/
  | index (name : String) (value : ε)
  | ret (value : ε)
  | retIf (cond value : ε)
  /-- Write a slot of the layer. -/
  | write (slot value : ε)
  /-- Compute another layer into a buffer. -/
  | previous (p : PreviousLayer ε)
  | when (cond : ε) (body : List (Stmt ε))
  /-- Run through the slots of the layer from a slot on. -/
  | loop (name : String) (start : Int) (body : List (Stmt ε))
  | block (body : List (Stmt ε))

/-- Texts, without the empty ones, separated by commas. -/
def commaNonempty (parts : List String) : String :=
  ", ".intercalate (parts.filter fun p => !p.isEmpty)

/-- The lines that fill a buffer with another layer. -/
def PreviousLayer.render (d : Dialect) (p : PreviousLayer String) : List String :=
  let args := ", ".intercalate p.args
  let vars := ", ".intercalate p.vars
  match d.target with
  | .cpp =>
    let size := p.name.toUpper ++ "_SIZE"
    let count := p.layer ++ "<" ++ args ++ ">::N_VALUES"
    ["constexpr int " ++ size ++ " = (" ++ count ++ " > N_VALUES ? " ++ count ++ " : N_VALUES) + " ++
        intText p.extra ++ ";",
      d.vecType ++ " " ++ p.name ++ "[" ++ size ++ " > 0 ? " ++ size ++ " : 1] = \x7b\x7d;",
      p.layer ++ "<" ++ args ++ ">::compute(" ++ commaNonempty [p.name, vars] ++ ");"]
  | .js =>
    ["const " ++ p.name ++ " = new Array(Math.max(" ++ p.layer ++ "Size(" ++ args ++
        "), N_VALUES) + " ++ intText p.extra ++ ").fill(0);",
      p.layer ++ "(" ++ commaNonempty [args, p.name, vars] ++ ");"]

namespace Stmt

mutual

/-- The lines of a statement. -/
def render (d : Dialect) : Stmt String → List String
  | .comment t => ["// " ++ t]
  | .blank => [""]
  | .run e => [e ++ ";"]
  | .value n v => [d.declare n v]
  | .index n v => [d.declareIndex n v]
  | .ret v => ["return " ++ v ++ ";"]
  | .retIf c v => ["if (" ++ c ++ ") return " ++ v ++ ";"]
  | .write s v => ["out[" ++ s ++ "] = " ++ v ++ ";"]
  | .previous p => p.render d
  | .when c body => ("if (" ++ c ++ ") \x7b") :: (indent 1 (renderAll d body) ++ ["\x7d"])
  | .loop n start body =>
    d.loopHead n (intText start) :: (indent 1 (renderAll d body) ++ ["\x7d"])
  | .block body => "\x7b" :: (indent 1 (renderAll d body) ++ ["\x7d"])

/-- The lines of statements. -/
def renderAll (d : Dialect) : List (Stmt String) → List String
  | [] => []
  | s :: ss => render d s ++ renderAll d ss

end

end Stmt

end RecurrenceCompiler
