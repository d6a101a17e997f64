/-!
# Ambient names

Records of values have some fields that nobody put there: a few functions, and the root record itself
under the name `__proto__`. A variable or an index under such a name counts as given although it has
no number.
-/

namespace RecurrenceCompiler

/-- Something that every record holds. -/
structure Ambient where
  name : String
  /-- The number of parameters, for a function. -/
  arity : Option Nat
deriving DecidableEq

namespace Ambient

/-- The functions that every record holds, with their numbers of parameters. -/
def functions : List Ambient :=
  [⟨"constructor", some 1⟩, ⟨"__defineGetter__", some 2⟩, ⟨"__defineSetter__", some 2⟩,
    ⟨"hasOwnProperty", some 1⟩, ⟨"__lookupGetter__", some 1⟩, ⟨"__lookupSetter__", some 1⟩,
    ⟨"isPrototypeOf", some 1⟩, ⟨"propertyIsEnumerable", some 1⟩, ⟨"toString", some 0⟩,
    ⟨"valueOf", some 0⟩, ⟨"toLocaleString", some 0⟩]

/-- The record that all records inherit from. -/
def root : Ambient :=
  ⟨"__proto__", none⟩

/-- All that every record holds. -/
def all : List Ambient :=
  root :: functions

/-- What every record holds under a name. -/
def ofName? (name : String) : Option Ambient :=
  all.find? fun a => a.name == name

end Ambient

end RecurrenceCompiler
