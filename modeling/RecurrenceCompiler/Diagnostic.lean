import RecurrenceCompiler.Decimal.Layout
import RecurrenceCompiler.Text.Template

/-!
# Diagnostics

Every message the compiler reports has a code. The code fixes the severity and the template of the
message; the parameters fill the template's slots in the order in which they are given.
-/

namespace RecurrenceCompiler

open Text Decimal

/-- How serious a diagnostic is. -/
inductive Severity where
  | error
  | warning

/-- The word for a severity. -/
def Severity.text : Severity → String
  | .error => "error"
  | .warning => "warning"

/-- What a diagnostic reports. -/
inductive DiagnosticCode where
  | malformedTerm
  | unbalancedBrackets
  | noCall
  | invalidShift
  | invalidArithmetic
  | noComparison
  | unknownIndex
  | duplicateRecurrence
  | invalidDefinition
  | unknownRecurrence
  | cannotGenerate
  | cannotEvaluate
  | unknownIdentifier
  | defaultedBound
  | unknownConfigValue
deriving DecidableEq

namespace DiagnosticCode

/-- All codes. -/
def all : List DiagnosticCode :=
  [.malformedTerm, .unbalancedBrackets, .noCall, .invalidShift, .invalidArithmetic, .noComparison,
    .unknownIndex, .duplicateRecurrence, .invalidDefinition, .unknownRecurrence, .cannotGenerate,
    .cannotEvaluate, .unknownIdentifier, .defaultedBound, .unknownConfigValue]

/-- The code as it is printed. -/
def text : DiagnosticCode → String
  | malformedTerm => "E0001"
  | unbalancedBrackets => "E0002"
  | noCall => "E0003"
  | invalidShift => "E0004"
  | invalidArithmetic => "E0005"
  | noComparison => "E0010"
  | unknownIndex => "E0100"
  | duplicateRecurrence => "E0101"
  | invalidDefinition => "E0102"
  | unknownRecurrence => "E0103"
  | cannotGenerate => "E0200"
  | cannotEvaluate => "E0300"
  | unknownIdentifier => "W0101"
  | defaultedBound => "W0201"
  | unknownConfigValue => "W0301"

/-- The severity of a code. -/
def severity : DiagnosticCode → Severity
  | unknownIdentifier | defaultedBound | unknownConfigValue => .warning
  | _ => .error

/-- The message template of a code. -/
def template : DiagnosticCode → String
  | malformedTerm => "Malformed term: \x7bfragment\x7d"
  | unbalancedBrackets => "Unbalanced brackets: \x7bfragment\x7d"
  | noCall => "No call found in term: \x7bfragment\x7d"
  | invalidShift => "Invalid shift component: \x7bfragment\x7d"
  | invalidArithmetic => "Invalid arithmetic expression: \x7bfragment\x7d"
  | noComparison => "No comparison operator in constraint: \x7bsource\x7d"
  | unknownIndex => "Unknown index: \x7bname\x7d"
  | duplicateRecurrence => "Duplicate recurrence: \x7bname\x7d"
  | invalidDefinition => "Invalid definition field: \x7bfield\x7d"
  | unknownRecurrence => "Unknown recurrence: \x7bname\x7d"
  | cannotGenerate => "Cannot generate: \x7bdetail\x7d"
  | cannotEvaluate => "Cannot evaluate: \x7bdetail\x7d"
  | unknownIdentifier => "Unknown identifier treated as runtime variable: \x7bname\x7d"
  | defaultedBound => "Layer bound for \x7bname\x7d defaulted to 1: no bound on \x7baux\x7d"
  | unknownConfigValue => "Unknown config value for \x7bfield\x7d: \x7bvalue\x7d"

/-- The code with that spelling. -/
def ofText? (s : String) : Option DiagnosticCode :=
  all.find? fun c => c.text == s

/-- The message of a code, its slots filled. -/
def message (c : DiagnosticCode) (params : List (String × String)) : String :=
  fill c.template params

end DiagnosticCode

/-- A value attached to a diagnostic. -/
inductive Datum where
  | text (s : String)
  | number (x : Float)

/-- The text of an attached value. -/
def Datum.render : Datum → String
  | .text s => s
  | .number x => numberText x

/-- A reported problem: its code, its message, and where it was found. -/
structure Diagnostic where
  code : DiagnosticCode
  message : String
  data : Option (List (String × Datum))

namespace Diagnostic

/-- The diagnostic with these parameters. They also locate it, unless `data` does. -/
def make (code : DiagnosticCode) (params : Option (List (String × Datum)))
    (data : Option (List (String × Datum))) : Diagnostic where
  code
  message := code.message ((params.getD []).map fun (k, v) => (k, v.render))
  data := data <|> params

/-- A diagnostic on one line, its data in parentheses. -/
def format (d : Diagnostic) : String :=
  let place := ", ".intercalate ((d.data.getD []).map fun (k, v) => k ++ "=" ++ v.render)
  d.code.severity.text ++ " " ++ d.code.text ++ ": " ++ d.message ++
    if place.isEmpty then "" else " (" ++ place ++ ")"

end Diagnostic

end RecurrenceCompiler
