import RecurrenceCompiler.Decimal.Reader
import RecurrenceCompiler.Error
import RecurrenceCompiler.Json.Basic
import RecurrenceCompiler.Recurrence.Interpret

/-!
# Arguments of the command line

The command, its options and what follows it. Reading never stops at a mistake: unknown options and
missing values are collected.
-/

namespace RecurrenceCompiler.Cli

open Text Decimal

/-- What the command line can do. -/
inductive Command where
  | generate
  | list
  | watch
  | eval
deriving DecidableEq

/-- All commands. -/
def Command.all : List Command :=
  [.generate, .list, .watch, .eval]

/-- The word for a command. -/
def Command.text : Command → String
  | generate => "generate"
  | list => "list"
  | watch => "watch"
  | eval => "eval"

/-- An option that takes a value. -/
inductive ValueOption where
  | output
  | target
  | config
  | definitions

/-- The option that an argument names. -/
def ValueOption.ofText? : String → Option ValueOption
  | "--output" | "-o" => some output
  | "--target" | "-t" => some target
  | "--config" | "-c" => some config
  | "--definitions" => some definitions
  | _ => none

/-- The arguments as they were understood. -/
structure Args where
  command : Option Command := none
  help : Bool := false
  version : Bool := false
  verbose : Bool := false
  layered : Bool := false
  output : Option String := none
  target : Option String := none
  config : Option String := none
  definitions : Option String := none
  /-- What follows the command. -/
  positionals : List String := []
  /-- Unknown options and commands, and missing values. -/
  errors : List String := []

namespace Args

variable (a : Args)

/-- Note a mistake. -/
def complain (error : String) : Args :=
  { a with errors := a.errors ++ [error] }

/-- Set the value of an option, or none if it is missing. -/
def setOption (value : Option String) : ValueOption → Args
  | .output => { a with output := value }
  | .target => { a with target := value }
  | .config => { a with config := value }
  | .definitions => { a with definitions := value }

/-- Whether an argument looks like an option. A minus sign before a digit starts a number. -/
def looksLikeOption (arg : String) : Bool :=
  match arg.toList with
  | '-' :: c :: _ => !isDigit c
  | ['-'] => true
  | _ => false

/-- Take in an argument that is a command or belongs to one. -/
def addPlain (arg : String) : Args :=
  if a.command.isNone && a.positionals.isEmpty then
    match Command.all.find? fun c => c.text == arg with
    | some c => { a with command := some c }
    | none => a.complain ("unknown command " ++ arg)
  else { a with positionals := a.positionals ++ [arg] }

/-- Take in an argument that takes no value. -/
def add (arg : String) : Args :=
  if arg == "--help" || arg == "-h" then { a with help := true }
  else if arg == "--version" then { a with version := true }
  else if arg == "--verbose" || arg == "-v" then { a with verbose := true }
  else if arg == "--layered" then { a with layered := true }
  else if looksLikeOption arg then a.complain ("unknown option " ++ arg)
  else a.addPlain arg

/-- Take in arguments. An option takes the argument after it, also one that cannot be its value. -/
def addAll (a : Args) : List String → Args
  | [] => a
  | [arg] =>
    match ValueOption.ofText? arg with
    | some o => (a.setOption none o).complain (arg ++ " needs a value")
    | none => a.add arg
  | arg :: next :: rest =>
    match ValueOption.ofText? arg with
    | some o =>
      if "--".toList.isPrefixOf next.toList then
        ((a.setOption none o).complain (arg ++ " needs a value")).addAll rest
      else (a.setOption (some next) o).addAll rest
    | none => (a.add arg).addAll (next :: rest)

/-- The arguments of a command line. -/
def parse (args : List String) : Args :=
  ({} : Args).addAll args

end Args

/-- The indices that a list of integers, separated by commas, gives. -/
def parseIndices (text : String) : Except Error (List Float) :=
  ((splitOn ',' text.toList).map trim).mapM fun part =>
    if isInteger part then .ok ((signedLiteral? part).getD 0.0)
    else .error (.definition (.badIndexList text))

/-- The value of a variable: a number, or a table of numbers separated by commas. -/
def parseValue? (raw : List Char) : Option (RuntimeValue Float) :=
  if raw.isEmpty then none
  else (((splitOn ',' raw).map readNumber?).mapM id).bind fun xs =>
    match xs with
    | [x] => if x.isNaN then none else some (.scalar x)
    | xs => some (.table xs)

/-- The values of variables. The later of two values of one variable counts, and the name
`__proto__` cannot have one. -/
def parseAssignments : List String → Except Error (List (String × RuntimeValue Float))
  | items => items.foldlM (fun values item =>
      match cutAt? ['='] item.toList with
      | none | some ([], _) => .error (.definition (.badAssignment item))
      | some (name, raw) =>
        let name := String.ofList (trim name)
        let raw := trim raw
        match parseValue? raw with
        | none => .error (.definition (.notNumbers name (String.ofList raw)))
        | some v => .ok (if name == "__proto__" then values else Json.setField values name v)) []

end RecurrenceCompiler.Cli
