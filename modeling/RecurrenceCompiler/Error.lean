import RecurrenceCompiler.Diagnostic
import RecurrenceCompiler.Text.Quoted

/-!
# Errors

An error is a cause: what went wrong, with the names it went wrong about. Its wording is a function
of the cause, and so are its code and the list of problems that some errors carry.
-/

namespace RecurrenceCompiler

open Text

/-- What is wrong with a piece of rule text. -/
inductive TextFault where
  | malformedTerm
  | unbalancedBrackets
  | noCall
  | invalidShift
  | invalidArithmetic
deriving DecidableEq

/-- The diagnostic code of a text fault. -/
def TextFault.code : TextFault → DiagnosticCode
  | malformedTerm => .malformedTerm
  | unbalancedBrackets => .unbalancedBrackets
  | noCall => .noCall
  | invalidShift => .invalidShift
  | invalidArithmetic => .invalidArithmetic

/-- The recurrence, and the rule if it is a rule, that a text belongs to. -/
structure Place where
  recurrence : String
  rule : Option Nat
deriving DecidableEq

/-- Why a recurrence, a catalog, a configuration or a command is refused. -/
inductive DefinitionCause where
  | invalidName (name : String)
  | noIndices (recurrence : String)
  | invalidIdentifier (recurrence identifier : String)
  | declaredTwice (recurrence identifier : String)
  | arrayNotRuntime (recurrence name : String)
  | auxNotDeclared (recurrence index : String)
  | maximumOfUnknown (recurrence index : String)
  | maximumNotNatural (recurrence index : String)
  | baseOfUnknown (recurrence index : String)
  | baseNotInteger (recurrence index : String)
  | baseBindsNothing (recurrence : String)
  | noBranches (recurrence : String)
  | unknownIndex (recurrence index : String)
  | guardOfUnknown (recurrence index : String)
  | averageHasNoText
  | duplicate (name : String)
  | unknown (name : String)
  | cyclic (recurrence dependency : String)
  | invalid (file : Option String) (name : String) (problems : List String)
  | notJson (file : String)
  | directoryFailed (dir : String) (failed : Nat) (problems : List String)
  | unresolved (problems : List String)
  | badTarget (text : String)
  | badConfiguration (problems : List String)
  | badIndexList (text : String)
  | badAssignment (item : String)
  | notNumbers (name text : String)
  | wrongRank (recurrence : String) (expected got : Nat)
  | missingValues (recurrence : String) (names : List String)
  | noDefinitionsDirectory

/-- Why code cannot be generated. -/
inductive GenerationCause where
  | ruleUnguarded (rule : Nat)
  | noAuxiliary
  | onlyAuxiliary (aux : String)
  | auxWithoutDescent (rule : Nat) (aux : String) (up : Int)
  | auxMixed (rule : Nat) (aux comparison : String)
  | auxConstrained (rule : Nat) (aux comparison : String)
  | auxConstrainedTwice (rule : Nat) (aux : String)
  | layerIndexFree (index : String)
  | layerUnsized (values detail : String)
  | rolesClash (first second : Nat) (role : String)
  | groupsInterleave (first second : Nat)
  | groupUncovering (first second : Nat) (aux : String)
  | readsOwnLayer (rule : Nat)
  | callWithoutBuffer
  | baseWithCall
  | groupUnguarded (rule : Nat)

/-- Why a value cannot be computed. -/
inductive EvaluationCause where
  | unboundIdentifier (name text : String)
  | unknownFunction (name text : String)
  | wrongArity (name : String) (arity : Nat) (text : String)
  | notAnInteger (text value : String)
  | notAnArray (name : String)
  | dependsOnItself (point : String)
  | unboundVariable (name recurrence : String)
  /-- An entry that a table does not have. Something that is no list may have no length. -/
  | outOfRange (table index : String) (length : Option Nat)
  | callsUnknown (recurrence target : String)
  | unboundIntermediate (name : String)
  | wrongRank (recurrence : String) (expected got : Nat)
  | noIndexValue (recurrence index : String)
  | missingDependencies (recurrence : String) (names : List String)
  | notLoadable (recurrence target : String)
  | notAFunction (name : String)
  | notANumber (name kind : String)

/-- What stops a running script. -/
inductive Fault where
  /-- A name that nothing defines is read. -/
  | unknownName (name : String)
  /-- A name is read before its declaration has run. -/
  | uninitialised (name : String)
  /-- Something that is no function is called. -/
  | notCallable (callee : String)
  /-- Something that is no constructor is used as one. -/
  | notConstructor (callee : String)
  /-- A property of an undefined value is read. -/
  | readOfUndefined (key : String)
  /-- A property of an undefined value is written. -/
  | writeToUndefined (key : String)
  /-- A record cannot be written as text. -/
  | noPrimitive
  /-- A function of records is called on nothing. -/
  | noRecord
  /-- A buffer of an impossible length is requested. -/
  | badLength
  /-- A script does not follow its grammar. -/
  | malformed (reason : String)
  /-- The evaluation is deeper than the limit. -/
  | tooDeep
deriving DecidableEq

/-- What stops an access to a file. -/
inductive FileFault where
  | missing
  | isDirectory
  | notDirectory
  | taken
deriving DecidableEq

/-- Why a configuration file is refused. -/
inductive ConfigCause where
  | notFound (path : String)
  | unknownFormat (extension : String)
  | notAnObject (path : String)

/-- An error of the compiler. -/
inductive Error where
  /-- Rule text that is not well formed, with the offending fragment. -/
  | text (fault : TextFault) (fragment : String) (place : Option Place)
  /-- A constraint without a comparison. -/
  | constraint (source : String)
  | definition (cause : DefinitionCause)
  | generation (recurrence : String) (cause : GenerationCause)
  | evaluation (cause : EvaluationCause)
  | config (cause : ConfigCause)
  | fault (fault : Fault)
  | file (fault : FileFault)
  | invalidJson

/-- What stands for the reason why a text is not JSON. -/
def jsonDetail : String := "<json error>"

namespace DefinitionCause

/-- The wording of a refusal. -/
def message : DefinitionCause → String
  | invalidName n => "Invalid recurrence name: " ++ quoted n
  | noIndices r => r ++ ": at least one index is required"
  | invalidIdentifier r i => r ++ ": invalid identifier " ++ quoted i
  | declaredTwice r i => r ++ ": " ++ i ++ " is declared twice"
  | arrayNotRuntime r v => r ++ ": array variable " ++ v ++ " is not a runtime variable"
  | auxNotDeclared r i => r ++ ": auxiliary index " ++ i ++ " is not declared"
  | maximumOfUnknown r i => r ++ ": maxIndices names unknown index " ++ i
  | maximumNotNatural r i => r ++ ": maxIndices." ++ i ++ " must be a non-negative integer"
  | baseOfUnknown r i => r ++ ": base case names unknown index " ++ i
  | baseNotInteger r i => r ++ ": base case value for " ++ i ++ " must be an integer"
  | baseBindsNothing r => r ++ ": base case binds no index"
  | noBranches r => r ++ ": branchAverage needs at least one branch"
  | unknownIndex r i => r ++ ": unknown index " ++ i
  | guardOfUnknown r i => r ++ ": constraint mentions unknown index " ++ i
  | averageHasNoText => "branch averages have no single-expression DSL form"
  | duplicate n => DiagnosticCode.duplicateRecurrence.message [("name", n)]
  | unknown n => DiagnosticCode.unknownRecurrence.message [("name", n)]
  | cyclic r d => r ++ ": cyclic cross reference through " ++ d
  | invalid file n _ =>
    (file.map (· ++ ": ")).getD "" ++ "invalid definition " ++ n
  | notJson f => f ++ ": not valid JSON"
  | directoryFailed d n _ => d ++ ": " ++ toString n ++ " definition file(s) failed to load"
  | unresolved _ => "catalog has unresolved cross references"
  | badTarget t => "--target must be cpp or js, got " ++ t
  | badConfiguration _ => "invalid configuration"
  | badIndexList t => "index list must be integers, got " ++ quoted t
  | badAssignment i => "expected name=value, got " ++ quoted i
  | notNumbers n t => n ++ ": not a number or list of numbers: " ++ quoted t
  | wrongRank r e g => r ++ " takes " ++ toString e ++ " indices, got " ++ toString g
  | missingValues r ns => r ++ ": missing values for " ++ ", ".intercalate ns
  | noDefinitionsDirectory =>
    "watch needs a definitions directory (--definitions or RECURFORGE_DEFINITIONS_DIR)"

/-- The code of a refusal. -/
def code : DefinitionCause → DiagnosticCode
  | auxNotDeclared .. | maximumOfUnknown .. | baseOfUnknown .. | unknownIndex ..
  | guardOfUnknown .. => .unknownIndex
  | duplicate _ => .duplicateRecurrence
  | unknown _ | unresolved _ => .unknownRecurrence
  | _ => .invalidDefinition

/-- The single problems behind a refusal. -/
def problems : DefinitionCause → List String
  | invalid _ _ ps | directoryFailed _ _ ps | unresolved ps | badConfiguration ps => ps
  | notJson _ => [jsonDetail]
  | _ => []

end DefinitionCause

namespace GenerationCause

/-- The wording of a generation failure. -/
def detail : GenerationCause → String
  | ruleUnguarded r => "rule " ++ toString r ++ " has no guard, so its recursion never terminates"
  | noAuxiliary => "no auxiliary index declared"
  | onlyAuxiliary a => a ++ " is the only index, so there are no layers"
  | auxWithoutDescent r a up =>
    "rule " ++ toString r ++ " reads " ++ a ++ "+" ++ Decimal.intText up ++
      " without descending a layer, so no table size fits"
  | auxMixed r a c => "rule " ++ toString r ++ " mixes " ++ a ++ " with other indices in " ++ c
  | auxConstrained r a c => "rule " ++ toString r ++ " constrains " ++ a ++ " with " ++ c
  | auxConstrainedTwice r a => "rule " ++ toString r ++ " has more than one constraint on " ++ a
  | layerIndexFree i => "base case leaves layer index " ++ i ++ " free"
  | layerUnsized vs d => "cannot size base layer (" ++ vs ++ "): " ++ d
  | rolesClash a b r =>
    "rules " ++ toString a ++ " and " ++ toString b ++ " both take the " ++ r ++ " role"
  | groupsInterleave a b =>
    "layer groups of rules " ++ toString a ++ " and " ++ toString b ++
      " overlap with interleaved priorities"
  | groupUncovering a b aux =>
    "layer group of rule " ++ toString a ++ " overlaps rule " ++ toString b ++
      " but does not cover every " ++ aux ++ " value"
  | readsOwnLayer r => "rule " ++ toString r ++ " reads its own layer"
  | callWithoutBuffer => "call without a previous-layer buffer"
  | baseWithCall => "base case value cannot contain a call"
  | groupUnguarded r =>
    "layer group of rule " ++ toString r ++ " has no guard, so its recursion never terminates"

end GenerationCause

namespace EvaluationCause

/-- The wording of an evaluation failure. -/
def detail : EvaluationCause → String
  | unboundIdentifier n t => "unbound identifier " ++ n ++ " in " ++ quoted t
  | unknownFunction n t => "unknown function " ++ n ++ " in " ++ quoted t
  | wrongArity n k t => n ++ " expects " ++ toString k ++ " argument(s) in " ++ quoted t
  | notAnInteger t v => "index expression " ++ quoted t ++ " is not an integer (" ++ v ++ ")"
  | notAnArray n => "array variable " ++ n ++ " is not bound to an array"
  | dependsOnItself p => p ++ " depends on itself"
  | unboundVariable n r => "runtime variable " ++ n ++ " of " ++ r ++ " is not bound"
  | outOfRange t i n =>
    t ++ "[" ++ i ++ "] is out of range (length " ++ (n.map toString).getD "undefined" ++ ")"
  | callsUnknown r t => r ++ " calls unknown recurrence " ++ t
  | unboundIntermediate n => "unbound intermediate " ++ n
  | wrongRank r e g => r ++ " takes " ++ toString e ++ " indices, got " ++ toString g
  | noIndexValue r i => r ++ ": no value for index " ++ i
  | missingDependencies r ns => r ++ " needs " ++ ", ".intercalate ns ++ " to load"
  | notLoadable r t => r ++ ": only js output can be loaded, got " ++ t
  | notAFunction n => "export " ++ n ++ " is not a function"
  | notANumber n k => n ++ " returned " ++ k ++ ", not a number"

end EvaluationCause

/-- The wording of a refused configuration file. -/
def ConfigCause.message : ConfigCause → String
  | notFound p => "Config file not found: " ++ p
  | unknownFormat e => "Unsupported config file format: " ++ e
  | notAnObject p => "Config file must hold an object: " ++ p

/-- The wording of a script fault. -/
def Fault.message : Fault → String
  | unknownName n => n ++ " is not defined"
  | uninitialised n => "Cannot access \x27" ++ n ++ "\x27 before initialization"
  | notCallable f => f ++ " is not a function"
  | notConstructor f => f ++ " is not a constructor"
  | readOfUndefined k => "Cannot read properties of undefined (reading \x27" ++ k ++ "\x27)"
  | writeToUndefined k => "Cannot set properties of undefined (setting \x27" ++ k ++ "\x27)"
  | noPrimitive => "Cannot convert object to primitive value"
  | noRecord => "Cannot convert undefined or null to object"
  | badLength => "Invalid array length"
  | malformed reason => reason
  | tooDeep => "Maximum call stack size exceeded"

/-- The wording of a file fault. -/
def FileFault.message : FileFault → String
  | missing => "ENOENT"
  | isDirectory => "EISDIR"
  | notDirectory => "ENOTDIR"
  | taken => "EEXIST"

namespace Error

/-- The wording of an error. -/
def message : Error → String
  | text what fragment place =>
    let base := what.code.message [("fragment", quoted fragment)]
    match place with
    | none => base
    | some ⟨r, none⟩ => r ++ ": " ++ base
    | some ⟨r, some i⟩ => r ++ " rule " ++ toString i ++ ": " ++ base
  | constraint source => DiagnosticCode.noComparison.message [("source", quoted source)]
  | definition cause => cause.message
  | generation r cause => r ++ ": " ++ DiagnosticCode.cannotGenerate.message [("detail", cause.detail)]
  | evaluation cause => DiagnosticCode.cannotEvaluate.message [("detail", cause.detail)]
  | config cause => cause.message
  | fault f => f.message
  | file f => f.message
  | invalidJson => jsonDetail

/-- A result that a file fault may have prevented. -/
def ofFile : Except FileFault α → Except Error α
  | .ok v => .ok v
  | .error f => .error (file f)

/-- The code of an error, for those that have one. -/
def code? : Error → Option DiagnosticCode
  | text what _ _ => some what.code
  | constraint _ => some .noComparison
  | definition cause => some cause.code
  | generation .. => some .cannotGenerate
  | evaluation _ => some .cannotEvaluate
  | config _ | fault _ | file _ | invalidJson => none

/-- The single problems behind an error. -/
def problems : Error → List String
  | definition cause => cause.problems
  | _ => []

end Error

end RecurrenceCompiler
