import RecurrenceCompiler.Codegen.Dialect
import RecurrenceCompiler.Text.Blank

/-!
# Configuration

What the command line can be told about generation and output. Each source of settings contributes
some of them; the layers are put over the defaults one after another, so for each setting the last
layer that has it counts.
-/

namespace RecurrenceCompiler

open Text

/-- The settings that one source contributes. Integers are kept as the numbers that were read. -/
structure PartialConfig where
  target : Option Target := none
  vecType : Option String := none
  vecInclude : Option String := none
  optimization : Option Optimization := none
  cseThreshold : Option Float := none
  tablePadding : Option Float := none
  outputDir : Option String := none
  definitionsDir : Option String := none
  watchDelay : Option Float := none
  writeManifest : Option Bool := none

/-- All settings. -/
structure Config where
  target : Target := .cpp
  vecType : String := "Vec8d"
  vecInclude : String := "vectorclass.h"
  optimization : Optimization := .cse
  /-- How often a subexpression must occur to get a name. -/
  cseThreshold : Float := 2
  /-- Extra slots for layers that are read from a table. -/
  tablePadding : Float := 0
  /-- The directory that files are written to. -/
  outputDir : String := "generated"
  /-- The directory of definition files, if there is one. -/
  definitionsDir : Option String := none
  /-- The quiet period before a watched directory is read again, in milliseconds. -/
  watchDelay : Float := 2000
  /-- Whether a manifest with the digests of all files is written. -/
  writeManifest : Bool := true

namespace Config

/-- The settings with one more layer over them. -/
def apply (c : Config) (p : PartialConfig) : Config where
  target := p.target.getD c.target
  vecType := p.vecType.getD c.vecType
  vecInclude := p.vecInclude.getD c.vecInclude
  optimization := p.optimization.getD c.optimization
  cseThreshold := p.cseThreshold.getD c.cseThreshold
  tablePadding := p.tablePadding.getD c.tablePadding
  outputDir := p.outputDir.getD c.outputDir
  definitionsDir := p.definitionsDir <|> c.definitionsDir
  watchDelay := p.watchDelay.getD c.watchDelay
  writeManifest := p.writeManifest.getD c.writeManifest

/-- The layers over the defaults, later ones over earlier ones. -/
def merge (layers : List PartialConfig) : Config :=
  layers.foldl apply {}

/-- The options of the generators. -/
def codegen (c : Config) : CodegenOptions where
  target := c.target
  vecType := c.vecType
  vecInclude := c.vecInclude
  optimization := c.optimization
  cseThreshold := Decimal.ceiling c.cseThreshold
  tablePadding := .ofFloat c.tablePadding

/-- A C++ type name: a name that may also hold colons and angle brackets. -/
def isTypeName : List Char → Bool
  | [] => false
  | c :: cs => isNameStart c && cs.all fun c => isWord c || c == ':' || c == '<' || c == '>'

/-- What makes a configuration unusable. -/
def errors (c : Config) : List String :=
  (if c.cseThreshold < 2 then ["cseThreshold must be at least 2"] else []) ++
    (if c.tablePadding < 0 then ["tablePadding must not be negative"] else []) ++
    (if isTypeName c.vecType.toList then []
      else ["vecType is not a C++ type name: " ++ c.vecType]) ++
    (if (trim c.outputDir.toList).isEmpty then ["outputDir must not be empty"] else []) ++
    if c.watchDelay < 0 then ["watchDebounceMs must not be negative"] else []

/-- What is suspicious about a configuration. -/
def warnings (c : Config) : List String :=
  (if !(c.watchDelay < 0) && c.watchDelay < 50 then
      ["watchDebounceMs is very low, one save may trigger several rebuilds"] else []) ++
    if c.target == .js && c.vecType != ({} : Config).vecType then
      ["vecType only applies to cpp output"] else []

end Config

end RecurrenceCompiler
