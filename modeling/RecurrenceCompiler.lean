import RecurrenceCompiler.Ambient
import RecurrenceCompiler.Arith.Carrier
import RecurrenceCompiler.Arith.Eval
import RecurrenceCompiler.Arith.Name
import RecurrenceCompiler.Arith.Token
import RecurrenceCompiler.Artifact.Basic
import RecurrenceCompiler.Artifact.Write
import RecurrenceCompiler.Catalog.Basic
import RecurrenceCompiler.Catalog.Evaluate
import RecurrenceCompiler.Checked
import RecurrenceCompiler.Cli.Args
import RecurrenceCompiler.Cli.Help
import RecurrenceCompiler.Cli.Run
import RecurrenceCompiler.Codegen.Body
import RecurrenceCompiler.Codegen.Dialect
import RecurrenceCompiler.Codegen.Dispatcher
import RecurrenceCompiler.Codegen.LayerPlan
import RecurrenceCompiler.Codegen.Layered
import RecurrenceCompiler.Codegen.PerValue
import RecurrenceCompiler.Codegen.Stmt
import RecurrenceCompiler.Codegen.Unit
import RecurrenceCompiler.Config.Basic
import RecurrenceCompiler.Config.Load
import RecurrenceCompiler.Config.Node
import RecurrenceCompiler.Config.Source
import RecurrenceCompiler.Config.Yaml
import RecurrenceCompiler.Constraint.Basic
import RecurrenceCompiler.Constraint.Guard
import RecurrenceCompiler.Decimal.Amount
import RecurrenceCompiler.Decimal.Layout
import RecurrenceCompiler.Decimal.Reader
import RecurrenceCompiler.Decimal.Shortest
import RecurrenceCompiler.Decimal.Whole
import RecurrenceCompiler.Definition.Basic
import RecurrenceCompiler.Definition.Directory
import RecurrenceCompiler.Definition.Reader
import RecurrenceCompiler.Diagnostic
import RecurrenceCompiler.Digest.Sha256
import RecurrenceCompiler.Error
import RecurrenceCompiler.Expr.Basic
import RecurrenceCompiler.Expr.Cost
import RecurrenceCompiler.Expr.Eval
import RecurrenceCompiler.Expr.Sharing
import RecurrenceCompiler.Expr.Signature
import RecurrenceCompiler.Expr.Substitution
import RecurrenceCompiler.Json.Basic
import RecurrenceCompiler.Json.Parser
import RecurrenceCompiler.Json.Printer
import RecurrenceCompiler.Library.Standard
import RecurrenceCompiler.Main
import RecurrenceCompiler.Proofs.Arith.Acceptance
import RecurrenceCompiler.Proofs.Arith.Exact
import RecurrenceCompiler.Proofs.Arith.Fixing
import RecurrenceCompiler.Proofs.Arith.Grammar
import RecurrenceCompiler.Proofs.Arith.IntegerTexts
import RecurrenceCompiler.Proofs.Arith.Lexing
import RecurrenceCompiler.Proofs.Arith.MachineInt
import RecurrenceCompiler.Proofs.Arith.Names
import RecurrenceCompiler.Proofs.Arith.Sentence
import RecurrenceCompiler.Proofs.Arith.Splitting
import RecurrenceCompiler.Proofs.Artifact.FileNames
import RecurrenceCompiler.Proofs.Artifact.Writing
import RecurrenceCompiler.Proofs.Catalog.Dependencies
import RecurrenceCompiler.Proofs.Catalog.Generation
import RecurrenceCompiler.Proofs.Catalog.Loading
import RecurrenceCompiler.Proofs.Catalog.Search
import RecurrenceCompiler.Proofs.Catalog.Validated
import RecurrenceCompiler.Proofs.Codegen.Bodies
import RecurrenceCompiler.Proofs.Codegen.Buffers
import RecurrenceCompiler.Proofs.Codegen.CaseCode
import RecurrenceCompiler.Proofs.Codegen.Closed
import RecurrenceCompiler.Proofs.Codegen.Constants
import RecurrenceCompiler.Proofs.Codegen.Dispatch
import RecurrenceCompiler.Proofs.Codegen.Formula
import RecurrenceCompiler.Proofs.Codegen.InBounds
import RecurrenceCompiler.Proofs.Codegen.LayerChoice
import RecurrenceCompiler.Proofs.Codegen.LayerGroups
import RecurrenceCompiler.Proofs.Codegen.LayerSize
import RecurrenceCompiler.Proofs.Codegen.LayerValues
import RecurrenceCompiler.Proofs.Codegen.Machines
import RecurrenceCompiler.Proofs.Codegen.Operands
import RecurrenceCompiler.Proofs.Codegen.Rendering
import RecurrenceCompiler.Proofs.Codegen.Roles
import RecurrenceCompiler.Proofs.Codegen.ScriptBodies
import RecurrenceCompiler.Proofs.Codegen.Specializations
import RecurrenceCompiler.Proofs.Codegen.TableSize
import RecurrenceCompiler.Proofs.Codegen.ValueModules
import RecurrenceCompiler.Proofs.Codegen.ValuePrograms
import RecurrenceCompiler.Proofs.Codegen.WriteOrder
import RecurrenceCompiler.Proofs.Config.Priority
import RecurrenceCompiler.Proofs.Config.Yaml
import RecurrenceCompiler.Proofs.Constraint.Bounds
import RecurrenceCompiler.Proofs.Constraint.Disjoint
import RecurrenceCompiler.Proofs.Constraint.Key
import RecurrenceCompiler.Proofs.Decimal.Double
import RecurrenceCompiler.Proofs.Decimal.Integers
import RecurrenceCompiler.Proofs.Decimal.Nearest
import RecurrenceCompiler.Proofs.Decimal.Operations
import RecurrenceCompiler.Proofs.Decimal.Positional
import RecurrenceCompiler.Proofs.Decimal.Rounding
import RecurrenceCompiler.Proofs.Decimal.Scan
import RecurrenceCompiler.Proofs.Decimal.Shortest
import RecurrenceCompiler.Proofs.Decimal.Spelling
import RecurrenceCompiler.Proofs.Definition.Reports
import RecurrenceCompiler.Proofs.Expr.Eval
import RecurrenceCompiler.Proofs.Json.Fields
import RecurrenceCompiler.Proofs.Recurrence.Accepted
import RecurrenceCompiler.Proofs.Recurrence.Built
import RecurrenceCompiler.Proofs.Recurrence.Derivation
import RecurrenceCompiler.Proofs.Recurrence.Fixing
import RecurrenceCompiler.Proofs.Recurrence.Reported
import RecurrenceCompiler.Proofs.Recurrence.Selection
import RecurrenceCompiler.Proofs.Recurrence.Shape
import RecurrenceCompiler.Proofs.Recurrence.Sharing
import RecurrenceCompiler.Proofs.Recurrence.SharingCost
import RecurrenceCompiler.Proofs.Recurrence.Steps
import RecurrenceCompiler.Proofs.RuleText.Calls
import RecurrenceCompiler.Proofs.RuleText.Canonical
import RecurrenceCompiler.Proofs.RuleText.Coefficient
import RecurrenceCompiler.Proofs.RuleText.CoefficientPlaces
import RecurrenceCompiler.Proofs.RuleText.LiteralCoefficients
import RecurrenceCompiler.Proofs.RuleText.Parsed
import RecurrenceCompiler.Proofs.RuleText.Reading
import RecurrenceCompiler.Proofs.RuleText.RoundTrip
import RecurrenceCompiler.Proofs.RuleText.Sentences
import RecurrenceCompiler.Proofs.RuleText.ShiftLists
import RecurrenceCompiler.Proofs.Script.Arithmetic
import RecurrenceCompiler.Proofs.Script.Grammar
import RecurrenceCompiler.Proofs.Script.Loading
import RecurrenceCompiler.Proofs.Script.Mentions
import RecurrenceCompiler.Proofs.Script.Numbers
import RecurrenceCompiler.Proofs.Script.Texts
import RecurrenceCompiler.Proofs.Sorting
import RecurrenceCompiler.Proofs.Watch
import RecurrenceCompiler.Proofs.Workspace.Directory
import RecurrenceCompiler.Proofs.Workspace.Path
import RecurrenceCompiler.Recurrence.Basic
import RecurrenceCompiler.Recurrence.Builder
import RecurrenceCompiler.Recurrence.Interpret
import RecurrenceCompiler.Recurrence.NamedPoint
import RecurrenceCompiler.Recurrence.Selection
import RecurrenceCompiler.RuleText.Parser
import RecurrenceCompiler.RuleText.Printer
import RecurrenceCompiler.RuleText.Split
import RecurrenceCompiler.Script.Eval
import RecurrenceCompiler.Script.Expression
import RecurrenceCompiler.Script.Host
import RecurrenceCompiler.Script.Module
import RecurrenceCompiler.Script.Program
import RecurrenceCompiler.Script.Reader
import RecurrenceCompiler.Script.Run
import RecurrenceCompiler.Script.Value
import RecurrenceCompiler.Sorting
import RecurrenceCompiler.Text.Blank
import RecurrenceCompiler.Text.Lowercase
import RecurrenceCompiler.Text.Quoted
import RecurrenceCompiler.Text.Template
import RecurrenceCompiler.Text.Units
import RecurrenceCompiler.Watch
import RecurrenceCompiler.Workspace.Basic
import RecurrenceCompiler.Workspace.Path
