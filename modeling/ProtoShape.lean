import ProtoShape.Command.Arguments
import ProtoShape.Command.Checking
import ProtoShape.Command.Program
import ProtoShape.Command.Reshaping
import ProtoShape.Config
import ProtoShape.Config.Complaint
import ProtoShape.Config.File
import ProtoShape.Config.Reading
import ProtoShape.Decimal.Exact
import ProtoShape.Decimal.Text
import ProtoShape.Document
import ProtoShape.Entries
import ProtoShape.Event
import ProtoShape.Fault
import ProtoShape.FilePath
import ProtoShape.FileSystem
import ProtoShape.Json.Order
import ProtoShape.Json.Reader
import ProtoShape.Json.Writer
import ProtoShape.Key
import ProtoShape.Layout
import ProtoShape.Libraries
import ProtoShape.Location
import ProtoShape.Main
import ProtoShape.Naming
import ProtoShape.Node
import ProtoShape.Proofs.Command.Agreement
import ProtoShape.Proofs.Command.Complete
import ProtoShape.Proofs.Command.Course
import ProtoShape.Proofs.Command.Loading
import ProtoShape.Proofs.Command.Reports
import ProtoShape.Proofs.Decimal.Finite
import ProtoShape.Proofs.Documents
import ProtoShape.Proofs.Entries
import ProtoShape.Proofs.Enumerations
import ProtoShape.Proofs.Escapes
import ProtoShape.Proofs.Files
import ProtoShape.Proofs.Json.Order
import ProtoShape.Proofs.Json.RoundTrip
import ProtoShape.Proofs.Json.Tokens
import ProtoShape.Proofs.Json.Writing
import ProtoShape.Proofs.Loads
import ProtoShape.Proofs.Naming.Boundaries
import ProtoShape.Proofs.Naming.Words
import ProtoShape.Proofs.Node
import ProtoShape.Proofs.Overlays
import ProtoShape.Proofs.Paths
import ProtoShape.Proofs.Places
import ProtoShape.Proofs.Pointers
import ProtoShape.Proofs.Positions
import ProtoShape.Proofs.Repairs
import ProtoShape.Proofs.Replacement
import ProtoShape.Proofs.Report.Digests
import ProtoShape.Proofs.Report.Verdicts
import ProtoShape.Proofs.Reshape.Annotation
import ProtoShape.Proofs.Reshape.Blind
import ProtoShape.Proofs.Reshape.Boxes
import ProtoShape.Proofs.Reshape.Budget
import ProtoShape.Proofs.Reshape.Charges
import ProtoShape.Proofs.Reshape.CleanUp
import ProtoShape.Proofs.Reshape.Components
import ProtoShape.Proofs.Reshape.Declining
import ProtoShape.Proofs.Reshape.Depth
import ProtoShape.Proofs.Reshape.DueMarks
import ProtoShape.Proofs.Reshape.Edits
import ProtoShape.Proofs.Reshape.Effects
import ProtoShape.Proofs.Reshape.Enclosing
import ProtoShape.Proofs.Reshape.Enums
import ProtoShape.Proofs.Reshape.Finished
import ProtoShape.Proofs.Reshape.Fuel
import ProtoShape.Proofs.Reshape.Generation
import ProtoShape.Proofs.Reshape.Gifts
import ProtoShape.Proofs.Reshape.Given
import ProtoShape.Proofs.Reshape.Giving
import ProtoShape.Proofs.Reshape.Growth
import ProtoShape.Proofs.Reshape.Kinds
import ProtoShape.Proofs.Reshape.Leftovers
import ProtoShape.Proofs.Reshape.Log
import ProtoShape.Proofs.Reshape.MapKey
import ProtoShape.Proofs.Reshape.Maps
import ProtoShape.Proofs.Reshape.Marks
import ProtoShape.Proofs.Reshape.Numbers
import ProtoShape.Proofs.Reshape.Objects
import ProtoShape.Proofs.Reshape.Outlines
import ProtoShape.Proofs.Reshape.Pointing
import ProtoShape.Proofs.Reshape.Presence
import ProtoShape.Proofs.Reshape.Progress
import ProtoShape.Proofs.Reshape.Properties
import ProtoShape.Proofs.Reshape.Recording
import ProtoShape.Proofs.Reshape.Registered
import ProtoShape.Proofs.Reshape.Registering
import ProtoShape.Proofs.Reshape.Registry
import ProtoShape.Proofs.Reshape.Reordering
import ProtoShape.Proofs.Reshape.Reports
import ProtoShape.Proofs.Reshape.Run
import ProtoShape.Proofs.Reshape.Sections
import ProtoShape.Proofs.Reshape.Seeing
import ProtoShape.Proofs.Reshape.Sharing
import ProtoShape.Proofs.Reshape.Simplify
import ProtoShape.Proofs.Reshape.Spending
import ProtoShape.Proofs.Reshape.Standing
import ProtoShape.Proofs.Reshape.Steps
import ProtoShape.Proofs.Reshape.TidyRuns
import ProtoShape.Proofs.Reshape.Total
import ProtoShape.Proofs.Reshape.Updates
import ProtoShape.Proofs.Resolving
import ProtoShape.Proofs.Rules.Coverage
import ProtoShape.Proofs.Rules.Everywhere
import ProtoShape.Proofs.Rules.Inlining
import ProtoShape.Proofs.Rules.Merging
import ProtoShape.Proofs.Rules.NormalForm
import ProtoShape.Proofs.Rules.Tags
import ProtoShape.Proofs.Rules.TextKeys
import ProtoShape.Proofs.Rules.Tidy
import ProtoShape.Proofs.Rules.Unwrapping
import ProtoShape.Proofs.Rules.Uses
import ProtoShape.Proofs.Substitution
import ProtoShape.Proofs.Tags
import ProtoShape.Proofs.Tree
import ProtoShape.Proofs.Violations
import ProtoShape.Proofs.Visits
import ProtoShape.Proofs.Walk
import ProtoShape.Reference
import ProtoShape.Report.Digest
import ProtoShape.Report.Findings
import ProtoShape.Report.Item
import ProtoShape.Report.Lines
import ProtoShape.Report.Measure
import ProtoShape.Report.Progress
import ProtoShape.Report.Reporter
import ProtoShape.Report.Wording
import ProtoShape.Reshape.CleanUp
import ProtoShape.Reshape.MapKey
import ProtoShape.Reshape.Maps
import ProtoShape.Reshape.Phases
import ProtoShape.Reshape.Rule
import ProtoShape.Reshape.Run
import ProtoShape.Rules.Composite
import ProtoShape.Rules.Enumeration
import ProtoShape.Rules.Exclusivity
import ProtoShape.Rules.Inlining
import ProtoShape.Rules.OpenMap
import ProtoShape.Rules.Restatement
import ProtoShape.Rules.SingleMap
import ProtoShape.Rules.Union
import ProtoShape.Scalar
import ProtoShape.Stage
import ProtoShape.Stream
import ProtoShape.Text.Basic
import ProtoShape.Text.Case
import ProtoShape.Text.CaseTable
import ProtoShape.Text.Integer
import ProtoShape.Text.Quoted
import ProtoShape.Tree
import ProtoShape.Violation
import ProtoShape.Visit
import ProtoShape.Yaml.Folding
import ProtoShape.Yaml.Outline
import ProtoShape.Yaml.Plain
import ProtoShape.Yaml.Reader
import ProtoShape.Yaml.Source
import ProtoShape.Yaml.Token
import ProtoShape.Yaml.Writer
