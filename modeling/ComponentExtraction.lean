import ComponentExtraction.Command.Arguments
import ComponentExtraction.Command.Failure
import ComponentExtraction.Command.Number
import ComponentExtraction.Command.Options
import ComponentExtraction.Command.Perform
import ComponentExtraction.Command.Report
import ComponentExtraction.Component.Name
import ComponentExtraction.Component.Rendering
import ComponentExtraction.Component.Settings
import ComponentExtraction.Component.SettingsReader
import ComponentExtraction.Expression.Directive
import ComponentExtraction.Expression.Lexeme
import ComponentExtraction.Expression.Operator
import ComponentExtraction.Expression.Parser
import ComponentExtraction.Expression.Parsing
import ComponentExtraction.Expression.Token
import ComponentExtraction.Extraction.Error
import ComponentExtraction.Extraction.Plan
import ComponentExtraction.Extraction.PlanJson
import ComponentExtraction.Extraction.Selection
import ComponentExtraction.Extraction.Session
import ComponentExtraction.Fragment.Binding
import ComponentExtraction.Fragment.Handler
import ComponentExtraction.Fragment.Reference
import ComponentExtraction.Fragment.Scan
import ComponentExtraction.Fragment.Selection
import ComponentExtraction.HostClass.Class
import ComponentExtraction.HostClass.Declaration
import ComponentExtraction.HostClass.Expression
import ComponentExtraction.HostClass.Grammar
import ComponentExtraction.HostClass.Interchange
import ComponentExtraction.HostClass.Lexeme
import ComponentExtraction.HostClass.Member
import ComponentExtraction.HostClass.Modifier
import ComponentExtraction.HostClass.Operand
import ComponentExtraction.HostClass.Reader
import ComponentExtraction.HostClass.Signature
import ComponentExtraction.HostClass.Statement
import ComponentExtraction.HostClass.Symbols
import ComponentExtraction.HostClass.Token
import ComponentExtraction.HostClass.Type
import ComponentExtraction.HostClass.Value
import ComponentExtraction.Json.Basic
import ComponentExtraction.Json.Printer
import ComponentExtraction.Json.Reader
import ComponentExtraction.Main
import ComponentExtraction.Markup.Attribute
import ComponentExtraction.Markup.Interpolation
import ComponentExtraction.Markup.Nesting
import ComponentExtraction.Markup.Piece
import ComponentExtraction.Markup.Tag
import ComponentExtraction.Sequence.Distinct
import ComponentExtraction.Sequence.Entries
import ComponentExtraction.Sequence.Sorted
import ComponentExtraction.Source.Diagnostic
import ComponentExtraction.Source.Location
import ComponentExtraction.Source.Span
import ComponentExtraction.Symbols.Reader
import ComponentExtraction.Symbols.Table
import ComponentExtraction.Text.Basic
import ComponentExtraction.Text.Blank
import ComponentExtraction.Text.Classes
import ComponentExtraction.Text.Cursor
import ComponentExtraction.Text.Edit
import ComponentExtraction.Text.Letters
import ComponentExtraction.Text.Uppercase
import ComponentExtraction.Tree.Kind
import ComponentExtraction.Tree.Node
import ComponentExtraction.Tree.Template
import ComponentExtraction.Workspace.Access
import ComponentExtraction.Workspace.Path
import ComponentExtraction.Workspace.Store
import ComponentExtraction.Proofs.Component.Candidate
import ComponentExtraction.Proofs.Expression.Shape
import ComponentExtraction.Proofs.Extraction.Closure
import ComponentExtraction.Proofs.Extraction.Locality
import ComponentExtraction.Proofs.Extraction.Replacement
import ComponentExtraction.Proofs.Extraction.Success
import ComponentExtraction.Proofs.Extraction.Wiring
import ComponentExtraction.Proofs.Fragment.Reference
import ComponentExtraction.Proofs.Fragment.Scan
import ComponentExtraction.Proofs.Markup.Shape
import ComponentExtraction.Proofs.Sequence.Distinct
import ComponentExtraction.Proofs.Tree.Occurrence
import ComponentExtraction.Proofs.Tree.Shape
import ComponentExtraction.Proofs.Text.Boundary
import ComponentExtraction.Proofs.Tree.Placement
import ComponentExtraction.Proofs.Expression.Placement
import ComponentExtraction.Proofs.Expression.Entries
import ComponentExtraction.Proofs.Extraction.Tiling
import ComponentExtraction.Proofs.Component.Rewriting
import ComponentExtraction.Proofs.Extraction.Rendering
import ComponentExtraction.Proofs.Extraction.Safety
import ComponentExtraction.Proofs.Workspace.Store
import ComponentExtraction.Proofs.Command.Course
import ComponentExtraction.Proofs.Command.Output
import ComponentExtraction.Proofs.Expression.Excerpt
import ComponentExtraction.Proofs.Markup.Reuse
import ComponentExtraction.Proofs.Markup.Written
import ComponentExtraction.Proofs.Component.Invocation
import ComponentExtraction.Proofs.Markup.Outline
import ComponentExtraction.Proofs.Markup.Relocation
import ComponentExtraction.Proofs.Markup.Cut
import ComponentExtraction.Proofs.Expression.Leaves
import ComponentExtraction.Proofs.Extraction.Members
import ComponentExtraction.Proofs.Markup.Forest
import ComponentExtraction.Proofs.Expression.Precedence
import ComponentExtraction.Proofs.Expression.Level
import ComponentExtraction.Proofs.Markup.Value
import ComponentExtraction.Proofs.Fragment.Coverage
import ComponentExtraction.Proofs.Component.Order
import ComponentExtraction.Proofs.Expression.Continuation
import ComponentExtraction.Proofs.Expression.Pieces
import ComponentExtraction.Proofs.Expression.Microsyntax
import ComponentExtraction.Proofs.Markup.Closing
import ComponentExtraction.Proofs.Fragment.Enclosure
import ComponentExtraction.Proofs.Markup.Substitution
import ComponentExtraction.Proofs.Extraction.Aftermath
import ComponentExtraction.Proofs.Fragment.TopLevel
import ComponentExtraction.Proofs.Fragment.Inputs
import ComponentExtraction.Proofs.Fragment.Content
import ComponentExtraction.Proofs.Fragment.Element
import ComponentExtraction.Proofs.Text.Batch
import ComponentExtraction.Proofs.Expression.Partition
import ComponentExtraction.Proofs.Expression.Quotation
import ComponentExtraction.Proofs.Extraction.Lines
import ComponentExtraction.Proofs.Component.Name
import ComponentExtraction.Proofs.Component.Forwarding
import ComponentExtraction.Proofs.Tree.Navigation
import ComponentExtraction.Proofs.Expression.Severity
import ComponentExtraction.Proofs.Markup.Interpolation
import ComponentExtraction.Proofs.Expression.Progress
import ComponentExtraction.Proofs.Markup.Progress
import ComponentExtraction.Proofs.Extraction.Stages
import ComponentExtraction.Proofs.Symbols.Resolution
