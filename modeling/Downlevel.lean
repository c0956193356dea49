import Downlevel.Arguments
import Downlevel.Arguments.Reading
import Downlevel.Command
import Downlevel.Construct
import Downlevel.Discovery
import Downlevel.Document
import Downlevel.Edit
import Downlevel.Fault
import Downlevel.FileSystem
import Downlevel.FileSystem.Resolve
import Downlevel.Ignore.Glob
import Downlevel.Ignore.Rule
import Downlevel.Ignore.Scope
import Downlevel.Ignore.Walk
import Downlevel.Job
import Downlevel.Job.Perform
import Downlevel.Lowering
import Downlevel.Main
import Downlevel.Operator
import Downlevel.Pack
import Downlevel.Pass
import Downlevel.Path
import Downlevel.Path.Display
import Downlevel.Path.Extension
import Downlevel.Path.Order
import Downlevel.Proofs.AssertionCall
import Downlevel.Proofs.Coherence
import Downlevel.Proofs.Comments
import Downlevel.Proofs.Cut
import Downlevel.Proofs.Decided
import Downlevel.Proofs.Direction
import Downlevel.Proofs.Discovery
import Downlevel.Proofs.Enumeration
import Downlevel.Proofs.Files
import Downlevel.Proofs.FoldCall
import Downlevel.Proofs.Forced
import Downlevel.Proofs.Forest
import Downlevel.Proofs.Fronts
import Downlevel.Proofs.Gathering
import Downlevel.Proofs.Governing
import Downlevel.Proofs.Layout
import Downlevel.Proofs.Legible
import Downlevel.Proofs.NearestSettings
import Downlevel.Proofs.Nesting
import Downlevel.Proofs.Pass
import Downlevel.Proofs.PassLimit
import Downlevel.Proofs.PathOrder
import Downlevel.Proofs.Perform
import Downlevel.Proofs.Places
import Downlevel.Proofs.Reading
import Downlevel.Proofs.Recording
import Downlevel.Proofs.Recursion
import Downlevel.Proofs.Rerun
import Downlevel.Proofs.Resolution
import Downlevel.Proofs.RuleFiles
import Downlevel.Proofs.Settle
import Downlevel.Proofs.Spelling
import Downlevel.Proofs.Splice
import Downlevel.Proofs.SyntaxErrors
import Downlevel.Proofs.Tokens
import Downlevel.Proofs.Unambiguous
import Downlevel.Proofs.Uncommented
import Downlevel.Proofs.Walk
import Downlevel.Report
import Downlevel.Report.Json
import Downlevel.Report.Render
import Downlevel.Report.Table
import Downlevel.Settings
import Downlevel.Settings.Toml
import Downlevel.Settle
import Downlevel.Text.Blank
import Downlevel.Text.Cut
import Downlevel.Text.Digest
import Downlevel.Text.Lines
import Downlevel.Toml.Document
import Downlevel.Toml.Quoted
import Downlevel.Toml.Scalar
import Downlevel.Toml.Value
import Downlevel.Tools
import Downlevel.Tree.Kind
import Downlevel.Tree.Listing
import Downlevel.Tree.Node
import Downlevel.Tree.Table
