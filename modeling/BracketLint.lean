import BracketLint.Main
import BracketLint.Proofs.Analysis.AllowComment
import BracketLint.Proofs.Analysis.DeadCode
import BracketLint.Proofs.Analysis.HiddenContents
import BracketLint.Proofs.Analysis.LineEnds
import BracketLint.Proofs.Analysis.Loops
import BracketLint.Proofs.Analysis.Render
import BracketLint.Proofs.ConfigSource
import BracketLint.Proofs.FileContext
import BracketLint.Proofs.Glob
import BracketLint.Proofs.Group.Innermost
import BracketLint.Proofs.Group.Names
import BracketLint.Proofs.Group.OnDemand
import BracketLint.Proofs.Group.Reports
import BracketLint.Proofs.Group.RoutineBodies
import BracketLint.Proofs.Group.StackMachine
import BracketLint.Proofs.Group.Word
import BracketLint.Proofs.Line.AlwaysFalse
import BracketLint.Proofs.Lines.AngleLists
import BracketLint.Proofs.Lines.Append
import BracketLint.Proofs.Lines.ByteSearch
import BracketLint.Proofs.Lines.Characters
import BracketLint.Proofs.Lines.Columns
import BracketLint.Proofs.Lines.CommentStart
import BracketLint.Proofs.Lines.FirstWords
import BracketLint.Proofs.Lines.LineComments
import BracketLint.Proofs.Lines.MessageText
import BracketLint.Proofs.Lines.RegionMachine
import BracketLint.Proofs.Lines.ReportedColumns
import BracketLint.Proofs.Lines.StatementStart
import BracketLint.Proofs.Lines.Steps
import BracketLint.Proofs.Lines.WordEnds
import BracketLint.Proofs.Linter.Batches
import BracketLint.Proofs.Linter.Checkout
import BracketLint.Proofs.Linter.Directives
import BracketLint.Proofs.Linter.Excludes
import BracketLint.Proofs.Linter.ReportedFiles
import BracketLint.Proofs.Preset
import BracketLint.Proofs.Preset.Sections
import BracketLint.Proofs.Report.Json
import BracketLint.Proofs.Rule.Excerpts
import BracketLint.Proofs.Rule.Limits
import BracketLint.Proofs.Rule.NestingDepth
import BracketLint.Proofs.Rule.RoutineName
import BracketLint.Proofs.Rule.StrangeContext
