import ClosurePipeline.Command.Basic
import ClosurePipeline.Command.Line
import ClosurePipeline.Command.Reach
import ClosurePipeline.Command.Run
import ClosurePipeline.Diagnostic
import ClosurePipeline.Disk.Basic
import ClosurePipeline.Disk.Change
import ClosurePipeline.Edit.Script
import ClosurePipeline.Error
import ClosurePipeline.Host.Basic
import ClosurePipeline.Host.Disk
import ClosurePipeline.Host.Memory
import ClosurePipeline.Json.Basic
import ClosurePipeline.Json.Reader
import ClosurePipeline.Json.Record
import ClosurePipeline.Main
import ClosurePipeline.Module.Clause
import ClosurePipeline.Module.Cursor
import ClosurePipeline.Module.Declaration
import ClosurePipeline.Module.Scan
import ClosurePipeline.Module.Summary
import ClosurePipeline.Output.Emitter
import ClosurePipeline.Output.GoogModule
import ClosurePipeline.Output.Manifest
import ClosurePipeline.Pass.Basic
import ClosurePipeline.Pass.ClosureDocs
import ClosurePipeline.Pass.Context
import ClosurePipeline.Pass.Downlevel
import ClosurePipeline.Path.Ancestors
import ClosurePipeline.Path.Basic
import ClosurePipeline.Path.Naming
import ClosurePipeline.Path.Normal
import ClosurePipeline.Path.Table
import ClosurePipeline.Pipeline.Basic
import ClosurePipeline.Pipeline.Ledger
import ClosurePipeline.Program.Bootstrap
import ClosurePipeline.Program.Generation
import ClosurePipeline.Program.Symbol
import ClosurePipeline.Project.Config
import ClosurePipeline.Project.Policy
import ClosurePipeline.SourceMap.Basic
import ClosurePipeline.SourceMap.Document
import ClosurePipeline.SourceMap.Draft
import ClosurePipeline.SourceMap.Fragment
import ClosurePipeline.SourceMap.Mappings
import ClosurePipeline.SourceMap.Retrace
import ClosurePipeline.SourceMap.Vlq
import ClosurePipeline.Text.Blank
import ClosurePipeline.Text.Joined
import ClosurePipeline.Text.Letter
import ClosurePipeline.Text.Measure
import ClosurePipeline.Text.Printable
import ClosurePipeline.Text.Quoted
import ClosurePipeline.Token.Basic
import ClosurePipeline.Token.Lexer
import ClosurePipeline.Proofs.Edit.Copied
import ClosurePipeline.Proofs.Edit.Exact
import ClosurePipeline.Proofs.Edit.Places
import ClosurePipeline.Proofs.Host.Memory
import ClosurePipeline.Proofs.Host.Outputs
import ClosurePipeline.Proofs.Host.Probing
import ClosurePipeline.Proofs.Json.RoundTrip
import ClosurePipeline.Proofs.Module.Names
import ClosurePipeline.Proofs.Output.Calls
import ClosurePipeline.Proofs.Output.Emitter
import ClosurePipeline.Proofs.Output.ModuleLines
import ClosurePipeline.Proofs.Path.Below
import ClosurePipeline.Proofs.Path.Normal
import ClosurePipeline.Proofs.Path.Relative
import ClosurePipeline.Proofs.Path.Resolved
import ClosurePipeline.Proofs.Path.Specifier
import ClosurePipeline.Proofs.Path.Table
import ClosurePipeline.Proofs.Pipeline.Bookkeeping
import ClosurePipeline.Proofs.Pipeline.Compose
import ClosurePipeline.Proofs.Pipeline.Emission
import ClosurePipeline.Proofs.Pipeline.Externs
import ClosurePipeline.Proofs.Pipeline.Ledger
import ClosurePipeline.Proofs.Pipeline.Lines
import ClosurePipeline.Proofs.Pipeline.Notes
import ClosurePipeline.Proofs.Pipeline.Passes
import ClosurePipeline.Proofs.Pipeline.Places
import ClosurePipeline.Proofs.Pipeline.Repeats
import ClosurePipeline.Proofs.Pipeline.Requires
import ClosurePipeline.Proofs.Pipeline.Rerun
import ClosurePipeline.Proofs.Pipeline.Sight
import ClosurePipeline.Proofs.Pipeline.Writes
import ClosurePipeline.Proofs.Program.Bootstrap
import ClosurePipeline.Proofs.Program.Load
import ClosurePipeline.Proofs.Program.Project
import ClosurePipeline.Proofs.Program.Symbol
import ClosurePipeline.Proofs.Project.Naming
import ClosurePipeline.Proofs.Search
import ClosurePipeline.Proofs.SourceMap.Document
import ClosurePipeline.Proofs.SourceMap.Fragment
import ClosurePipeline.Proofs.SourceMap.Pushed
import ClosurePipeline.Proofs.SourceMap.Mappings
import ClosurePipeline.Proofs.SourceMap.Retrace
import ClosurePipeline.Proofs.SourceMap.Vlq
import ClosurePipeline.Proofs.Pipeline.Shared
import ClosurePipeline.Proofs.Pipeline.Refused
import ClosurePipeline.Proofs.Output.GoogModule
import ClosurePipeline.Proofs.Pipeline.Commits
import ClosurePipeline.Proofs.Module.Printed
import ClosurePipeline.Proofs.Module.Programs
import ClosurePipeline.Proofs.SourceMap.Circulation
import ClosurePipeline.Proofs.SourceMap.Words
import ClosurePipeline.Proofs.SourceMap.Numerals
import ClosurePipeline.Proofs.SourceMap.Sums
import ClosurePipeline.Proofs.SourceMap.Listed
import ClosurePipeline.Proofs.Token.Lexemes
import ClosurePipeline.Proofs.Token.Tiling
import ClosurePipeline.Proofs.Token.Local
import ClosurePipeline.Proofs.Token.Commented
import ClosurePipeline.Proofs.Module.Onward
import ClosurePipeline.Proofs.Module.Declared
import ClosurePipeline.Proofs.Module.Noted
import ClosurePipeline.Proofs.Module.Reread
import ClosurePipeline.Proofs.Module.Retold
import ClosurePipeline.Proofs.Module.Rescan
import ClosurePipeline.Proofs.Pass.Comments
import ClosurePipeline.Proofs.Token.Lines
import ClosurePipeline.Proofs.Token.Templates
import ClosurePipeline.Proofs.Module.Laid
import ClosurePipeline.Proofs.Module.Classes
import ClosurePipeline.Proofs.Pass.Written
import ClosurePipeline.Proofs.Pass.Kept
import ClosurePipeline.Proofs.Pass.Annotated
import ClosurePipeline.Proofs.Pass.Settled
import ClosurePipeline.Proofs.Module.Access
import ClosurePipeline.Proofs.Module.Found
import ClosurePipeline.Proofs.Module.Indexed
import ClosurePipeline.Proofs.Module.Spans
import ClosurePipeline.Proofs.Module.Parsed
import ClosurePipeline.Proofs.Pass.Shims
import ClosurePipeline.Proofs.Pipeline.Keys
import ClosurePipeline.Proofs.Token.Wide
import ClosurePipeline.Proofs.Token.Bytes
