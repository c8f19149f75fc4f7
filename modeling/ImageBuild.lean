import ImageBuild.Context.Staged
import ImageBuild.Engine.Program
import ImageBuild.Main
import ImageBuild.Progress.Message
import ImageBuild.Progress.Relay
import ImageBuild.Progress.Renderer
import ImageBuild.Proofs.Archive.Additions
import ImageBuild.Proofs.Archive.Again
import ImageBuild.Proofs.Archive.Complete
import ImageBuild.Proofs.Archive.Confinement
import ImageBuild.Proofs.Archive.Directories
import ImageBuild.Proofs.Archive.Entries
import ImageBuild.Proofs.Archive.Envelope
import ImageBuild.Proofs.Archive.FailClosed
import ImageBuild.Proofs.Archive.FirstMember
import ImageBuild.Proofs.Archive.Opening
import ImageBuild.Proofs.Archive.Packing
import ImageBuild.Proofs.Archive.RoundTrip
import ImageBuild.Proofs.Archive.Tiling
import ImageBuild.Proofs.Command.Cleanup
import ImageBuild.Proofs.Command.Outcome
import ImageBuild.Proofs.Command.Shown
import ImageBuild.Proofs.Context.Classified
import ImageBuild.Proofs.Context.Materialized
import ImageBuild.Proofs.Context.Staged
import ImageBuild.Proofs.Context.Verbatim
import ImageBuild.Proofs.Path.Names
import ImageBuild.Proofs.Progress.Pages
import ImageBuild.Proofs.Progress.Relay
import ImageBuild.Proofs.Reference.Familiar
import ImageBuild.Proofs.Reference.Grammar
import ImageBuild.Proofs.Reference.Parsing
import ImageBuild.Proofs.Reference.RoundTrip
import ImageBuild.Proofs.Request.Attributes
import ImageBuild.Proofs.Request.Options
import ImageBuild.Proofs.Solve.Ends
import ImageBuild.Proofs.Solve.HangUp
import ImageBuild.Proofs.Solve.Steps
import ImageBuild.Proofs.Solve.Success
import ImageBuild.Proofs.Stream.Reading
import ImageBuild.Proofs.Tar.Fields
import ImageBuild.Proofs.Tar.FirstBlock
import ImageBuild.Proofs.Tar.Layout
import ImageBuild.Proofs.Tar.Search
import ImageBuild.Proofs.Tar.Sharing
import ImageBuild.Proofs.TaskGroup.FirstFailure
import ImageBuild.Proofs.TaskGroup.Scope
import ImageBuild.Proofs.TaskGroup.Steps
import ImageBuild.Proofs.TaskGroup.Unwinding
import ImageBuild.Proofs.Tree.Additions
import ImageBuild.Proofs.Tree.Anchored
import ImageBuild.Proofs.Tree.Below
import ImageBuild.Proofs.Tree.Change
import ImageBuild.Proofs.Tree.Confined
import ImageBuild.Proofs.Tree.Culprit
import ImageBuild.Proofs.Tree.Growth
import ImageBuild.Proofs.Tree.Inside
import ImageBuild.Proofs.Tree.Lexical
import ImageBuild.Proofs.Tree.Making
import ImageBuild.Proofs.Tree.Resolution
import ImageBuild.Proofs.Tree.Settled
import ImageBuild.Proofs.Tree.Walk
import ImageBuild.Request.Solve
import ImageBuild.TaskGroup.Timed
import ImageBuild.Proofs.Context.Chunks
import ImageBuild.Proofs.Context.Clamped
import ImageBuild.Proofs.Solve.Scripted
import ImageBuild.Proofs.Text.Utf8
import ImageBuild.Proofs.Engine.Line
import ImageBuild.Proofs.Engine.Output
import ImageBuild.Proofs.Progress.Delivery
import ImageBuild.Proofs.Request.FirstOffence
import ImageBuild.Proofs.Request.Names
import ImageBuild.Proofs.Request.Recipe
import ImageBuild.Proofs.Text.Json
import ImageBuild.Proofs.Text.JsonReading
import ImageBuild.Request.Reading
import ImageBuild.Proofs.Request.Line
import ImageBuild.Proofs.Progress.Announced
import ImageBuild.Proofs.Archive.Bounded
import ImageBuild.Proofs.Config.Layers
import ImageBuild.Proofs.Progress.Numbers
