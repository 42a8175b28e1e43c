import PointsTo.Analysis.Basic
import PointsTo.Analysis.Propagate
import PointsTo.Analysis.Query
import PointsTo.Analysis.Report
import PointsTo.Analysis.Resolve
import PointsTo.Analysis.Solve
import PointsTo.Builder.Basic
import PointsTo.Builder.Connect
import PointsTo.Builder.Instantiate
import PointsTo.Builder.Summarize
import PointsTo.CallGraph.Basic
import PointsTo.CallGraph.Direct
import PointsTo.CallGraph.Dispatch
import PointsTo.CallGraph.Resolver
import PointsTo.Config.Basic
import PointsTo.Config.Document
import PointsTo.Context
import PointsTo.Export.CallGraph
import PointsTo.Export.Config
import PointsTo.Export.Context
import PointsTo.Export.Doc
import PointsTo.Export.Pag
import PointsTo.Export.Program
import PointsTo.Failure
import PointsTo.Interning
import PointsTo.Library.Container
import PointsTo.Library.Function
import PointsTo.Library.Model
import PointsTo.Library.Sdk
import PointsTo.Library.Standard
import PointsTo.Library.Storage
import PointsTo.Library.TaskPool
import PointsTo.Library.Worker
import PointsTo.Pag.Basic
import PointsTo.Pag.Drawing
import PointsTo.Pag.Entity
import PointsTo.Pag.Summary
import PointsTo.Program.Assembly
import PointsTo.Program.Basic
import PointsTo.Program.Hierarchy
import PointsTo.Program.Listing
import PointsTo.Program.Scope
import PointsTo.Program.Signature
import PointsTo.Program.Value
import PointsTo.Proofs.Actions.Arguments
import PointsTo.Proofs.Actions.Arrows
import PointsTo.Proofs.Actions.Callbacks
import PointsTo.Proofs.Actions.Layout
import PointsTo.Proofs.Actions.Library
import PointsTo.Proofs.Actions.Requests
import PointsTo.Proofs.Actions.States
import PointsTo.Proofs.Analysis.Arguments
import PointsTo.Proofs.Analysis.Backing
import PointsTo.Proofs.Analysis.Binding
import PointsTo.Proofs.Analysis.Callbacks
import PointsTo.Proofs.Analysis.Calls
import PointsTo.Proofs.Analysis.Closure
import PointsTo.Proofs.Analysis.Completion
import PointsTo.Proofs.Analysis.Copies
import PointsTo.Proofs.Analysis.Covering
import PointsTo.Proofs.Analysis.Dispatch
import PointsTo.Proofs.Analysis.Driving
import PointsTo.Proofs.Analysis.Emptying
import PointsTo.Proofs.Analysis.Exposure
import PointsTo.Proofs.Analysis.Failures
import PointsTo.Proofs.Analysis.Imports
import PointsTo.Proofs.Analysis.Justification
import PointsTo.Proofs.Analysis.Looking
import PointsTo.Proofs.Analysis.Meetings
import PointsTo.Proofs.Analysis.OuterReceivers
import PointsTo.Proofs.Analysis.Receivers
import PointsTo.Proofs.Analysis.Regress
import PointsTo.Proofs.Analysis.Relatedness
import PointsTo.Proofs.Analysis.Scale
import PointsTo.Proofs.Analysis.Seeds
import PointsTo.Proofs.Analysis.SharedSlots
import PointsTo.Proofs.Analysis.Sharing
import PointsTo.Proofs.Analysis.Singletons
import PointsTo.Proofs.Analysis.Stability
import PointsTo.Proofs.Analysis.Termination
import PointsTo.Proofs.Analysis.Waiting
import PointsTo.Proofs.Builder.Copies
import PointsTo.Proofs.Builder.Failures
import PointsTo.Proofs.Builder.Functions
import PointsTo.Proofs.CallGraph.Bookkeeping
import PointsTo.Proofs.CallGraph.Direct
import PointsTo.Proofs.CallGraph.Draining
import PointsTo.Proofs.CallGraph.RapidTypes
import PointsTo.Proofs.CallGraph.Resolution
import PointsTo.Proofs.Config.Roundtrip
import PointsTo.Proofs.Confined.Bounds
import PointsTo.Proofs.Confined.Builder
import PointsTo.Proofs.Confined.Calls
import PointsTo.Proofs.Confined.Contexts
import PointsTo.Proofs.Confined.Layout
import PointsTo.Proofs.Confined.Propagation
import PointsTo.Proofs.Confined.Resolution
import PointsTo.Proofs.Confined.Rounds
import PointsTo.Proofs.Confined.States
import PointsTo.Proofs.Context.CallStrings
import PointsTo.Proofs.Fuel
import PointsTo.Proofs.Links.Completeness
import PointsTo.Proofs.Links.Draining
import PointsTo.Proofs.Links.Layout
import PointsTo.Proofs.Links.Library
import PointsTo.Proofs.Links.Requests
import PointsTo.Proofs.Links.States
import PointsTo.Proofs.Links.Wholeness
import PointsTo.Proofs.Lockstep.Answers
import PointsTo.Proofs.Lockstep.Builder
import PointsTo.Proofs.Lockstep.Effects
import PointsTo.Proofs.Lockstep.Layout
import PointsTo.Proofs.Lockstep.Library
import PointsTo.Proofs.Lockstep.Propagation
import PointsTo.Proofs.Lockstep.Runs
import PointsTo.Proofs.Lockstep.States
import PointsTo.Proofs.Pag.Bookkeeping
import PointsTo.Proofs.Program.Assembly
import PointsTo.Proofs.Program.Copies
import PointsTo.Proofs.Program.Dealiasing
import PointsTo.Proofs.Program.Declarations
import PointsTo.Proofs.Program.Hierarchy
import PointsTo.Proofs.Reach
import PointsTo.Proofs.Repetition.Entering
import PointsTo.Proofs.Repetition.Library
import PointsTo.Proofs.Repetition.Requests
import PointsTo.Proofs.Repetition.Resolution
import PointsTo.Proofs.Repetition.Runs
import PointsTo.Proofs.Repetition.States
import PointsTo.Proofs.Sets.Algebra
import PointsTo.Proofs.Sets.Facts
import PointsTo.Proofs.Sets.Incremental
import PointsTo.Reach
import PointsTo.Sets.Ascending
import PointsTo.Sets.BitWords
import PointsTo.Sets.DiffStore
import PointsTo.Sets.ObjSet
import PointsTo.Text.Blank
import PointsTo.Text.Dot
import PointsTo.Text.Quoted
import PointsTo.Text.Shapeless
import PointsTo.Yaml.BlockScalar
import PointsTo.Yaml.Cursor
import PointsTo.Yaml.Node
import PointsTo.Yaml.Plain
import PointsTo.Yaml.Reader
import PointsTo.Yaml.Scalar
import PointsTo.Yaml.Tag
import PointsTo.Yaml.Token
import PointsTo.Yaml.Writer
