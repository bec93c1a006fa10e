import CortexFlow.Lib.Machine
import CortexFlow.Lib.Heap
import CortexFlow.Lib.Handle
import CortexFlow.Core
import CortexFlow.Timer.Service
import CortexFlow.Timer.Table
import CortexFlow.Timer.Refinement
import CortexFlow.Timer.Arithmetic
import CortexFlow.Timer.Tombstones
import CortexFlow.Clock.Manual
import CortexFlow.Cache.Pool
import CortexFlow.Cache.Ownership
import CortexFlow.Cache.Registry
import CortexFlow.Cache.Store
import CortexFlow.Cache.Restart
import CortexFlow.Lib.Slot
import CortexFlow.Lib.Object
import CortexFlow.Lib.Lock
import CortexFlow.Lib.HeapMoves
import CortexFlow.Lib.Regex
import CortexFlow.Flow.Basic
import CortexFlow.Flow.Locals
import CortexFlow.Flow.Directives
import CortexFlow.Runtime.Basic
import CortexFlow.Runtime.Rules
import CortexFlow.Runtime.Effects
import CortexFlow.Runtime.Delivery
import CortexFlow.Runtime.Wakeup
import CortexFlow.Runtime.Sleep
import CortexFlow.Runtime.Lifecycle
import CortexFlow.Runtime.Phases
import CortexFlow.Runtime.Shutdown
import CortexFlow.Runtime.Tuple
import CortexFlow.Runtime.Pending
import CortexFlow.Runtime.Stream
import CortexFlow.Runtime.Teardown
import CortexFlow.Locks.Basic
import CortexFlow.Locks.SelfLock
import CortexFlow.Routing.Basic
import CortexFlow.Routing.Dispatch
import CortexFlow.Messaging.Basic
import CortexFlow.Messaging.Ownership
import CortexFlow.Messaging.Accounts
import CortexFlow.Messaging.Balance
import CortexFlow.Messaging.Linear
import CortexFlow.Cached.Basic
import CortexFlow.Cached.Convergence
import CortexFlow.Owner.Basic
import CortexFlow.ButtonPipeline.ClickClassifier
import CortexFlow.App.Basic
import CortexFlow.App.Atomic
import CortexFlow.App.World
import CortexFlow.App.Refinement
import CortexFlow.App.Simulation
import CortexFlow.App.FlowModule
import CortexFlow.ButtonPipeline.Modules
import CortexFlow.ButtonPipeline.Signals
import CortexFlow.ButtonPipeline.Pipeline
import CortexFlow.ButtonPipeline.Timing
import CortexFlow.ButtonPipeline.Wiring
import CortexFlow.ButtonPipeline.Lifecycle
import CortexFlow.ButtonPipeline.Theorems
import CortexFlow.ButtonPipeline.Lockout
import CortexFlow.Owner.Timers
import CortexFlow.Diagrams.BraceScope
import CortexFlow.Diagrams.Declarations
import CortexFlow.Lib.RegexSearch
import CortexFlow.Diagrams.Comments
import CortexFlow.Diagrams.Patterns
import CortexFlow.Diagrams.Walk
import CortexFlow.Diagrams.Signature
import CortexFlow.Diagrams.Hidden
import CortexFlow.Diagrams.Invisible
import CortexFlow.Lib.Subobject
import CortexFlow.Lib.Token
import CortexFlow.Tracing.Basic
import CortexFlow.Tracing.Causality
import CortexFlow.Tracing.Naming
import CortexFlow.Tracing.Sink
import CortexFlow.Diagrams.Neutralize
import CortexFlow.Diagrams.Tokens
import CortexFlow.Diagrams.FlowEdges
import CortexFlow.Diagrams.Names
import CortexFlow.Diagrams.Plain
import CortexFlow.Diagrams.Handlers
import CortexFlow.Diagrams.Guards
import CortexFlow.Lib.Cpp
import CortexFlow.Lib.RegexSpans
import CortexFlow.Lib.RegexMatch
import CortexFlow.Lib.Brackets
import CortexFlow.Diagrams.Items
import CortexFlow.Diagrams.Rendered
import CortexFlow.Diagrams.Heads
import CortexFlow.Diagrams.FunctionNames
import CortexFlow.Diagrams.Scoped
import CortexFlow.Diagrams.Parse
import CortexFlow.Diagrams.Subset
import CortexFlow.Diagrams.Labels
import CortexFlow.Diagrams.ModuleGraph
import CortexFlow.Diagrams.FlowDiagram
import CortexFlow.Diagrams.FlowMeaning
import CortexFlow.Lib.Lines
import CortexFlow.MinimalApp.Modules
import CortexFlow.MinimalApp.Rounds
import CortexFlow.MinimalApp.Theorems
import CortexFlow.Diagrams.Mermaid
import CortexFlow.Diagrams.Cli
import CortexFlow.Lib.FirstSeen
import CortexFlow.Diagrams.Relationships
