import EventSeq.Lib.Runs
import EventSeq.Lib.KeyedList
import EventSeq.Fault
import EventSeq.Time
import EventSeq.Modifiers
import EventSeq.Lib.LinkedRing
import EventSeq.Events
import EventSeq.EventRing
import EventSeq.EventOrder
import EventSeq.EventRingRuns
import EventSeq.Lib.CircularBuffer
import EventSeq.Lib.Probing
import EventSeq.HashTable
import EventSeq.HashTableMap
import EventSeq.HashTableInsert
import EventSeq.HashTableRuns
import EventSeq.EventPredicate
import EventSeq.Queue
import EventSeq.Graph
import EventSeq.Nodes
import EventSeq.NodeEffects
import EventSeq.Sources
import EventSeq.Window
import EventSeq.Processing
import EventSeq.Handlers
import EventSeq.TimeToLive
import EventSeq.WindowEvents
import EventSeq.Orphans
import EventSeq.Provenance
import EventSeq.SchedulerRuns
import EventSeq.Draining
import EventSeq.TimeOrder
import EventSeq.PriorityOrder
import EventSeq.Lib.DepthFirst
import EventSeq.Interpreter
import EventSeq.WindowRuns
import EventSeq.WindowArrivals
import EventSeq.Delays
import EventSeq.StablePass
import EventSeq.WindowTrigger
import EventSeq.WindowInvariant
import EventSeq.WindowRepresentation
import EventSeq.WindowFailures
import EventSeq.NewWindow
import EventSeq.HashTableReturns
import EventSeq.WindowReturns
import EventSeq.Lib.Links
import EventSeq.Connections
import EventSeq.ConnectionRuns
import EventSeq.ConnectorLists
import EventSeq.UinputCreation
import EventSeq.Config
import EventSeq.Constants
import EventSeq.PredicateLoading
import EventSeq.FanOut
import EventSeq.PredicateFrame
import EventSeq.Streams
import EventSeq.AmortizedScaling
import EventSeq.ModifierSets
import EventSeq.TimeArithmetic
import EventSeq.HashTableLength
import EventSeq.HashTableCoverage
import EventSeq.HashTableRebuild
import EventSeq.HashTableIndex
import EventSeq.PredicateMeaning
import EventSeq.Configured
import EventSeq.ModuleRegistry
import EventSeq.Startup
import EventSeq.NodeConfiguration
import EventSeq.StartupGraph
import EventSeq.StartupExits
import EventSeq.ConfiguredRouting
import EventSeq.RunningProgram
import EventSeq.SchedulerReturns
import EventSeq.Lib.Cells
import EventSeq.Subscriptions
import EventSeq.ProcessIo
import EventSeq.MainLoop
import EventSeq.MainLoopReturns
import EventSeq.Lib.RewritingRuns
import EventSeq.MainLoopMeaning
