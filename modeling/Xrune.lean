import Xrune.Support.Runs
import Xrune.Support.Graph
import Xrune.Support.Countdown
import Xrune.Support.Kahn
import Xrune.Support.Dataflow
import Xrune.Nodes.Standard
import Xrune.Core.Wiring
import Xrune.Nodes.Traps
import Xrune.Json.Decimal
import Xrune.Serialize.Write
import Xrune.Serialize.Loaded
import Xrune.Schedule.Terminals
import Xrune.Schedule.AnyOrder
import Xrune.Engine.Vectors
import Xrune.Runtime.Conservation
import Xrune.Runtime.Handles
import Xrune.Runtime.Events
import Xrune.Runtime.Blocks
import Xrune.Lang.Fuel
import Xrune.Lang.Sound
import Xrune.Lang.Independent
import Xrune.Runtime.QueueSafe
import Xrune.Schedule.Layout64
import Xrune.Lang.Total
import Xrune.Lang.Printer
import Xrune.Schedule.Controls
import Xrune.Runtime.Ranges
import Xrune.Lang.Arity
import Xrune.Lang.Account
import Xrune.Lang.Outputs
import Xrune.Lang.Addresses
import Xrune.Runtime.Host
import Xrune.Runtime.Refs
import Xrune.Runtime.Tenure
import Xrune.Runtime.Watch
import Xrune.Runtime.Lifetimes
import Xrune.Core.Builder
import Xrune.Runtime.Designated
import Xrune.Tools.FaustIndex
import Xrune.Memory.Arena
import Xrune.Serialize.Dot
import Xrune.Memory.Build
import Xrune.Memory.Simd
import Xrune.Nodes.Ends
import Xrune.Support.DelayLine
import Xrune.Nodes.Halfband
import Xrune.Core.Ring
import Xrune.Nodes.Fourier
import Xrune.Nodes.Ola
import Xrune.Runtime.Lives
import Xrune.Runtime.Reaping
import Xrune.Lang.Declared
import Xrune.Serialize.Saved
import Xrune.Serialize.Params
import Xrune.Json.Grammar
import Xrune.Json.Strict
import Xrune.Lang.Expansion
import Xrune.Support.Fuelled
import Xrune.Lang.Ends
import Xrune.Schedule.Regroup
import Xrune.Runtime.Recital
import Xrune.Runtime.Load
