import Cerebellum.Lib.Probing
import Cerebellum.Lib.Bytes
import Cerebellum.Lib.CheckedBytes
import Cerebellum.Lib.CheckedLoop
import Cerebellum.Lib.OnesComplement
import Cerebellum.Lib.Ownership
import Cerebellum.Lib.Numerals
import Cerebellum.Lib.Scanf
import Cerebellum.Lib.ShiftRegister
import Cerebellum.Lib.Remainders
import Cerebellum.Lib.Completions
import Cerebellum.Lib.Registry
import Cerebellum.Lib.Simulation
import Cerebellum.Lib.Bindings
import Cerebellum.Net.FlowKey
import Cerebellum.Net.FlowHash
import Cerebellum.Common.AddressText
import Cerebellum.Common.NetTypes
import Cerebellum.Common.ConfigLoader
import Cerebellum.Lb.PortPool
import Cerebellum.Lb.PortShares
import Cerebellum.Lb.BackendPool
import Cerebellum.Lb.NatTable
import Cerebellum.Lb.NatTableSpec
import Cerebellum.Lb.FlowCount
import Cerebellum.Graph.Graph
import Cerebellum.Graph.Dispatcher
import Cerebellum.Graph.Delivery
import Cerebellum.Graph.ScratchFrames
import Cerebellum.Graph.Conservation
import Cerebellum.Graph.FrameReturn
import Cerebellum.Graph.Transit
import Cerebellum.Graph.FrameReserve
import Cerebellum.Graph.Lanes
import Cerebellum.Graph.PacketMeta
import Cerebellum.Net.Frame
import Cerebellum.Nodes.Ip4ParseNode
import Cerebellum.Nodes.RewriteNodes
import Cerebellum.Nodes.LbNode
import Cerebellum.Nodes.LbSteps
import Cerebellum.Nodes.FlowCount
import Cerebellum.Nodes.FlowCounters
import Cerebellum.Nodes.ForwardMap
import Cerebellum.Nodes.PortConservation
import Cerebellum.Nodes.PortCapacity
import Cerebellum.Nodes.ExpiredPorts
import Cerebellum.Nodes.ReplyTuples
import Cerebellum.Nodes.ReverseIndex
import Cerebellum.Nodes.Drain
import Cerebellum.Nodes.Affinity
import Cerebellum.Nodes.TcpClose
import Cerebellum.Nodes.Isolation
import Cerebellum.Nodes.Teardown
import Cerebellum.Nodes.IdleTime
import Cerebellum.Nodes.RepeatedBackends
import Cerebellum.Nodes.Tracker
import Cerebellum.Nodes.Refinement
import Cerebellum.Nodes.LastSender
import Cerebellum.Nodes.Pipeline
import Cerebellum.Nodes.Distributor
import Cerebellum.Nodes.Steering
import Cerebellum.Nodes.HashSpread
import Cerebellum.Nodes.GraphNodes
import Cerebellum.Nodes.MainGraphs
import Cerebellum.Nodes.MainReserve
import Cerebellum.Nodes.NodeOrder
import Cerebellum.Nodes.RunOrder
import Cerebellum.Nodes.PacketOrder
import Cerebellum.Nodes.CoreConservation
import Cerebellum.Nodes.BurstForwarding
import Cerebellum.Nodes.Contracts
import Cerebellum.Nodes.FrameContents
import Cerebellum.Nodes.CoreContents
import Cerebellum.Nodes.VectorProcessing
import Cerebellum.Nodes.CheckedPipeline
import Cerebellum.Nodes.ValidChecksums
import Cerebellum.Ipc.ControlView
import Cerebellum.Ipc.ControlSnapshots
import Cerebellum.Ipc.SharedSegment
import Cerebellum.Ipc.PoolConstruction
import Cerebellum.Ipc.ShmProvider
import Cerebellum.Ipc.ShmSafety
import Cerebellum.Ipc.ShmSharing
import Cerebellum.Nodes.CheckedLbNode
import Cerebellum.Stats.StatsAggregator
import Cerebellum.Nodes.Layout
import Cerebellum.Nodes.Dataplane
import Cerebellum.Nodes.Traffic
import Cerebellum.Nodes.LcoreResources
import Cerebellum.Health.HealthChecker
import Cerebellum.Monitor.MonitorComponent
import Cerebellum.Monitor.ControlAgreement
import Cerebellum.Monitor.FailedProbes
import Cerebellum.Monitor.Service
import Cerebellum.Monitor.HealthToFlows
