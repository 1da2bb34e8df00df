import SindiaRpc.GuardedRuns
import SindiaRpc.Interleavings
import SindiaRpc.ListUpdates
import SindiaRpc.MatchedLists
import SindiaRpc.ByteOrders
import SindiaRpc.BoundedBuffers
import SindiaRpc.LengthFraming
import SindiaRpc.OrderedSink
import SindiaRpc.Outboxes
import SindiaRpc.PromiseTables
import SindiaRpc.TicketCounters
import SindiaRpc.MessageFrames
import SindiaRpc.HeaderCopies
import SindiaRpc.ConnectionState
import SindiaRpc.ConnectionWrites
import SindiaRpc.WriteSteps
import SindiaRpc.ReadLoop
import SindiaRpc.StreamReading
import SindiaRpc.ConnectionHistories
import SindiaRpc.StreamContents
import SindiaRpc.ReadGuards
import SindiaRpc.ClosedConnections
import SindiaRpc.ClientState
import SindiaRpc.ClientConnections
import SindiaRpc.NullConnections
import SindiaRpc.KeyedRoutes
import SindiaRpc.DispatcherTable
import SindiaRpc.RpcChannel
import SindiaRpc.RpcProcess
import SindiaRpc.PromiseKeys
import SindiaRpc.CallCorrelation
import SindiaRpc.ResponseOrder
import SindiaRpc.ConnectionIsolation
import SindiaRpc.Routing
import SindiaRpc.ResponseHistory
import SindiaRpc.PendingCalls
import SindiaRpc.FrameBounds
import SindiaRpc.CallProgress
import SindiaRpc.ProcessWrites
import SindiaRpc.EndToEnd
import SindiaRpc.Replies
import SindiaRpc.MissingHandlers
import SindiaRpc.WriteQueue
import SindiaRpc.QueueDrain
import SindiaRpc.ClientRetries
import SindiaRpc.ServerConnections
import SindiaRpc.ConnectionHolders
import SindiaRpc.WriteOwners
import SindiaRpc.NodeState
import SindiaRpc.NodeHistories
import SindiaRpc.Hosts
import SindiaRpc.ServerHost
import SindiaRpc.ClientHost
import SindiaRpc.ServedNames
import SindiaRpc.FatalMessages
import SindiaRpc.NetworkState
import SindiaRpc.NetworkDelivery
import SindiaRpc.NetworkSafety
import SindiaRpc.MessageNetwork
import SindiaRpc.HostNetwork
import SindiaRpc.ProgramCalls
import SindiaRpc.ProgramGreetings
import SindiaRpc.OrderedMail
import SindiaRpc.ClosingDown
