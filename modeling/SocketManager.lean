import SocketManager.Outgoing.Closed
import SocketManager.Incoming.BufReadWrite
import SocketManager.Incoming.Session
import SocketManager.Incoming.Reader
import SocketManager.Incoming.Stream
import SocketManager.Manager.Conn
import SocketManager.Manager.ConnSteps
import SocketManager.Manager.Protocol
import SocketManager.Manager.Model
import SocketManager.Manager.Steps
import SocketManager.Manager.Events
import SocketManager.Manager.Quiet
import SocketManager.Manager.Registry
import SocketManager.Manager.Close
import SocketManager.Manager.Listeners
import SocketManager.Outgoing.Tick
import SocketManager.Outgoing.Async
import SocketManager.Outgoing.Block
import SocketManager.Manager.Accept
import SocketManager.Api.SocketAddr
import SocketManager.Api.Callback
import SocketManager.Api.Connection
import SocketManager.Manager.Join
import SocketManager.Manager.Shutdown
import SocketManager.Outgoing.Wakers
import SocketManager.Api.MsgSender
import SocketManager.Manager.LateClose
import SocketManager.Manager.CancelOnRequest
import SocketManager.Incoming.Flag
import SocketManager.Incoming.Uses
import SocketManager.Manager.Arbitration
import SocketManager.Lib.Custody
import SocketManager.Api.Waker
import SocketManager.Api.WakerCustody
import SocketManager.Duplex.Close
import SocketManager.Duplex.Graceful
import SocketManager.Transfer.Delivery
import SocketManager.Api.ParseAddr
import SocketManager.Outgoing.Pressure
import SocketManager.Transfer.Echo
import SocketManager.Transfer.EchoFinish
import SocketManager.Outgoing.SendBlock
import SocketManager.Transfer.Peers
import SocketManager.Transfer.PeersClose
