import UnixNetwork.Kcp.Clock
import UnixNetwork.Kcp.Link
import UnixNetwork.WebSocket.Echo
import UnixNetwork.WebSocket.Agreement
import UnixNetwork.WebSocket.HandsharkBounds
import UnixNetwork.WebSocket.Received
import UnixNetwork.WebSocket.Splits
import UnixNetwork.WebSocket.Base64Decode
import UnixNetwork.WebServer.Listing
import UnixNetwork.WebServer.Confinement
import UnixNetwork.WebServer.Delivery
import UnixNetwork.WebServer.Survival
import UnixNetwork.WebServer.Alike
import UnixNetwork.WebServer.Reassembly
import UnixNetwork.WebServer.UrlCoding
import UnixNetwork.Multiplex.ReactorEcho
import UnixNetwork.Multiplex.SelectAdvance
import UnixNetwork.Multiplex.PollRounds
import UnixNetwork.Multiplex.UdpTcpSelect
import UnixNetwork.Multiplex.Libevent
import UnixNetwork.Multiplex.EdgeTriggered
import UnixNetwork.ThreadPool.Waking
import UnixNetwork.ThreadPool.Destruction
import UnixNetwork.ThreadPool.CommitOrder
import UnixNetwork.WorkQueue.Shutdown
import UnixNetwork.WorkQueue.Jobs
import UnixNetwork.MultiPort.Accounting
import UnixNetwork.MultiPort.LeftBehind
import UnixNetwork.MultiPort.Stranding
import UnixNetwork.MultiPort.Transfer
