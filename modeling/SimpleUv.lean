import SimpleUv.Foundations.StreamDecoder
import SimpleUv.Foundations.Overwrite
import SimpleUv.Foundations.Transition
import SimpleUv.Foundations.Interleaving
import SimpleUv.Foundations.Ring
import SimpleUv.Foundations.Simulation
import SimpleUv.Foundations.BoundedQueue
import SimpleUv.Foundations.LendingPool
import SimpleUv.Foundations.Positional
import SimpleUv.Foundations.LengthPrefix
import SimpleUv.Foundations.Behaviour
import SimpleUv.Foundations.BinaryHeap
import SimpleUv.Machine.Build
import SimpleUv.Machine.Endian
import SimpleUv.Machine.Memory
import SimpleUv.NetBase.Codec
import SimpleUv.NetBase.Int64
import SimpleUv.NetBase.Wire
import SimpleUv.Libuv.Heap
import SimpleUv.Libuv.HeapOrder
import SimpleUv.Libuv.Timer
import SimpleUv.Libuv.RunTimers
import SimpleUv.Libuv.Queue
import SimpleUv.Libuv.Async
import SimpleUv.Libuv.Awake
import SimpleUv.MsgFraming.Reader
import SimpleUv.MsgFraming.Loop
import SimpleUv.MsgFraming.Callbacks
import SimpleUv.MsgFraming.Safety
import SimpleUv.MsgFraming.RoundTrip
import SimpleUv.MsgFraming.Errors
import SimpleUv.PacketSync.Parser
import SimpleUv.PacketSync.Reference
import SimpleUv.PacketSync.Invariant
import SimpleUv.PacketSync.Search
import SimpleUv.PacketSync.Frame
import SimpleUv.PacketSync.Calls
import SimpleUv.PacketSync.Refinement
import SimpleUv.PacketSync.Narrowing
import SimpleUv.PacketSync.Overlong
import SimpleUv.PacketSync.Termination
import SimpleUv.PacketSync.Deliveries
import SimpleUv.PacketSync.Framing
import SimpleUv.PacketSync.Delimiters
import SimpleUv.PacketSync.WordSize
import SimpleUv.PacketSync.Uninitialised
import SimpleUv.PacketSync.RoundTrip
import SimpleUv.PacketSync.ParsePacket
import SimpleUv.PacketSync.Session
import SimpleUv.TcpHandle.Waiting
import SimpleUv.TcpServer.Server
import SimpleUv.TcpServer.Isolation
import SimpleUv.TcpServer.Control
import SimpleUv.TcpServer.Ownership
import SimpleUv.TcpServer.Custody
import SimpleUv.TcpServer.Pool
import SimpleUv.TcpServer.Closing
import SimpleUv.TcpServer.Sending
import SimpleUv.TcpServer.Requests
import SimpleUv.TcpServer.Gateway
import SimpleUv.TcpServer.StartCycles
import SimpleUv.TcpClient.PodCircularBuffer
import SimpleUv.TcpClient.BoundedFifo
import SimpleUv.TcpClient.Outbound
import SimpleUv.TcpClient.Requests
import SimpleUv.TcpClient.Client
import SimpleUv.TcpClient.Control
import SimpleUv.TcpClient.Pipe
import SimpleUv.TcpClient.Stream
import SimpleUv.TcpClient.Reception
import SimpleUv.TcpClient.Lifecycle
import SimpleUv.TcpClient.HandleQueue
import SimpleUv.TcpClient.Wakeup
import SimpleUv.TcpClient.Atomicity
import SimpleUv.TcpClient.Sequence
import SimpleUv.TcpClient.EndToEnd
import SimpleUv.TcpClient.Alignment
import SimpleUv.TcpClient.LoopThreadSend
import SimpleUv.TcpClient.ConnectCycles
import SimpleUv.TcpHandle.Cycles
import SimpleUv.Thread.MsgQueue
import SimpleUv.Thread.Dispatch
import SimpleUv.Thread.Callback
import SimpleUv.Thread.Registry
import SimpleUv.Thread.Replication
import SimpleUv.Thread.Registration
import SimpleUv.Thread.Handle
import SimpleUv.Libuv.Address
import SimpleUv.Log4z.Record
