import NetEngine.Engine.RingBuffer
import NetEngine.Engine.RingBufferSpsc
import NetEngine.Engine.RingBufferCalls
import NetEngine.Library.LittleEndian
import NetEngine.Uring.Mesh
import NetEngine.Uring.MeshProperties
import NetEngine.Bench.Histogram
import NetEngine.Bench.Wire
import NetEngine.Library.Socket
import NetEngine.Bench.Traffic
import NetEngine.Bench.TrafficProperties
import NetEngine.Bench.Merge
import NetEngine.Bench.VerdictProperties
import NetEngine.Bench.VerdictAgreement
import NetEngine.Epoll.Chat
import NetEngine.Epoll.Server
import NetEngine.Epoll.ChatFrames
import NetEngine.Epoll.ServerRefines
import NetEngine.Epoll.ServerRuns
import NetEngine.Epoll.ServerRule
import NetEngine.Epoll.TickLedger
import NetEngine.Epoll.ChatSettled
import NetEngine.Epoll.ChatCap
import NetEngine.Epoll.ChatDelivery
import NetEngine.Epoll.ChatStream
import NetEngine.Epoll.ServerProperties
import NetEngine.Library.Machine
import NetEngine.Uring.ThreadCtl
import NetEngine.Uring.SessionTable
import NetEngine.Uring.ThreadCtlProperties
import NetEngine.Engine.PacketPool
import NetEngine.Uring.SessionTableProperties
import NetEngine.Engine.PacketPoolProperties
import NetEngine.Bench.Consume
import NetEngine.Bench.ConsumeProperties
import NetEngine.Uring.CloseNotify
import NetEngine.Uring.CloseNotifyProperties
import NetEngine.Engine.CstrHashMap
import NetEngine.Engine.CstrHashMapProperties
import NetEngine.Epoll.ServerCap
import NetEngine.Epoll.ChatLife
import NetEngine.Engine.RingBufferSingle
import NetEngine.Epoll.ChatDepartures
import NetEngine.Epoll.ChatReap
import NetEngine.Epoll.ServerSds
import NetEngine.Library.Links
import NetEngine.Epoll.ServerSdsSends
import NetEngine.Epoll.ServerSdsRooms
import NetEngine.Epoll.ChatInbound
import NetEngine.Epoll.ServerSdsRuns
import NetEngine.Epoll.ServerSdsProperties
import NetEngine.Epoll.BothServers
import NetEngine.Epoll.TickLogic
import NetEngine.Epoll.TickLogicProperties
import NetEngine.Bench.SendProperties
import NetEngine.Bench.Setup
import NetEngine.Bench.SetupProperties
import NetEngine.Epoll.QueueRefinement
import NetEngine.Bench.DumpText
import NetEngine.Bench.DumpRoundTrip
import NetEngine.Bench.MergeProperties
import NetEngine.Bench.Reader
import NetEngine.Bench.ReaderProperties
import NetEngine.Epoll.TickFrames
import NetEngine.Epoll.ChatPackets
import NetEngine.Epoll.JoinNotices
import NetEngine.Epoll.ServerSdsNotices
import NetEngine.Epoll.ChatLists
import NetEngine.Epoll.ServerSdsBounds
import NetEngine.Epoll.ServerSdsGuards
import NetEngine.Epoll.Waits
import NetEngine.Epoll.ChatSpec
import NetEngine.Epoll.ChatSpecSteps
import NetEngine.Epoll.ChatRefines
import NetEngine.Epoll.ChatRuns
import NetEngine.Epoll.ServersAgree
import NetEngine.Bench.Connect
import NetEngine.Bench.ConnectProperties
import NetEngine.Bench.Fleet
import NetEngine.Epoll.TickSessions
import NetEngine.Epoll.TickSessionsProperties
import NetEngine.Engine.MallocVector
import NetEngine.Engine.MallocVectorProperties
import NetEngine.Engine.MallocVectorRefinement
import NetEngine.Engine.Growth
import NetEngine.Epoll.ServerMemory
import NetEngine.Epoll.TickBooks
import NetEngine.Epoll.TickDelivery
import NetEngine.Epoll.TickRecipients
import NetEngine.Epoll.FrameSizes
import NetEngine.Library.FrameStream
import NetEngine.Library.Rounds
import NetEngine.Uring.Supervisor
import NetEngine.System.Conversation
import NetEngine.Uring.SupervisorProperties
import NetEngine.Uring.SupervisorLiveness
import NetEngine.Bench.OpenLoop
import NetEngine.Bench.Chatcli
import NetEngine.Bench.ChatcliProperties
import NetEngine.Bench.ChatcliVerdict
import NetEngine.Epoll.Progress
import NetEngine.System.Delivery
import NetEngine.System.Percentiles
import NetEngine.Bench.Corpus
import NetEngine.Bench.Mkcorpus
