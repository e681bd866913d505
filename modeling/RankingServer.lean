import RankingServer.Foundation.Transition
import RankingServer.Foundation.Accounting
import RankingServer.Foundation.Scalar
import RankingServer.Foundation.Refinement
import RankingServer.Foundation.Handles
import RankingServer.Foundation.RowNumber
import RankingServer.Foundation.Calendar
import RankingServer.Utility.LockFreeCircleQueue
import RankingServer.Utility.BoundedFifo
import RankingServer.Utility.SingleProducerConsumer
import RankingServer.Utility.ConcurrentSize
import RankingServer.Network.Packet
import RankingServer.Network.QueueThreads
import RankingServer.Network.OverlappedPool
import RankingServer.Network.Client
import RankingServer.Network.Framing
import RankingServer.Flatbuffers.Builder
import RankingServer.Flatbuffers.Table
import RankingServer.Protocol
import RankingServer.Business.DataStructure
import RankingServer.Business.Hub
import RankingServer.Network.Conservation
import RankingServer.Network.Buffers
import RankingServer.Network.Circulation
import RankingServer.Network.Ownership
import RankingServer.Network.Exhaustion
import RankingServer.Network.Slots
import RankingServer.Network.Conversation
import RankingServer.Network.Recycling
import RankingServer.Network.Frame
import RankingServer.Business.Service
import RankingServer.Business.SharedConnection
import RankingServer.Business.DatabaseWorker
import RankingServer.Business.Reload
import RankingServer.Business.WorkLoop
import RankingServer.Business.Durability
import RankingServer.Network.StartUp
import RankingServer.Business.Ranking
import RankingServer.Business.Contents
import RankingServer.Business.Replies
import RankingServer.Business.Isolation
import RankingServer.Business.Cycle
import RankingServer.Business.RankingCache
import RankingServer.Business.Timestamp
import RankingServer.Business.Save
import RankingServer.Business.Acknowledgement
import RankingServer.Business.Restart
import RankingServer.Business.Statements
import RankingServer.Flatbuffers.Layout
import RankingServer.Flatbuffers.Finished
import RankingServer.Flatbuffers.Verifier
import RankingServer.Flatbuffers.Acceptance
import RankingServer.Protocol.RoundTrip
import RankingServer.Protocol.Verification
import RankingServer.Business.Pipeline
import RankingServer.Foundation.Potential
import RankingServer.Network.Lifecycle
import RankingServer.Network.Quiescence
import RankingServer.Network.Dialogue
import RankingServer.Network.PoolSafety
import RankingServer.Business.Settlement
import RankingServer.Business.Provenance
import RankingServer.Business.Schedule
import RankingServer.Foundation.Loop
import RankingServer.Foundation.Utf8
import RankingServer.Nlohmann.Value
import RankingServer.Nlohmann.Serializer
import RankingServer.Nlohmann.Text
import RankingServer.Nlohmann.Lexer
import RankingServer.Nlohmann.Tokens
import RankingServer.Nlohmann.Parser
import RankingServer.Nlohmann.RoundTrip
import RankingServer.Business.Records
import RankingServer.Foundation.SortedLinks
import RankingServer.Tbb.ConcurrentSkipList
import RankingServer.Tbb.Levels
import RankingServer.Tbb.Insertion
import RankingServer.Tbb.Linearization
import RankingServer.Tbb.Progress
import RankingServer.Network.ClientMap
