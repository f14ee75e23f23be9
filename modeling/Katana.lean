import Katana.Library.Delimiter
import Katana.Library.Loop
import Katana.Library.SlotTable
import Katana.Library.SlotMap
import Katana.Library.Transition
import Katana.Http.Bytes
import Katana.Http.CaseFolding
import Katana.Http.Field
import Katana.Http.HeadersMap
import Katana.Http.HeadersIterator
import Katana.Http.HeadersSpec
import Katana.Http.Parser
import Katana.Http.ParserSteps
import Katana.Http.CursorSafety
import Katana.Http.Lines
import Katana.Http.MoreInput
import Katana.Http.HeaderLimit
import Katana.Http.HeaderLines
import Katana.Http.Fragmentation
import Katana.Http.RequestHead
import Katana.Http.ChunkedBody
import Katana.Http.RoundTrip
import Katana.Http.HeaderFolding
import Katana.Http.Problem
import Katana.Http.Response
import Katana.Http.Server
import Katana.Http.ServerFlush
import Katana.Http.ServerSteps
import Katana.Http.ServerWatch
import Katana.Http.ServerOutput
import Katana.Http.Compaction
import Katana.Library.TicketRing
import Katana.Library.TicketQueue
import Katana.Concurrent.RingQueue
import Katana.Concurrent.RingRefinement
import Katana.Concurrent.RingSteps
import Katana.Concurrent.RingSafety
import Katana.Library.SequencedRing
import Katana.Concurrent.BatchQueue
import Katana.Concurrent.SoloQueue
import Katana.Concurrent.ReactorTasks
import Katana.Concurrent.MpscQueue
import Katana.Concurrent.MpscCount
import Katana.Concurrent.MpscReclamation
import Katana.Timer.Wheel
import Katana.Timer.WheelEntries
import Katana.Timer.WheelHandles
import Katana.Timer.WheelDeadlines
import Katana.Timer.ArmedTimers
import Katana.Timer.EarlyTimers
import Katana.Timer.TickCoalescing
import Katana.Library.LeastCost
import Katana.Timer.NextExpiration
import Katana.Timer.Occupancy
import Katana.Reactor.Epoll
import Katana.Reactor.ActiveConnections
import Katana.Reactor.ArmedTimeouts
import Katana.Reactor.FailedCalls
import Katana.Reactor.IoUring
import Katana.Reactor.IoUringTimers
import Katana.Reactor.OwnedTimeouts
import Katana.Reactor.DelayedTasks
import Katana.Serde.Cursor
import Katana.Serde.Escape
import Katana.Library.JsonText
import Katana.Serde.EscapeDecoding
import Katana.Serde.SkipValue
import Katana.Serde.ParseInt64
import Katana.Serde.NumberReaders
import Katana.Json.Fields
import Katana.Json.StringFields
import Katana.Json.Readers
import Katana.Json.MemberOrder
import Katana.Json.IntegerFields
import Katana.Library.Storage
import Katana.Memory.IoBuffer
import Katana.Http.ResponseBuffer
import Katana.Library.FirstMax
import Katana.Http.PathPattern
import Katana.Library.Regions
import Katana.Memory.Arena
import Katana.Http.Router
import Katana.Http.Dispatch
import Katana.Http.ChunkEncoder
import Katana.Library.Tokens
import Katana.Http.Negotiation
import Katana.Http.RequestLine
import Katana.Http.CleanHeaders
import Katana.Http.HeadersCounts
import Katana.Http.StreamParsing
import Katana.Http.Conversation
import Katana.Http.ServedRequests
import Katana.Http.WholeValues
import Katana.Http.AsciiFolding
import Katana.Http.FieldLookup
import Katana.Http.PatternMatching
import Katana.Library.JsonSpelling
import Katana.Http.ProblemDocument
import Katana.Json.IntegerArray
import Katana.Library.GraphMerge
import Katana.OpenApi.Schema
import Katana.OpenApi.AllOf
import Katana.Library.Runs
import Katana.OpenApi.SchemaReader
import Katana.OpenApi.OperationReader
import Katana.OpenApi.References
import Katana.Serde.Yaml
import Katana.Serde.YamlEmission
import Katana.Serde.YamlBlocks
import Katana.Serde.YamlDuplicates
import Katana.OpenApi.Loader
import Katana.OpenApi.ResponseKeys
import Katana.Validation.DateTime
import Katana.Library.WrappedStorage
import Katana.Memory.CircularBuffer
import Katana.Library.BlockSearch
import Katana.Http.CrlfSearch
import Katana.Http.ParamExtraction
import Katana.Memory.ArenaReuse
import Katana.Memory.ArenaWrap
import Katana.Http.AcceptQuality
import Katana.Http.IncrementalScan
import Katana.Serde.FlowStyle
import Katana.Library.ReadWindow
import Katana.Serde.PointerCursor
import Katana.Concurrent.BatchTermination
import Katana.Concurrent.BatchRefinement
import Katana.Concurrent.BatchSafety
import Katana.Reactor.DeferredCloses
import Katana.Serde.BlockStyle
import Katana.OpenApi.Places
import Katana.OpenApi.LoadedPlaces
import Katana.OpenApi.PathParameters
import Katana.OpenApi.Resolution
import Katana.Json.ArrayRoundTrip
