import Latypus.Lib.Machine
import Latypus.Lib.Memory
import Latypus.Lib.Ring
import Latypus.Lib.Scanner
import Latypus.Lib.Program
import Latypus.Lib.Threads
import Latypus.Lib.BasicString
import Latypus.Io.RingBuffer
import Latypus.Io.RingBufferFifo
import Latypus.Io.Transfer
import Latypus.Io.Buffer
import Latypus.Io.Buffered
import Latypus.Io.Bits
import Latypus.Http.Parser
import Latypus.Http.ByteClasses
import Latypus.Http.ParserSegments
import Latypus.Http.Message
import Latypus.Http.Constants
import Latypus.Http.Grammar
import Latypus.Http.Fields
import Latypus.Http.ResponseRoundTrip
import Latypus.Http.RequestRoundTrip
import Latypus.Http.ToBuffer
import Latypus.Http.Date
import Latypus.Lib.Packed
import Latypus.Http.PackedTables
import Latypus.Http.DateRoundTrip
import Latypus.Lib.Pieces
import Latypus.Http.DateGrammar
import Latypus.Http.DateParse
import Latypus.Http.SanitizePath
import Latypus.Server.Trie
import Latypus.Server.TranslatePath
import Latypus.Server.EngineInit
import Latypus.Http.PathSegments
import Latypus.Config.Directives
import Latypus.Tls.SessionCache
import Latypus.Queue.Atomic
import Latypus.Queue.Mpmc
import Latypus.Queue.Spsc
import Latypus.Lib.Mealy
import Latypus.Lib.Search
import Latypus.Net.Url
import Latypus.Net.SocketAddr
import Latypus.Net.Pollset
import Latypus.Net.Descriptors
import Latypus.Queue.Sequential
import Latypus.Queue.LoneThread
import Latypus.Lib.Pattern
import Latypus.Sql.Parser
import Latypus.Sql.Reader
import Latypus.Sql.Tokens
import Latypus.Sql.Contexts
import Latypus.Sql.Columns
import Latypus.Sql.RoundTrip
import Latypus.Log.LogThread
import Latypus.Log.Conservation
import Latypus.Log.Shutdown
import Latypus.Log.WakeUp
import Latypus.Server.ResponseBody
import Latypus.Server.ReadHead
import Latypus.Server.HeaderOverflow
import Latypus.Engine.Protocol
import Latypus.Engine.Machine
import Latypus.Engine.Ownership
import Latypus.Engine.Invariant
import Latypus.Engine.Runs
import Latypus.Server.Handlers
import Latypus.Server.Ownership
import Latypus.Client.Handlers
import Latypus.Client.Ownership
import Latypus.Client.Routing
import Latypus.Http.HeaderMemory
import Latypus.Http.HeaderCalls
import Latypus.Http.Captures
import Latypus.Http.RequestMemory
import Latypus.Http.RequestSegments
import Latypus.Config.Grammar
import Latypus.Config.Document
import Latypus.Lib.Result
import Latypus.Config.Blocks
import Latypus.Config.Meaning
import Latypus.Config.Accepted
import Latypus.Server.Routing
import Latypus.Server.VirtualHosts
import Latypus.Engine.Conservation
import Latypus.Engine.Exclusive
import Latypus.Engine.Mailbox
import Latypus.Engine.Locks
import Latypus.Engine.MessageLocks
import Latypus.Engine.Clock
import Latypus.Engine.Timeouts
import Latypus.Client.ResponseBody
import Latypus.Client.EndOfFile
import Latypus.Client.Transfers
import Latypus.Server.ReadRequest
import Latypus.Server.Session
import Latypus.Server.AccessLog
import Latypus.Server.Framing
import Latypus.Server.FileHandler
import Latypus.Engine.ThreadMask
import Latypus.Http.ResponseSegments
import Latypus.Client.ReadResponse
import Latypus.Server.Sending
import Latypus.Client.Requests
import Latypus.Client.ReadEvents
import Latypus.Lib.Ranking
import Latypus.Client.Exchange
import Latypus.Client.Progress
import Latypus.Server.FileReply
import Latypus.Client.Downloads
import Latypus.Lib.Turns
import Latypus.Engine.ThreadChoice
import Latypus.Net.PollsetPoll
import Latypus.Io.Base64
