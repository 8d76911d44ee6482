import OriginServer.Config.Basic
import OriginServer.Config.Document
import OriginServer.Connection.Basic
import OriginServer.Connection.Run
import OriginServer.Event
import OriginServer.Http.Chunked
import OriginServer.Http.DotSegments
import OriginServer.Http.Field
import OriginServer.Http.FieldList
import OriginServer.Http.Framing
import OriginServer.Http.MediaType
import OriginServer.Http.Message
import OriginServer.Http.Request
import OriginServer.Http.Response
import OriginServer.Http.StartLine
import OriginServer.Http.StoredMessage
import OriginServer.Http.Target
import OriginServer.Http.Token
import OriginServer.Json.Literal
import OriginServer.Json.Number
import OriginServer.Json.Token
import OriginServer.Pem
import OriginServer.Proofs.Connection.Answer
import OriginServer.Proofs.Connection.Bounds
import OriginServer.Proofs.Connection.Conversation
import OriginServer.Proofs.Connection.DocumentRoot
import OriginServer.Proofs.Connection.Effect
import OriginServer.Proofs.Connection.Gate
import OriginServer.Proofs.Connection.Handshake
import OriginServer.Proofs.Connection.Hygiene
import OriginServer.Proofs.Connection.Intake
import OriginServer.Proofs.Connection.Pipeline
import OriginServer.Proofs.Connection.Recycling
import OriginServer.Proofs.Connection.Wire
import OriginServer.Proofs.Event
import OriginServer.Proofs.Http.ChunkGrammar
import OriginServer.Proofs.Http.Compaction
import OriginServer.Proofs.Http.DotSegments
import OriginServer.Proofs.Http.FieldGrammar
import OriginServer.Proofs.Http.FieldLayout
import OriginServer.Proofs.Http.Framing
import OriginServer.Proofs.Http.ListSeparators
import OriginServer.Proofs.Http.Places
import OriginServer.Proofs.Http.RequestLineGrammar
import OriginServer.Proofs.Http.Response
import OriginServer.Proofs.Http.SegmentStack
import OriginServer.Proofs.Http.Sizes
import OriginServer.Proofs.Http.StartLineGrammar
import OriginServer.Proofs.Http.WrittenResponse
import OriginServer.Proofs.Server.Act
import OriginServer.Proofs.Server.Hygiene
import OriginServer.Proofs.Server.Isolation
import OriginServer.Proofs.Server.Lifecycle
import OriginServer.Proofs.Server.Sending
import OriginServer.Proofs.Server.Session
import OriginServer.Proofs.Server.Traffic
import OriginServer.Proofs.Site.Path
import OriginServer.Proofs.Site.RangeAnswer
import OriginServer.Proofs.Storage.BufferEdit
import OriginServer.Proofs.Storage.PoolHistory
import OriginServer.Proofs.WebSocket.FragmentLanguage
import OriginServer.Proofs.WebSocket.Fragments
import OriginServer.Proofs.WebSocket.FrameArrival
import OriginServer.Proofs.WebSocket.FrameCount
import OriginServer.Proofs.WebSocket.FrameHistory
import OriginServer.Proofs.WebSocket.Refusals
import OriginServer.Proofs.WebSocket.Signals
import OriginServer.Scan
import OriginServer.Server.Basic
import OriginServer.Server.Session
import OriginServer.Site.FileBody
import OriginServer.Site.FileSystem
import OriginServer.Site.Serve
import OriginServer.Storage.Buffer
import OriginServer.Storage.Pool
import OriginServer.Text.Base64
import OriginServer.Text.Sha1
import OriginServer.Url.Address
import OriginServer.Url.Domain
import OriginServer.Url.Reference
import OriginServer.WebSocket.Frame
import OriginServer.WebSocket.Reassembly
import OriginServer.WebSocket.Upgrade
import OriginServer.Yaml.Node
import OriginServer.Yaml.Scalar
