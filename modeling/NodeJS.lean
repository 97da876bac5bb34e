import NodeJS.Lib.Fit
import NodeJS.Lib.Ring
import NodeJS.Lib.Reach
import NodeJS.Lib.Chunked
import NodeJS.Buffer.Text
import NodeJS.Buffer.Base64
import NodeJS.Buffer.Encoding
import NodeJS.Timers.LinkList
import NodeJS.Timers.Idle
import NodeJS.Timers.Armed
import NodeJS.Net.Pool
import NodeJS.Net.Socket
import NodeJS.Net.Delivery
import NodeJS.Net.Drain
import NodeJS.Net.Coalesce
import NodeJS.Http.Header
import NodeJS.Http.Outgoing
import NodeJS.Http.Wire
import NodeJS.Http.NoBody
import NodeJS.Http.Chunked
import NodeJS.Http.BodyEncoding
import NodeJS.Http.Queued
import NodeJS.Http.Methods
import NodeJS.Http.Server
import NodeJS.Http.Pipeline
import NodeJS.Buffer.Utf8
import NodeJS.Buffer.StringDecoder
import NodeJS.Buffer.Base64Slice
import NodeJS.Buffer.Window
import NodeJS.Buffer.Slice
import NodeJS.Lib.Bump
import NodeJS.Buffer.Alloc
import NodeJS.Http.Incoming
import NodeJS.Http.Agent
import NodeJS.Http.Connecting
import NodeJS.Buffer.ToString
import NodeJS.Crypto.Decipher
import NodeJS.Crypto.DecipherHex
import NodeJS.Crypto.DecipherText
import NodeJS.Events.Emitter
import NodeJS.Events.Items
import NodeJS.Events.Once
import NodeJS.Events.Plain
import NodeJS.Events.Result
import NodeJS.Fs.Agree
import NodeJS.Fs.Posix
import NodeJS.Fs.Shared
import NodeJS.Process.NextTick
import NodeJS.Crypto.Cipher
import NodeJS.Lib.Registry
import NodeJS.Net.Callbacks
import NodeJS.Net.Descriptors
import NodeJS.Process.Child
import NodeJS.Stream.Pipe
import NodeJS.Stream.Piped
import NodeJS.Lib.Nesting
import NodeJS.Modules.Load
import NodeJS.Modules.Once
import NodeJS.Modules.Required
import NodeJS.Net.Regions
import NodeJS.Tls.Accounts
import NodeJS.Tls.Settled
import NodeJS.Debugger.Client
import NodeJS.Debugger.Feed
import NodeJS.Fs.Chunks
import NodeJS.Fs.Closes
import NodeJS.Fs.Range
import NodeJS.Fs.Written
import NodeJS.Http.Detached
import NodeJS.Http.HeaderLines
import NodeJS.Http.WriteHead
import NodeJS.Timers.Withdrawn
import NodeJS.Lib.Regex
import NodeJS.Path.Normalize
import NodeJS.Path.Split
import NodeJS.Path.Stack
import NodeJS.Path.Terminators
import NodeJS.Url.Bare
import NodeJS.Url.Scheme
import NodeJS.Net.Connect
import NodeJS.Net.End
import NodeJS.Timers.Sorted
import NodeJS.Buffer.Copy
import NodeJS.Buffer.Terminator
import NodeJS.Buffer.PoolState
import NodeJS.Buffer.Bounds
import NodeJS.Querystring.Unescape
import NodeJS.Querystring.Parse
import NodeJS.Url.Validate
import NodeJS.Url.Href
import NodeJS.Url.Reread
import NodeJS.Url.Fixed
import NodeJS.Url.DotSegments
import NodeJS.Url.Resolve
import NodeJS.Url.DotHandling
import NodeJS.Url.Relative
import NodeJS.Lib.Memory
import NodeJS.Fs.Position
import NodeJS.Fs.SeenLinks
import NodeJS.Lib.Inevitable
import NodeJS.Fs.WholeFile
import NodeJS.Fs.ReadFile
import NodeJS.Fs.Tiles
import NodeJS.Fs.Cleanup
import NodeJS.Fs.SharedPool
import NodeJS.Modules.Inherited
import NodeJS.Assert.DeepEqual
import NodeJS.Tty.EmitKey
import NodeJS.Readline.Interface
import NodeJS.Readline.Sound
import NodeJS.Process.Signals
import NodeJS.Lib.Lex
import NodeJS.Readline.CommonPrefix
import NodeJS.Lib.Replace
import NodeJS.Util.Quote
import NodeJS.Lib.Call
import NodeJS.Lib.Walk
import NodeJS.Util.Inspect
import NodeJS.Util.Circular
import NodeJS.Tls.PeerCertificate
import NodeJS.Dns.Watchers
import NodeJS.Dgram.Receive
import NodeJS.HttpParser.Messages
