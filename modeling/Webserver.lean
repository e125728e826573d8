import Webserver.Systems
import Webserver.Locks
import Webserver.Custody
import Webserver.Strings
import Webserver.HttpRequest
import Webserver.RequestFacts
import Webserver.Decoding
import Webserver.Message
import Webserver.Body
import Webserver.RequestHead
import Webserver.HttpResponse
import Webserver.Lines
import Webserver.WireFormat
import Webserver.Framing
import Webserver.ContentLength
import Webserver.Arrivals
import Webserver.Server
import Webserver.ServerFacts
import Webserver.ConnectionLimit
import Webserver.LockOrder
import Webserver.Touch
import Webserver.References
import Webserver.Tasks
import Webserver.Descriptors
import Webserver.Accounting
import Webserver.Stopping
import Webserver.Delivery
import Webserver.Unread
import Webserver.Rounds
import Webserver.Segments
import Webserver.Sessions
import Webserver.Sockets
import Webserver.Stream
import Webserver.Resumption
import Webserver.Causes
import Webserver.Sweep
import Webserver.KeepAlive
import Webserver.ThreadPool
import Webserver.Wakeup
import Webserver.Joining
import Webserver.Drain
import Webserver.Conservation
import Webserver.Recency
import Webserver.Cache
import Webserver.CacheInvariant
import Webserver.CacheContents
import Webserver.CacheLimit
import Webserver.CacheHistory
import Webserver.CacheOrder
import Webserver.Paths
import Webserver.FileSystem
import Webserver.FileHandler
import Webserver.Serving
import Webserver.Staleness
import Webserver.Answer
import Webserver.Mirror
import Webserver.Json
import Webserver.Status
import Webserver.Links
import Webserver.Confinement
import Webserver.PathCheck
import Webserver.Bucket
import Webserver.RateLimiter
import Webserver.Admission
import Webserver.Limits
import Webserver.Entries
import Webserver.Addresses
import Webserver.Draws
import Webserver.Guards
import Webserver.Logger
import Webserver.FileWorkers
import Webserver.Provenance
import Webserver.Transparency
import Webserver.Overshoot
import Webserver.Quiescence
import Webserver.Progress
import Webserver.EpollSet
import Webserver.Messages
import Webserver.Replies
import Webserver.Turns
import Webserver.Heads
import Webserver.Sequential
import Webserver.Patterns
import Webserver.Startup
import Webserver.Site
import Webserver.Completion
import Webserver.Lifecycle
import Webserver.Restart
