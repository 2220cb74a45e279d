import Istos.Agent.Approval
import Istos.Agent.Discovery
import Istos.Agent.Drive
import Istos.Agent.Equiv.Active
import Istos.Agent.Equiv.Approval
import Istos.Agent.Equiv.Context
import Istos.Agent.Equiv.Discovery
import Istos.Agent.Equiv.Gated
import Istos.Agent.Equiv.Handoff
import Istos.Agent.Equiv.Loop
import Istos.Agent.Equiv.Request
import Istos.Agent.Equiv.Transcript
import Istos.Agent.Equiv.Trim
import Istos.Agent.Gated
import Istos.Agent.Loop
import Istos.Agent.Message
import Istos.Agent.Multi
import Istos.Agent.Transcript
import Istos.Channel.Equiv.Fabric
import Istos.Channel.Equiv.Inbox
import Istos.Channel.Equiv.Open
import Istos.Channel.Fabric
import Istos.Channel.Inbox
import Istos.Channel.Open
import Istos.Codec.Base64
import Istos.Codec.Decimal
import Istos.Codec.Detect
import Istos.Codec.Equiv.Detect
import Istos.Codec.Equiv.Dumps
import Istos.Codec.Equiv.Json
import Istos.Codec.Equiv.PyText
import Istos.Codec.Equiv.Strings
import Istos.Codec.EventStream
import Istos.Codec.Exposition
import Istos.Codec.Hex
import Istos.Codec.Json
import Istos.Codec.Numeral
import Istos.Codec.Padding
import Istos.Codec.Percent
import Istos.Codec.PyInt
import Istos.Codec.PyText
import Istos.Codec.Unquote
import Istos.Codec.Utf8
import Istos.Communication.Equiv.History
import Istos.Communication.Equiv.Persist
import Istos.Communication.Equiv.Stream
import Istos.Communication.Persist
import Istos.Consistency.Backend
import Istos.Consistency.Equiv.Agree
import Istos.Consistency.Equiv.Atomic
import Istos.Consistency.Equiv.Ledger
import Istos.Consistency.Equiv.Nodes
import Istos.Consistency.Equiv.Owner
import Istos.Consistency.Equiv.Status
import Istos.Consistency.Equiv.Stored
import Istos.Consistency.Leased
import Istos.Consistency.Ledger
import Istos.Consistency.Nodes
import Istos.Consistency.Redis
import Istos.Consistency.Sql
import Istos.Consistency.Storage
import Istos.Consistency.Tenants
import Istos.Data.Assoc
import Istos.Data.AsyncQueue
import Istos.Data.Bucket
import Istos.Data.Calendar
import Istos.Data.Component
import Istos.Data.Contextlib
import Istos.Data.Cursor
import Istos.Data.Ending
import Istos.Data.First
import Istos.Data.Fold
import Istos.Data.Heap
import Istos.Data.Lasts
import Istos.Data.Lease
import Istos.Data.Lex
import Istos.Data.Program
import Istos.Data.Recent
import Istos.Data.Segment
import Istos.Data.Steps
import Istos.Data.Table
import Istos.Data.Tally
import Istos.Data.Tenure
import Istos.Data.Traverse
import Istos.Data.Walk
import Istos.Di.Depends
import Istos.Di.Equiv.Depends
import Istos.Di.Equiv.Injector
import Istos.Di.Runs
import Istos.Fitness.Cycles
import Istos.Fitness.Equiv.Cycles
import Istos.Middleware.Context
import Istos.Middleware.Equiv.Context
import Istos.Middleware.Equiv.RateLimit
import Istos.Middleware.Equiv.Stack
import Istos.Middleware.RateLimit
import Istos.Middleware.Stack
import Istos.Observability.Equiv.Metrics
import Istos.Observability.Metrics
import Istos.Primitives.Equiv.Dedup
import Istos.Primitives.Equiv.Errors
import Istos.Primitives.Equiv.Idempotency
import Istos.Primitives.Equiv.Inject
import Istos.Primitives.Equiv.Once
import Istos.Primitives.Equiv.Repeat
import Istos.Primitives.Equiv.Resolve
import Istos.Primitives.Equiv.Subscribe
import Istos.Primitives.Errors
import Istos.Primitives.Handler
import Istos.Primitives.Idempotency
import Istos.Primitives.Inject
import Istos.Primitives.Query
import Istos.Primitives.Retry
import Istos.Primitives.Subscribe
import Istos.Queue.Backoff
import Istos.Queue.Board
import Istos.Queue.Chord
import Istos.Queue.Cron
import Istos.Queue.CronGrammar
import Istos.Queue.DeadLetters
import Istos.Queue.Election
import Istos.Queue.Equiv.Backoff
import Istos.Queue.Equiv.Board
import Istos.Queue.Equiv.Budget
import Istos.Queue.Equiv.Chord
import Istos.Queue.Equiv.Cover
import Istos.Queue.Equiv.Cron
import Istos.Queue.Equiv.CronGrammar
import Istos.Queue.Equiv.DeadLetters
import Istos.Queue.Equiv.Election
import Istos.Queue.Equiv.Failover
import Istos.Queue.Equiv.Fence
import Istos.Queue.Equiv.Lock
import Istos.Queue.Equiv.Loops
import Istos.Queue.Equiv.Order
import Istos.Queue.Equiv.Recovery
import Istos.Queue.Equiv.Restart
import Istos.Queue.Equiv.Results
import Istos.Queue.Equiv.Storage
import Istos.Queue.Equiv.Sweep
import Istos.Queue.Equiv.Token
import Istos.Queue.Failover
import Istos.Queue.Lock
import Istos.Queue.Record
import Istos.Queue.Results
import Istos.Queue.Role
import Istos.Queue.Run
import Istos.Queue.Storage
import Istos.Queue.Store
import Istos.Queue.Worker
import Istos.Queue.Workflow
import Istos.Security.Authz
import Istos.Security.Equiv.Envelope
import Istos.Streaming.Bridge
import Istos.Streaming.Equiv.Bridge
import Istos.Streaming.Equiv.Stream
import Istos.Streaming.Stream
import Istos.Testing.Equiv.Recording
import Istos.Testing.Equiv.Replay
import Istos.Testing.Trajectory
import Istos.Wire.Equiv.Gateway
import Istos.Wire.Equiv.Mcp
import Istos.Wire.Equiv.Sse
import Istos.Wire.Gateway
import Istos.Wire.Mcp
import Istos.Wire.Selector
import Istos.Wire.Sse
