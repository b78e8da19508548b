import Lopata.Lib.Table
import Lopata.Lib.Machine
import Lopata.Workflow.Limits
import Lopata.Workflow.Store
import Lopata.Workflow.Process
import Lopata.Workflow.Step
import Lopata.Workflow.Instance
import Lopata.Workflow.System
import Lopata.Workflow.Executions
import Lopata.Workflow.Lifecycle
import Lopata.Workflow.Restart
import Lopata.Workflow.Moves
import Lopata.Workflow.SingleExecution
import Lopata.Workflow.Driving
import Lopata.Workflow.Queue
import Lopata.Workflow.Calls
import Lopata.Workflow.References
import Lopata.Workflow.Termination
import Lopata.Workflow.Superseded
import Lopata.DurableObject.Gate
import Lopata.DurableObject.Storage
import Lopata.DurableObject.Transaction
import Lopata.Workflow.Body
import Lopata.Workflow.Checkpoint
import Lopata.Workflow.Replay
import Lopata.Lib.Mailbox
import Lopata.Workflow.Ledger
import Lopata.Workflow.OneInstance
import Lopata.Workflow.Effects
import Lopata.Workflow.Delivery
import Lopata.Lib.Ranking
import Lopata.Queue.Store
import Lopata.Queue.Batch
import Lopata.Queue.Pull
import Lopata.Queue.Consumer
import Lopata.Queue.Handout
import Lopata.Queue.Finality
import Lopata.Queue.Budget
import Lopata.Queue.Lease
import Lopata.Lib.Log
import Lopata.Generations.Manager
import Lopata.Generations.Resume
import Lopata.Generations.Handover
import Lopata.Generations.Requests
import Lopata.Generations.Reload
import Lopata.DurableObject.Timers
import Lopata.DurableObject.Alarm
import Lopata.Lib.Path
import Lopata.Lib.Disk
import Lopata.R2.Bucket
import Lopata.R2.Pieces
import Lopata.R2.Filed
import Lopata.R2.Containment
import Lopata.R2.Agreement
import Lopata.R2.Swap
import Lopata.R2.Independence
import Lopata.Lib.Paging
import Lopata.R2.Listing
import Lopata.Lib.ReadableStream
import Lopata.Streams.Channel
import Lopata.Streams.Pieces
import Lopata.Streams.Backlog
import Lopata.Streams.Credits
import Lopata.Streams.Leaks
import Lopata.Streams.Flow
import Lopata.Streams.Fidelity
import Lopata.Rpc.Channel
import Lopata.Rpc.Matching
import Lopata.WebSocket.Socket
import Lopata.WebSocket.Pair
import Lopata.WebSocket.Order
import Lopata.WebSocket.Close
import Lopata.WebSocket.Duplex
import Lopata.WebSocket.Bridge
import Lopata.WebSocket.Fidelity
import Lopata.Lib.Text
import Lopata.S3.Chunked
import Lopata.S3.Listing
import Lopata.D1.Connection
import Lopata.D1.Lock
import Lopata.Lib.Double
import Lopata.Lib.Numeral
import Lopata.KV.Namespace
import Lopata.Lib.Keyset
import Lopata.KV.Listing
import Lopata.KV.Views
import Lopata.Assets.Redirects
import Lopata.Assets.Serving
import Lopata.Routing.Pattern
import Lopata.Routing.Dispatcher
import Lopata.Container.Runtime
import Lopata.Container.Lifecycle
import Lopata.Watch.ImportGraph
import Lopata.Watch.Watcher
import Lopata.Cron.Expression
import Lopata.Cron.Timer
import Lopata.Executor.Worker
import Lopata.Executor.Activity
import Lopata.Workflow.Pause
import Lopata.Workflow.Attempts
import Lopata.Workflow.Budget
import Lopata.Lib.Sorting
import Lopata.Workflow.PartialRestart
import Lopata.Workflow.Sleeps
import Lopata.Workflow.SleepControl
import Lopata.Lib.Json
import Lopata.Workflow.Values
import Lopata.Lib.Like
import Lopata.DurableObject.Listing
import Lopata.DurableObject.Arming
import Lopata.DurableObject.AlarmClock
import Lopata.DurableObject.Deletion
import Lopata.DurableObject.SqlExec
import Lopata.DurableObject.Retries
import Lopata.Analytics.Ordering
import Lopata.Queue.Completeness
import Lopata.Queue.Sending
import Lopata.R2.Prefix
import Lopata.D1.Meta
import Lopata.S3.Range
import Lopata.R2.Failure
import Lopata.S3.Put
import Lopata.R2.Completion
import Lopata.Assets.Patterns
import Lopata.Lib.Search
import Lopata.S3.Tagging
import Lopata.S3.Conditions
import Lopata.S3.Truncation
import Lopata.Routing.History
import Lopata.R2.Binding
import Lopata.S3.Copy
import Lopata.Assets.Substitution
import Lopata.KV.Prefixes
import Lopata.Lib.Unicode
import Lopata.Lib.Url
import Lopata.Assets.Locations
import Lopata.Tracing.Store
import Lopata.Tracing.Paging
import Lopata.Lib.Traversal
import Lopata.Rpc.Validation
import Lopata.Transport.Errors
import Lopata.Transport.RoundTrip
import Lopata.Cron.Calendar
import Lopata.Lib.Loop
import Lopata.Cron.Loops
import Lopata.Generations.Dispatch
import Lopata.Executor.Sockets
import Lopata.Generations.Attempt
import Lopata.Analytics.Translation
import Lopata.Analytics.DateTypes
import Lopata.Lib.Gregorian
import Lopata.Analytics.Sqlite
import Lopata.Analytics.Buckets
import Lopata.Lib.OrderStatistics
import Lopata.Analytics.Quantile
import Lopata.Lib.Lexing
import Lopata.Analytics.Printing
import Lopata.Analytics.Reading
import Lopata.Analytics.WellFormed
import Lopata.Analytics.Grammar
import Lopata.Executor.Pending
import Lopata.Lib.Resuming
import Lopata.Artifacts.Listing
import Lopata.Lib.Der
import Lopata.Crypto.Pkcs1
import Lopata.Rpc.SendFailure
import Lopata.Lib.Script
import Lopata.DurableObject.Migrations
