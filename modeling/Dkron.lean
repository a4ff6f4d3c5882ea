import Dkron.Deletion
import Dkron.Ancestry
import Dkron.Chaining
import Dkron.RunUpdates
import Dkron.OrderIndependence
import Dkron.Idempotence
import Dkron.Replicas
import Dkron.Snapshots
import Dkron.AgentRun
import Dkron.Forwarding
import Dkron.Retries
import Dkron.RunningAttempts
import Dkron.Status
import Dkron.Concurrency
import Dkron.CronParser
import Dkron.AfterSchedule
import Dkron.Hashing
import Dkron.Calendar
import Dkron.JobHandlers
import Dkron.Rescheduling
import Dkron.Bootstrap
import Dkron.RaftPeers
import Dkron.Leadership
import Dkron.Backup
import Dkron.StoredJobs
import Dkron.RecordText
import Dkron.JobListing
import Dkron.Targets
import Dkron.PeerAddition
import Dkron.Analytics
import Dkron.JobTree
import Dkron.ServerTables
import Dkron.ExecutionIdentity
import Dkron.ExecutionRecords
import Dkron.StaleCleanup
import Dkron.AnalyticsPaths
import Dkron.Lib.Pruning
import Dkron.History
import Dkron.Backoff
import Dkron.RetryJoin
import Dkron.AddrParts
import Dkron.Pagination
import Dkron.Headers
import Dkron.Lib.Tagged
import Dkron.ClientPool
import Dkron.Duration
import Dkron.RecordConversion
import Dkron.ExecutionText
import Dkron.StoreTexts
import Dkron.RecordOrder
import Dkron.Pausing
import Dkron.Lib.WireEncoding
import Dkron.CommandBytes
import Dkron.Lib.JsonStrings
import Dkron.TextMachine
import Dkron.Registry
import Dkron.Agreement
import Dkron.Takeover
import Dkron.Streams
import Dkron.AgentServer
import Dkron.ShellExecutor
import Dkron.ExecutionListing
import Dkron.AdvertiseAddr
import Dkron.HttpExecutor
import Dkron.StoredResults
import Dkron.Statistics
