import SagaAgents.Lib.Machine
import SagaAgents.Lib.Keyed
import SagaAgents.Lib.Raises
import SagaAgents.Lib.Semaphore
import SagaAgents.Lib.SemaphoreOrder
import SagaAgents.Lib.Lease
import SagaAgents.Lib.CheckThenAct
import SagaAgents.Lib.Serial
import SagaAgents.Lib.Tasks
import SagaAgents.Lib.Timeout
import SagaAgents.Lib.Scan
import SagaAgents.Lib.Binary64
import SagaAgents.Lib.Calendar
import SagaAgents.Lib.Sql
import SagaAgents.Lib.Json
import SagaAgents.Lib.JsonRoundTrip
import SagaAgents.Config.Models
import SagaAgents.Config.Tokens
import SagaAgents.Runtime.Runner
import SagaAgents.Runtime.Guidance
import SagaAgents.Runtime.GuidanceFetch
import SagaAgents.Runtime.Outcomes
import SagaAgents.Runtime.Placeholders
import SagaAgents.Proposals.Store
import SagaAgents.Proposals.Columns
import SagaAgents.Proposals.Decisions
import SagaAgents.Proposals.Failures
import SagaAgents.Proposals.Approval
import SagaAgents.Proposals.Lifecycle
import SagaAgents.Proposals.Listing
import SagaAgents.Triggers.Api
import SagaAgents.Triggers.ApproveResult
import SagaAgents.Triggers.Executor
import SagaAgents.Triggers.Limits
import SagaAgents.Triggers.Advisory
import SagaAgents.Triggers.Permits
import SagaAgents.Triggers.RunMetrics
import SagaAgents.Triggers.Fairness
import SagaAgents.Triggers.Cluster
import SagaAgents.Triggers.LockScript
import SagaAgents.Triggers.Drops
import SagaAgents.Triggers.RedisListener
import SagaAgents.Triggers.Messages
import SagaAgents.Triggers.ListenerStop
import SagaAgents.Triggers.Debounce
import SagaAgents.Triggers.TickLoop
import SagaAgents.Triggers.TickRuns
import SagaAgents.Triggers.Scheduler
import SagaAgents.Runtime.HandOver
import SagaAgents.Runtime.Shutdown
import SagaAgents.System
import SagaAgents.Verbatim
import SagaAgents.App
import SagaAgents.Runnable
import SagaAgents.Sources
import SagaAgents.Wiring
import SagaAgents.Tracing.Langfuse
import SagaAgents.Config.Env
import SagaAgents.Config.Fences
import SagaAgents.Config.Loader
import SagaAgents.Config.Frontmatter
import SagaAgents.Triggers.LockTtl
import SagaAgents.Runtime.Staleness
import SagaAgents.Running
import SagaAgents.Triggers.Latency
import SagaAgents.Restarts
import SagaAgents.Reviewed
import SagaAgents.Lib.Work
import SagaAgents.Triggers.Waiting
import SagaAgents.Lib.Erase
import SagaAgents.Unauthorised
import SagaAgents.Finality
import SagaAgents.Lib.Linear
import SagaAgents.Proposals.Linearizable
import SagaAgents.Progress
