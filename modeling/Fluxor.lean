import Fluxor.AppendLog.Durability
import Fluxor.AppendLog.Recovery
import Fluxor.AppendLog.SingleWriter
import Fluxor.Compute.Handlers
import Fluxor.Compute.Newest
import Fluxor.Concurrency.Backpressure
import Fluxor.Concurrency.Closing
import Fluxor.Concurrency.Delivery
import Fluxor.EventBus.FanOut
import Fluxor.EventBus.Send
import Fluxor.EventLoop.KeyOrder
import Fluxor.Hft.Binary
import Fluxor.Kson.Paths
import Fluxor.Kson.Termination
import Fluxor.Matching.Depth
import Fluxor.Matching.Fairness
import Fluxor.Platform.Links
import Fluxor.PostgresDemo.Available
import Fluxor.PostgresDemo.LedgerService
import Fluxor.PostgresDemo.Purchase
import Fluxor.Resilience.Limiter
import Fluxor.Resilience.Lockout
import Fluxor.Resilience.Probing
import Fluxor.Resilience.Returns
import Fluxor.Risk.Bookkeeping
import Fluxor.Risk.Exactness
import Fluxor.Risk.OrderManager
import Fluxor.Runtime.Quota
import Fluxor.Runtime.StateManager
import Fluxor.Scheduler.AtMostOnce
import Fluxor.Security.Redactor
import Fluxor.Storage.Quorum
import Fluxor.Storage.Seats
import Fluxor.Storage.Ttl
import Fluxor.Supervision.Responsive
import Fluxor.Supervision.Verticles
import Fluxor.Vpn.Addresses
import Fluxor.Vpn.Nonces
import Fluxor.Vpn.RateLimit
import Fluxor.Vpn.Wire
import Fluxor.Web.Headers
import Fluxor.Web.Paths
import Fluxor.Web.RateLimit
import Fluxor.Web.Resp
import Fluxor.Workflow.ErrorBranch
import Fluxor.Workflow.Merge
import Fluxor.Workflow.Progress
