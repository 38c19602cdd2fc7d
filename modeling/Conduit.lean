import Conduit.Abandon
import Conduit.Attempt
import Conduit.Backoff
import Conduit.BreakerTrace
import Conduit.Budget
import Conduit.Cancel
import Conduit.Claim
import Conduit.Consumer
import Conduit.CronGaps
import Conduit.CronGrammar
import Conduit.Exclusion
import Conduit.Exhaustion
import Conduit.Expiry
import Conduit.Fencing
import Conduit.Idempotency
import Conduit.Identifiers
import Conduit.Listing
import Conduit.LockMessages
import Conduit.NullScan
import Conduit.Pool
import Conduit.Reconciler
import Conduit.Recovery
import Conduit.Retry
import Conduit.Segments
import Conduit.Shutdown
import Conduit.Terminal
import Conduit.Tokens
import Conduit.WebhookErrors
import Conduit.Zones
