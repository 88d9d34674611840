import Cfutures.Queue.Delivery
import Cfutures.Queue.Destroy
import Cfutures.Queue.Cancellation
import Cfutures.Queue.Backward
import Cfutures.Pool.Idle
import Cfutures.Pool.Cleanup
import Cfutures.Pool.Lifetime
import Cfutures.Pool.Stranded
import Cfutures.Pool.Ordered
import Cfutures.Future.Settlement
import Cfutures.Future.Getting
import Cfutures.Future.Snapshot
import Cfutures.Future.Records
import Cfutures.Pool.Waiting
import Cfutures.Queue.Linearizable
import Cfutures.Queue.Leaks
import Cfutures.Future.Order
import Cfutures.Theory.Progress
import Cfutures.Pool.Nested
import Cfutures.Pool.Assertions
import Cfutures.Pool.Behaviours
import Cfutures.Pool.Leftover
import Cfutures.Selftest.Queue
import Cfutures.Selftest.Future
import Cfutures.Selftest.Pool
