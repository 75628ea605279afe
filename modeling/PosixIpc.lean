import PosixIpc.Spsc.Drain
import PosixIpc.Spsc.Protocol
import PosixIpc.PubSub.Preconditions
import PosixIpc.PubSub.Startup
import PosixIpc.PubSub.Convergence
import PosixIpc.PubSub.Isolation
import PosixIpc.Framework.Run
import PosixIpc.Spsc.Transaction
import PosixIpc.PubSub.Reconcile
import PosixIpc.Spsc.Capacity
import PosixIpc.Spsc.Counter
import PosixIpc.Posix.Outcomes
import PosixIpc.PubSub.Observer
import PosixIpc.PubSub.Failure
import PosixIpc.Framework.Ownership
import PosixIpc.Spsc.Payloads
import PosixIpc.Posix.Handles
import PosixIpc.Posix.Objects
import PosixIpc.Posix.Creators
import PosixIpc.PubSub.Threads
import PosixIpc.Spsc.MixedProtocol
import PosixIpc.PubSub.Delivery
import PosixIpc.PubSub.Station
import PosixIpc.Mpmc.Progress
import PosixIpc.PubSub.Network
import PosixIpc.PubSub.Reception
import PosixIpc.Framework.Circular
import PosixIpc.Framework.Parallel
import PosixIpc.Ring.Buffer
import PosixIpc.Ring.Linear
import PosixIpc.Ring.Mutex
import PosixIpc.PubSub.Room
