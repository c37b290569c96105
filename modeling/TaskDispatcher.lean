import TaskDispatcher.Library.Table
import TaskDispatcher.Library.Ring
import TaskDispatcher.Library.Transition
import TaskDispatcher.Library.Tokens
import TaskDispatcher.Library.Simulation
import TaskDispatcher.Library.Atomic
import TaskDispatcher.Library.Pool
import TaskDispatcher.Common.MathIntrin
import TaskDispatcher.Common.SpinLock
import TaskDispatcher.Container.MpmcQueue
import TaskDispatcher.Container.MpmcInvariant
import TaskDispatcher.Container.MpmcSystem
import TaskDispatcher.Container.MpmcRest
import TaskDispatcher.Container.MpmcLinear
import TaskDispatcher.Container.MpmcProgress
import TaskDispatcher.Container.FifoQueue
import TaskDispatcher.Container.VersionRing
import TaskDispatcher.Container.Deque
import TaskDispatcher.Container.DequeSystem
import TaskDispatcher.Container.DequeReclaim
import TaskDispatcher.Container.DequeLifetime
import TaskDispatcher.Container.DequeElements
import TaskDispatcher.Container.DequeLinear
import TaskDispatcher.Scheduler.State
import TaskDispatcher.Scheduler.Step
import TaskDispatcher.Scheduler.Queues
import TaskDispatcher.Scheduler.Fibers
import TaskDispatcher.Scheduler.Exclusivity
import TaskDispatcher.Scheduler.Accesses
import TaskDispatcher.Scheduler.Pinned
import TaskDispatcher.Scheduler.Calls
import TaskDispatcher.Scheduler.Wakes
import TaskDispatcher.Scheduler.Counters
import TaskDispatcher.Scheduler.Capacity
import TaskDispatcher.Scheduler.Slots
import TaskDispatcher.Scheduler.Registrations
import TaskDispatcher.Scheduler.Resolution
import TaskDispatcher.Scheduler.Affinity
import TaskDispatcher.Scheduler.LostWakes
import TaskDispatcher.Scheduler.WaitingFlag
import TaskDispatcher.Scheduler.Panics
import TaskDispatcher.Scheduler.Tasks
import TaskDispatcher.Scheduler.Ledger
import TaskDispatcher.Scheduler.Accounting
import TaskDispatcher.Scheduler.EarlyWakes
import TaskDispatcher.Scheduler.Recycling
import TaskDispatcher.Scheduler.Startup
import TaskDispatcher.Scheduler.Restart
import TaskDispatcher.Scheduler.Validation
import TaskDispatcher.Scheduler.Raceless
import TaskDispatcher.Scheduler.SingleThread
import TaskDispatcher.Scheduler.Joins
import TaskDispatcher.Scheduler.Deliveries
import TaskDispatcher.Scheduler.PinnedLock
import TaskDispatcher.Scheduler.Placement
import TaskDispatcher.Scheduler.Quiet
import TaskDispatcher.Scheduler.Shutdown
import TaskDispatcher.Scheduler.Refinement
import TaskDispatcher.Scheduler.Deadlock
import TaskDispatcher.Scheduler.ForkJoin
import TaskDispatcher.Scheduler.WorkStealing
import TaskDispatcher.Submit.Batched
import TaskDispatcher.Submit.Bulk
import TaskDispatcher.Submit.Future
import TaskDispatcher.Submit.Ownership
