import TaskDispatcher.Container.MpmcQueue
import TaskDispatcher.Container.FifoQueue

/-!
# The state of the scheduler

The data of `Scheduler`, and what each fiber will do when it next runs.  Fields
under the heading *history* exist for the statements only: nothing the
scheduler does depends on them.
-/

namespace TaskDispatcher.Scheduler

open TaskDispatcher.Library TaskDispatcher.Container

/-- The fields of `scheduler_config` that the scheduler's logic reads. -/
structure Config where
  numFibers : Nat
  numThreads : Nat
  maxNumCounters : Nat
  maxNumTasks : Nat

/-- `atomic_counter_t::max_waiting`, and the capacity of `resumable_fiber_mpsc_queue`. -/
def maxWaiting : Nat := 32

def invalidFiber : Nat := 2 ^ 32 - 1

/-- `container::task`: its metadata, and the submission it comes from. -/
structure Task where
  metadata : Nat
  -- history
  id : Nat
  life : Nat
  deriving DecidableEq, Repr

/-- An entry of a queue of resumable fibers; `reg` is the `wait` call whose
registration it was taken from (history). -/
structure Wake where
  fiber : Nat
  reg : Nat
  deriving DecidableEq, Repr

/-- `atomic_counter_t::waiting_fiber_t`; `reg` is the `wait` call that wrote
`fiberIndex` (history). -/
structure WaitingFiber where
  counterTarget : Int
  fiberIndex : Nat
  pinnedThreadIndex : Option Nat
  inUse : Bool
  reg : Nat

structure AtomicCounter where
  count : Int
  waitingFibers : Table WaitingFiber
  freeWaitingSlots : Table Bool

inductive FiberDestination where
  | none
  | waiting
  | pool
  deriving DecidableEq, Repr

/-- A `wait` call in progress. -/
structure WaitCall where
  counter : Nat
  fiber : Nat
  pinned : Option Nat
  target : Int
  /-- the sync of `single_wait_for`, if that made the call -/
  sync : Option Nat
  -- history
  call : Nat
  life : Nat
  deriving DecidableEq, Repr

/-! ## Program counters -/

/-- The caller of `acquireFreeFiber`. -/
inductive AcquireK where
  | start
  | wait (w : WaitCall)
  deriving DecidableEq, Repr

/-- The queue `getNextTask` took a resumable fiber from. -/
inductive ResumeSource where
  | pinned
  | global
  deriving DecidableEq, Repr

/-- The caller of `yieldToFiber`. -/
inductive YieldK where
  | wait (w : WaitCall)
  | resume (src : ResumeSource)
  deriving DecidableEq, Repr

/-- The caller of `cleanUpPrevFiber`. -/
inductive CleanK where
  | fiberFunc
  | yielded (k : YieldK)
  deriving DecidableEq, Repr

/-- `counterAddWaitingFiber`, in slot `i` of its loop. -/
inductive AddPC where
  | acquire                 -- exchange of `free_waiting_slots[i]`
  | writeFiber
  | writeTarget
  | writePinned
  | publish                 -- `slot.in_use.store(false)`
  | load                    -- `counter.count.load()`
  | recheck (value : Int)   -- `slot.in_use.load()`
  | compare (value : Int)   -- `slot.counter_target == counter_val`
  | claim                   -- exchange of `slot.in_use`
  | free                    -- `free_waiting_slots[i].store(true)`
  deriving DecidableEq, Repr

/-- `counterCheckWaitingFibers`, in slot `i` of its loop.  `reg` is the
registration seen when the target was compared (history). -/
inductive ScanPC where
  | free                    -- `free_waiting_slots[i].load()`
  | inUse                   -- `slot.in_use.load()`
  | target                  -- `slot.counter_target == value`
  | claim (reg : Nat)       -- exchange of `slot.in_use`
  | pinned (reg : Nat)      -- `slot.pinned_thread_index == invalid_thread`
  | fiber (reg : Nat)       -- the argument of `mResumableFibers.enqueue`
  | release (reg : Nat)     -- `free_waiting_slots[i].store(true)`
  deriving DecidableEq, Repr

/-- The enqueue of `counterCheckWaitingFibers` on a thread's pinned queue. -/
inductive PinPC where
  | lock
  | push
  | unlock
  deriving DecidableEq, Repr

/-- A submission: the tasks `next, next + 1, …` of a `submitTasks` call. -/
structure Submission where
  counter : Nat
  life : Nat
  next : Nat
  remaining : Nat
  success : Bool
  deriving DecidableEq, Repr

/-- The caller of `counterIncrement`. -/
inductive IncrementK where
  | user
  | taskDone (id : Nat)
  | submit (num : Nat) (sync : Option Nat)
  deriving DecidableEq, Repr

structure Increment where
  counter : Nat
  life : Nat
  amount : Int
  k : IncrementK
  deriving DecidableEq, Repr

/-- What follows `counterCheckWaitingFibers`. -/
inductive ScanK where
  | user
  | taskDone
  | submit (sub : Submission)
  deriving DecidableEq, Repr

structure Scan where
  counter : Nat
  life : Nat
  value : Int
  k : ScanK
  deriving DecidableEq, Repr

/-- The caller of an enqueue on `mResumableFibers`. -/
inductive PushK where
  | scan (x : Scan) (i : Nat)
  | getNextTask
  deriving DecidableEq, Repr

/-- The caller of `acquireCounterHandle`. -/
inductive HandleK where
  | user
  | submit (num : Nat) (sync : Nat)
  deriving DecidableEq, Repr

/-- The caller of `releaseCounter` or `releaseCounterIfOnTarget`. -/
inductive ReleaseK where
  | user
  | waitFor (sync : Nat)
  deriving DecidableEq, Repr

/-- Where a fiber stands. -/
inductive PC where
  -- `worker_func` and `start`, on the thread fiber
  | startSwitch (g : Nat)
  | done
  -- `fiber_func` and `primary_fiber_func`
  | entry
  | loop
  | noTask
  | eventWait
  | body
  | shutDown
  | exitSwitch
  -- `cleanUpPrevFiber` and `yieldToFiber`
  | clean (k : CleanK)
  | idleEnq (k : CleanK) (v : Nat) (pc : EnqueuePC)
  | yieldTo (g : Nat) (k : YieldK)
  -- `acquireFreeFiber`
  | idleDeq (k : AcquireK) (pc : DequeuePC Nat)
  -- `getNextTask` and `tryResumeFiber`
  | getLock
  | getPop
  | getUnlock (got : Option Wake)
  | tryResume (src : ResumeSource) (v : Wake)
  | reLock (v : Wake)
  | rePush (v : Wake)
  | reUnlock
  | resDeq (pc : DequeuePC Wake)
  | resEnq (k : PushK) (v : Wake) (pc : EnqueuePC)
  | taskDeq (pc : DequeuePC Task)
  -- `wait` and `counterAddWaitingFiber`
  | waitStore (w : WaitCall)
  | add (w : WaitCall) (i : Nat) (pc : AddPC)
  | waitDone (w : WaitCall)
  -- `counterIncrement` and `counterCheckWaitingFibers`
  | increment (c : Increment)
  | scan (x : Scan) (i : Nat) (pc : ScanPC)
  | pin (x : Scan) (i : Nat) (reg : Nat) (t : Nat) (pc : PinPC)
  -- `submitTasks`
  | taskEnq (sub : Submission) (t : Task) (pc : EnqueuePC)
  -- `acquireCounterHandle`
  | freeDeq (k : HandleK) (pc : DequeuePC Nat)
  | resetCount (c : Nat) (k : HandleK)
  | resetSlot (c : Nat) (i : Nat) (k : HandleK)
  | acquireHandle (c : Nat) (k : HandleK)
  -- `releaseCounter` and `releaseCounterIfOnTarget`
  | releaseLoad (h : Nat) (target : Option Int) (k : ReleaseK)
  | releaseHandle (h : Nat) (c : Nat) (k : ReleaseK)
  | freeEnq (k : ReleaseK) (c : Nat) (pc : EnqueuePC)
  deriving DecidableEq, Repr

/-! ## State -/

/-- `worker_thread_t` -/
structure WorkerThread where
  pinnedResumableFibers : Fifo Wake
  locked : Bool

/-- `tls_t` of a thread; `running` is the agent that executes on it, a fiber or
its thread fiber. -/
structure Tls where
  currentFiberIndex : Option Nat
  previousFiberIndex : Option Nat
  previousFiberDest : FiberDestination
  running : Nat

/-- `AtomicCounterHandleContent`; `life` numbers the acquisitions, and `sync` is
the sync the handle was acquired for (history). -/
structure HandleContent where
  counterIndex : Nat
  life : Nat
  sync : Option Nat
  deriving DecidableEq, Repr

/-- The failed `CC_RUNTIME_ASSERT`s. -/
inductive Panic where
  | noFreeCounter
  | waitingSlotsFull
  | taskQueueFull
  deriving DecidableEq, Repr

/-- The submission a task belongs to. -/
structure TaskInfo where
  counter : Nat
  life : Nat
  sync : Option Nat
  deriving DecidableEq, Repr

structure Hist where
  /-- `wait` calls begun, by number -/
  nextCall : Nat
  call : Table (Option WaitCall)
  /-- what `counterAddWaitingFiber` returned to the call -/
  added : Table (Option Bool)
  /-- how often the registration of the call was pushed to a resumable queue -/
  pushes : Table Nat
  ended : Table Bool
  nextLife : Nat
  nextTask : Nat
  task : Table TaskInfo
  started : Table Nat
  returned : Table Nat
  decremented : Table Nat
  suspends : Table Nat
  resumes : Table Nat
  /-- syncs submitted to since their last `wait_for` -/
  unwaited : Table Bool

structure Mem where
  idleFibers : Mpmc Nat
  resumableFibers : Mpmc Wake
  freeCounters : Mpmc Nat
  tasks : Mpmc Task
  counters : Table AtomicCounter
  threads : Table WorkerThread
  tls : Table Tls
  /-- `tls_t::is_thread_waiting` -/
  isThreadWaiting : Table Bool
  /-- `worker_fiber_t::is_waiting_cleaned_up` -/
  isWaitingCleanedUp : Table Bool
  /-- the local `task` of each `fiber_func` while it executes it -/
  task : Table (Option Task)
  /-- the local `backoff_num_pauses` of each `fiber_func` -/
  backoff : Table Nat
  handles : Table (Option HandleContent)
  /-- the handle of each `td::sync`, `none` for `null_counter` -/
  syncs : Table (Option Nat)
  isShuttingDown : Bool
  /-- the fiber that `start` created with `primary_fiber_func` -/
  primary : Option Nat
  panic : Option Panic
  hist : Hist

/-- `pc` is indexed by agent: the fibers, then the thread fibers. -/
structure State where
  mem : Mem
  pc : Table PC

end TaskDispatcher.Scheduler
