import TaskDispatcher.Scheduler.State
import TaskDispatcher.Library.Transition

/-!
# The steps of the scheduler

A step makes one access to shared memory on one thread, together with the
thread-local work around it.  `exec` runs the access the executing agent stands
at; it changes the memory and that agent's program counter only.

A task body may make any call of the API at any time (`UserCall`), so every
program is covered.  `CC_ASSERT`s on arguments are preconditions of the calls,
a failed `CC_RUNTIME_ASSERT` ends the run, and signalling the work event has no
effect beyond the scheduling, which is arbitrary here.
-/

namespace TaskDispatcher.Scheduler

open TaskDispatcher.Library TaskDispatcher.Container

/-- A call of the API made by a task body. -/
inductive UserCall where
  | acquire                                            -- `acquire_counter`
  | release (h : Nat)                                  -- `release_counter`
  | releaseOn (h : Nat) (target : Int)                 -- `release_counter_if_on_target`
  | submitOn (h : Nat) (num : Nat)                     -- `submit_on_counter`
  | waitOn (h : Nat) (pinned : Bool) (target : Int)    -- `wait_for_counter`
  | add (h : Nat) (amount : Int)                       -- `increment_counter`, `decrement_counter`
  | submit (sync : Nat) (num : Nat)                    -- `submit_raw`
  | waitFor (sync : Nat) (pinned : Bool)               -- `single_wait_for`
  | ret                                                -- the end of the body
  deriving DecidableEq, Repr

/-- What a step leaves open. -/
inductive Choice where
  | go
  | spurious          -- a `compare_exchange_weak` fails although the value matches
  | call (u : UserCall)
  | handle (h : Nat)  -- the handle `mCounterHandles.acquire` returns
  deriving DecidableEq, Repr

/-- The thread that steps and what it chooses. -/
structure Label where
  thread : Nat
  choice : Choice
  deriving DecidableEq, Repr

namespace AtomicCounter

def slot (c : AtomicCounter) (i : Nat) : WaitingFiber := c.waitingFibers i

def setSlot (c : AtomicCounter) (i : Nat) (g : WaitingFiber) : AtomicCounter :=
  { c with waitingFibers := c.waitingFibers.set i g }

def setFree (c : AtomicCounter) (i : Nat) (b : Bool) : AtomicCounter :=
  { c with freeWaitingSlots := c.freeWaitingSlots.set i b }

theorem slot_setSlot (a : AtomicCounter) (j k : Nat) (g : WaitingFiber) :
    (a.setSlot j g).slot k = if k = j then g else a.slot k :=
  Table.get_set _ _ _ _

@[simp] theorem slot_setFree (a : AtomicCounter) (j k : Nat) (b : Bool) :
    (a.setFree j b).slot k = a.slot k := rfl

@[simp] theorem free_setSlot (a : AtomicCounter) (j : Nat) (g : WaitingFiber) :
    (a.setSlot j g).freeWaitingSlots = a.freeWaitingSlots := rfl

@[simp] theorem count_setSlot (a : AtomicCounter) (j : Nat) (g : WaitingFiber) :
    (a.setSlot j g).count = a.count := rfl

@[simp] theorem count_setFree (a : AtomicCounter) (j : Nat) (b : Bool) :
    (a.setFree j b).count = a.count := rfl

theorem free_setFree (a : AtomicCounter) (j k : Nat) (b : Bool) :
    (a.setFree j b).freeWaitingSlots k = if k = j then b else a.freeWaitingSlots k :=
  Table.get_set _ _ _ _

end AtomicCounter

/-! ## `counterAddWaitingFiber` -/

inductive AddNext where
  | goto (i : Nat) (pc : AddPC)
  | ret (b : Bool)
  | full
  deriving DecidableEq, Repr

/-- One access of `counterAddWaitingFiber` to the counter it was given. -/
def addStep (c : AtomicCounter) (w : WaitCall) (i : Nat) : AddPC → AtomicCounter × AddNext
  | .acquire =>
      if c.freeWaitingSlots i then (c.setFree i false, .goto i .writeFiber)
      else if i + 1 < maxWaiting then (c, .goto (i + 1) .acquire)
      else (c, .full)
  | .writeFiber =>
      (c.setSlot i { c.slot i with fiberIndex := w.fiber, reg := w.call }, .goto i .writeTarget)
  | .writeTarget =>
      (c.setSlot i { c.slot i with counterTarget := w.target }, .goto i .writePinned)
  | .writePinned =>
      (c.setSlot i { c.slot i with pinnedThreadIndex := w.pinned }, .goto i .publish)
  | .publish => (c.setSlot i { c.slot i with inUse := false }, .goto i .load)
  | .load => (c, .goto i (.recheck c.count))
  | .recheck value => if (c.slot i).inUse then (c, .ret false) else (c, .goto i (.compare value))
  | .compare value =>
      if (c.slot i).counterTarget = value then (c, .goto i .claim) else (c, .ret false)
  | .claim =>
      if (c.slot i).inUse then (c, .ret false)
      else (c.setSlot i { c.slot i with inUse := true }, .goto i .free)
  | .free => (c.setFree i true, .ret true)

/-! ## `counterCheckWaitingFibers` -/

inductive ScanNext where
  | goto (pc : ScanPC)
  | skip                              -- on to the next slot
  | enqueue (v : Wake)                -- `mResumableFibers.enqueue`
  | pin (reg : Nat) (t : Nat)         -- the enqueue on the queue of thread `t`
  deriving DecidableEq, Repr

/-- One access of `counterCheckWaitingFibers` to the counter it was given. -/
def scanStep (c : AtomicCounter) (value : Int) (i : Nat) : ScanPC → AtomicCounter × ScanNext
  | .free => if c.freeWaitingSlots i then (c, .skip) else (c, .goto .inUse)
  | .inUse => if (c.slot i).inUse then (c, .skip) else (c, .goto .target)
  | .target =>
      if (c.slot i).counterTarget = value then (c, .goto (.claim (c.slot i).reg)) else (c, .skip)
  | .claim reg =>
      if (c.slot i).inUse then (c, .skip)
      else (c.setSlot i { c.slot i with inUse := true }, .goto (.pinned reg))
  | .pinned reg =>
      match (c.slot i).pinnedThreadIndex with
      | none => (c, .goto (.fiber reg))
      | some t => (c, .pin reg t)
  -- The slot is locked, so reading the reference argument when the call begins
  -- reads what the call will copy.
  | .fiber _ => (c, .enqueue { fiber := (c.slot i).fiberIndex, reg := (c.slot i).reg })
  | .release _ => (c.setFree i true, .skip)

/-! ## Continuations -/

/-- The sync a handle is acquired for. -/
def HandleK.sync : HandleK → Option Nat
  | .user => none
  | .submit _ sync => some sync

/-- What follows `cleanUpPrevFiber`. -/
def afterClean : CleanK → PC
  | .fiberFunc => .loop
  | .yielded (.wait w) => .waitDone w
  | .yielded (.resume .pinned) => .resDeq .load
  | .yielded (.resume .global) => .taskDeq .load

/-- The destination the caller gives its own fiber. -/
def destination : YieldK → FiberDestination
  | .wait _ => .waiting
  | .resume _ => .pool

/-- The enqueue of the next task of a submission. -/
def enqueueNext (sub : Submission) : PC :=
  .taskEnq sub { metadata := sub.counter, id := sub.next, life := sub.life } .load

/-- What follows `counterCheckWaitingFibers`. -/
def afterScan : ScanK → PC
  | .user => .body
  | .taskDone => .loop
  | .submit sub => enqueueNext sub

/-- The loop of `counterCheckWaitingFibers` goes on to the slot after `i`. -/
def nextSlot (x : Scan) (i : Nat) : PC :=
  if i + 1 < maxWaiting then .scan x (i + 1) .free else afterScan x.k

/-- What follows an enqueue on `mResumableFibers`. -/
def afterPush (reg : Nat) : PushK → PC
  | .scan x i => .scan x i (.release reg)
  | .getNextTask => .taskDeq .load

/-- `counterIncrement` of the announced tasks: `mCounterHandles.get` was read by the caller. -/
def submitTasks (c : HandleContent) (num : Nat) (sync : Option Nat) : PC :=
  .increment
    { counter := c.counterIndex, life := c.life, amount := num, k := .submit num sync }

/-! ## The calls of the API -/

namespace Hist

def beginCall (hist : Hist) (w : WaitCall) : Hist :=
  { hist with nextCall := hist.nextCall + 1, call := hist.call.set hist.nextCall (some w) }

def count (t : Table Nat) (i : Nat) : Table Nat := t.set i (t i + 1)

/-- The tasks of a submission get their numbers. -/
def announce (hist : Hist) (info : TaskInfo) : Nat → Hist
  | 0 => hist
  | num + 1 =>
      announce
        { hist with nextTask := hist.nextTask + 1, task := hist.task.set hist.nextTask info }
        info num

theorem announce_eq (hist : Hist) (info : TaskInfo) (num : Nat) :
    hist.announce info num =
      { hist with
        nextTask := hist.nextTask + num
        task := (hist.announce info num).task } := by
  induction num generalizing hist with
  | zero => rfl
  | succ num ih =>
      show (Hist.announce _ info num) = _
      rw [ih]
      show _ = { hist with nextTask := hist.nextTask + (num + 1), task := (Hist.announce _ info num).task }
      rw [show hist.nextTask + (num + 1) = hist.nextTask + 1 + num by omega]

end Hist

/-- `Scheduler::wait` up to its first access; `f` runs on thread `i`. -/
def beginWait (m : Mem) (i f : Nat) (c : HandleContent) (pinned : Bool) (target : Int)
    (sync : Option Nat) : Mem × PC :=
  let w : WaitCall :=
    { counter := c.counterIndex
      fiber := f
      pinned := if pinned then some i else none
      target := target
      sync := sync
      call := m.hist.nextCall
      life := c.life }
  ({ m with hist := m.hist.beginCall w }, .waitStore w)

/-- The body running on fiber `f` of thread `i` makes a call or ends. -/
def userStep (m : Mem) (i f : Nat) : UserCall → Option (Mem × PC)
  | .acquire => some (m, .freeDeq .user .load)
  | .release h => some (m, .releaseLoad h none .user)
  | .releaseOn h target => some (m, .releaseLoad h (some target) .user)
  | .submitOn h num =>
      match m.handles h with
      | some c => if num = 0 then none else some (m, submitTasks c num none)
      | none => none
  | .waitOn h pinned target =>
      match m.handles h with
      | some c => if 0 ≤ target then some (beginWait m i f c pinned target none) else none
      | none => none
  | .add h amount =>
      match m.handles h with
      | some c =>
          if amount = 0 then none
          else some (m, .increment
            { counter := c.counterIndex, life := c.life, amount := amount, k := .user })
      | none => none
  | .submit sync num =>
      if num = 0 then none
      else
        let m := { m with hist := { m.hist with unwaited := m.hist.unwaited.set sync true } }
        match m.syncs sync with
        | none => some (m, .freeDeq (.submit num sync) .load)
        | some h =>
            match m.handles h with
            | some c => some (m, submitTasks c num (some sync))
            | none => none
  | .waitFor sync pinned =>
      let m := { m with hist := { m.hist with unwaited := m.hist.unwaited.set sync false } }
      match m.syncs sync with
      | none => some (m, .body)
      | some h =>
          match m.handles h with
          | some c => some (beginWait m i f c pinned 0 (some sync))
          | none => none
  | .ret =>
      match m.task f with
      | none => some (m, .shutDown)
      | some t =>
          some
            ({ m with
                task := m.task.set f none
                hist := { m.hist with returned := Hist.count m.hist.returned t.id } },
              .increment
                { counter := t.metadata, life := t.life, amount := -1, k := .taskDone t.id })

/-! ## One access -/

def backoffMax : Nat := 2 ^ 10

/-- `counterIncrement`: the `fetch_add`.  A submission gives its tasks their numbers. -/
def incrementStep (m : Mem) (inc : Increment) : Mem × PC :=
  let c := m.counters inc.counter
  let value := c.count + inc.amount
  let m := { m with counters := m.counters.set inc.counter { c with count := value } }
  let x (k : ScanK) : PC :=
    .scan { counter := inc.counter, life := inc.life, value := value, k := k } 0 .free
  match inc.k with
  | .user => (m, x .user)
  | .taskDone id =>
      ({ m with hist := { m.hist with decremented := Hist.count m.hist.decremented id } },
        x .taskDone)
  | .submit num sync =>
      ({ m with
          hist := m.hist.announce { counter := inc.counter, life := inc.life, sync := sync } num },
        x (.submit
          { counter := inc.counter
            life := inc.life
            next := m.hist.nextTask
            remaining := num
            success := true }))

/-- After the enqueue of one task of a submission. -/
def submitNext (m : Mem) (sub : Submission) (b : Bool) : Mem × PC :=
  let sub : Submission :=
    { sub with next := sub.next + 1, remaining := sub.remaining - 1, success := sub.success && b }
  if sub.remaining = 0 then
    if sub.success then (m, .body) else ({ m with panic := some .taskQueueFull }, .body)
  else (m, enqueueNext sub)

/-- The enqueue on the queue of thread `t`, under its lock. -/
def pinStep (m : Mem) (x : Scan) (j reg t : Nat) : PinPC → Mem × PC
  | .lock =>
      let th := m.threads t
      if th.locked then (m, .pin x j reg t .lock)
      else ({ m with threads := m.threads.set t { th with locked := true } }, .pin x j reg t .push)
  | .push =>
      let th := m.threads t
      let g := (m.counters x.counter).slot j
      let v : Wake := { fiber := g.fiberIndex, reg := g.reg }
      let q := th.pinnedResumableFibers.enqueue maxWaiting v
      ({ m with
          threads := m.threads.set t { th with pinnedResumableFibers := q }
          hist := { m.hist with pushes := Hist.count m.hist.pushes v.reg } },
        .pin x j reg t .unlock)
  | .unlock =>
      ({ m with threads := m.threads.set t { m.threads t with locked := false } },
        .scan x j (.release reg))

/-- `cleanUpPrevFiber` on thread `i`, up to its access. -/
def cleanStep (m : Mem) (i : Nat) (k : CleanK) : Mem × PC :=
  let t := m.tls i
  let previous := t.previousFiberIndex.getD invalidFiber
  match t.previousFiberDest with
  | .none => (m, afterClean k)
  | .pool => (m, .idleEnq k previous .load)
  | .waiting =>
      ({ m with
          isWaitingCleanedUp := m.isWaitingCleanedUp.set previous true
          tls := m.tls.set i { t with previousFiberIndex := none, previousFiberDest := .none } },
        afterClean k)

/-- What follows a release that did or did not happen. -/
def afterRelease (m : Mem) (released : Bool) : ReleaseK → Mem
  | .user => m
  | .waitFor sync => if released then { m with syncs := m.syncs.set sync none } else m

/-- What follows `wait`. -/
def afterWait (m : Mem) (w : WaitCall) : Option PC :=
  match w.sync with
  | none => some .body
  | some sync =>
      match m.syncs sync with
      | some h => some (.releaseLoad h (some 0) (.waitFor sync))
      | none => none

/-- The access agent `f` stands at, executed on thread `i`. -/
def exec (cfg : Config) (m : Mem) (i f : Nat) (ch : Choice) : PC → Option (Mem × PC)
  -- `worker_func` and `start`: thread 0 makes its first fiber the primary fiber
  | .startSwitch g =>
      some
        ({ m with
            primary := if i = 0 then some g else m.primary
            tls := m.tls.set i { m.tls i with currentFiberIndex := some g, running := g } },
          .done)
  | .done => none
  -- `fiber_func` and `primary_fiber_func`
  | .entry => some (m, if m.primary = some f then .body else .clean .fiberFunc)
  | .loop => some (m, if m.isShuttingDown then .exitSwitch else .getLock)
  | .noTask =>
      if m.backoff f = backoffMax ∧ m.isThreadWaiting i = false then some (m, .eventWait)
      else some ({ m with backoff := m.backoff.set f (min backoffMax (m.backoff f * 2)) }, .loop)
  | .eventWait => some (m, .loop)
  | .body =>
      match ch with
      | .call u => userStep m i f u
      | _ => none
  | .shutDown => some ({ m with isShuttingDown := true }, .exitSwitch)
  | .exitSwitch =>
      some ({ m with tls := m.tls.set i { m.tls i with running := cfg.numFibers + i } }, .done)
  -- `cleanUpPrevFiber` and `yieldToFiber`
  | .clean k => some (cleanStep m i k)
  | .idleEnq k v pc =>
      let r := Mpmc.enqueueStep 0 v (ch = .spurious) m.idleFibers pc
      let m := { m with idleFibers := r.1 }
      match r.2 with
      | .inl pc => some (m, .idleEnq k v pc)
      | .inr _ =>
          let t := { m.tls i with previousFiberIndex := none, previousFiberDest := .none }
          some ({ m with tls := m.tls.set i t }, afterClean k)
  | .yieldTo g k =>
      let t := m.tls i
      let hist := match k with
        | .wait _ => { m.hist with suspends := Hist.count m.hist.suspends f }
        | .resume _ => { m.hist with resumes := Hist.count m.hist.resumes g }
      some
        ({ m with
            hist := hist
            tls := m.tls.set i
              { currentFiberIndex := some g
                previousFiberIndex := t.currentFiberIndex
                previousFiberDest := destination k
                running := g } },
          .clean (.yielded k))
  -- `acquireFreeFiber`
  | .idleDeq k pc =>
      let r := Mpmc.dequeueStep 0 (ch = .spurious) m.idleFibers pc
      let m := { m with idleFibers := r.1 }
      match r.2 with
      | .inl pc => some (m, .idleDeq k pc)
      | .inr none => some (m, .idleDeq k .load)
      | .inr (some g) =>
          match k with
          | .start => some (m, .startSwitch g)
          | .wait w => some (m, .yieldTo g (.wait w))
  -- `getNextTask` and `tryResumeFiber`
  | .getLock =>
      let t := m.threads i
      if t.locked then some (m, .getLock)
      else some ({ m with threads := m.threads.set i { t with locked := true } }, .getPop)
  | .getPop =>
      let t := m.threads i
      let r := t.pinnedResumableFibers.dequeue maxWaiting
      some ({ m with threads := m.threads.set i { t with pinnedResumableFibers := r.2 } },
        .getUnlock r.1)
  | .getUnlock got =>
      some ({ m with threads := m.threads.set i { m.threads i with locked := false } },
        match got with
        | some v => .tryResume .pinned v
        | none => .resDeq .load)
  | .tryResume src v =>
      if m.isWaitingCleanedUp v.fiber then
        some ({ m with isWaitingCleanedUp := m.isWaitingCleanedUp.set v.fiber false },
          .yieldTo v.fiber (.resume src))
      else
        match src with
        | .pinned => some (m, .reLock v)
        | .global => some (m, .resEnq .getNextTask v .load)
  | .reLock v =>
      let t := m.threads i
      if t.locked then some (m, .reLock v)
      else some ({ m with threads := m.threads.set i { t with locked := true } }, .rePush v)
  | .rePush v =>
      let t := m.threads i
      let q := t.pinnedResumableFibers.enqueue maxWaiting v
      some ({ m with threads := m.threads.set i { t with pinnedResumableFibers := q } }, .reUnlock)
  | .reUnlock =>
      some ({ m with threads := m.threads.set i { m.threads i with locked := false } },
        .resDeq .load)
  | .resDeq pc =>
      let r := Mpmc.dequeueStep 0 (ch = .spurious) m.resumableFibers pc
      let m := { m with resumableFibers := r.1 }
      match r.2 with
      | .inl pc => some (m, .resDeq pc)
      | .inr none => some (m, .taskDeq .load)
      | .inr (some v) => some (m, .tryResume .global v)
  | .resEnq k v pc =>
      let r := Mpmc.enqueueStep 0 v (ch = .spurious) m.resumableFibers pc
      let m := { m with resumableFibers := r.1 }
      match r.2 with
      | .inl pc => some (m, .resEnq k v pc)
      | .inr b => some
          (if k ≠ .getNextTask ∧ b = true then
            { m with hist := { m.hist with pushes := Hist.count m.hist.pushes v.reg } }
          else m, afterPush v.reg k)
  | .taskDeq pc =>
      let r := Mpmc.dequeueStep 0 (ch = .spurious) m.tasks pc
      let m := { m with tasks := r.1 }
      match r.2 with
      | .inl pc => some (m, .taskDeq pc)
      | .inr none => some (m, .noTask)
      | .inr (some t) =>
          some
            ({ m with
                task := m.task.set f (some t)
                backoff := m.backoff.set f 1
                hist := { m.hist with started := Hist.count m.hist.started t.id } },
              .body)
  -- `wait` and `counterAddWaitingFiber`
  | .waitStore w =>
      some
        ({ m with
            isWaitingCleanedUp := m.isWaitingCleanedUp.set f false
            isThreadWaiting := m.isThreadWaiting.set i true },
          .add w 0 .acquire)
  | .add w j pc =>
      let r := addStep (m.counters w.counter) w j pc
      let m := { m with counters := m.counters.set w.counter r.1 }
      match r.2 with
      | .goto j pc => some (m, .add w j pc)
      | .full => some ({ m with panic := some .waitingSlotsFull }, .add w j .acquire)
      | .ret b =>
          some ({ m with hist := { m.hist with added := m.hist.added.set w.call (some b) } },
            if b then .waitDone w else .idleDeq (.wait w) .load)
  | .waitDone w =>
      let m :=
        { m with
          isThreadWaiting := m.isThreadWaiting.set i false
          hist := { m.hist with ended := m.hist.ended.set w.call true } }
      (afterWait m w).map fun pc => (m, pc)
  -- `counterIncrement` and `counterCheckWaitingFibers`
  | .increment inc => some (incrementStep m inc)
  | .scan x j pc =>
      let r := scanStep (m.counters x.counter) x.value j pc
      let m := { m with counters := m.counters.set x.counter r.1 }
      match r.2 with
      | .goto pc => some (m, .scan x j pc)
      | .skip => some (m, nextSlot x j)
      | .enqueue v => some (m, .resEnq (.scan x j) v .load)
      | .pin reg t => some (m, .pin x j reg t .lock)
  | .pin x j reg t pc => some (pinStep m x j reg t pc)
  -- `submitTasks`
  | .taskEnq sub t pc =>
      let r := Mpmc.enqueueStep 0 t (ch = .spurious) m.tasks pc
      let m := { m with tasks := r.1 }
      match r.2 with
      | .inl pc => some (m, .taskEnq sub t pc)
      | .inr b => some (submitNext m sub b)
  -- `acquireCounterHandle`
  | .freeDeq k pc =>
      let r := Mpmc.dequeueStep 0 (ch = .spurious) m.freeCounters pc
      let m := { m with freeCounters := r.1 }
      match r.2 with
      | .inl pc => some (m, .freeDeq k pc)
      | .inr none => some ({ m with panic := some .noFreeCounter }, .freeDeq k .load)
      | .inr (some c) => some (m, .resetCount c k)
  | .resetCount c k =>
      some ({ m with counters := m.counters.set c { m.counters c with count := 0 } },
        .resetSlot c 0 k)
  | .resetSlot c j k =>
      some ({ m with counters := m.counters.set c ((m.counters c).setFree j true) },
        if j + 1 < maxWaiting then .resetSlot c (j + 1) k else .acquireHandle c k)
  | .acquireHandle c k =>
      match ch with
      | .handle h =>
          match m.handles h with
          | some _ => none
          | none =>
              let x : HandleContent :=
                { counterIndex := c, life := m.hist.nextLife, sync := k.sync }
              let m :=
                { m with
                  handles := m.handles.set h (some x)
                  hist := { m.hist with nextLife := m.hist.nextLife + 1 } }
              match k with
              | .user => some (m, .body)
              | .submit num sync =>
                  some ({ m with syncs := m.syncs.set sync (some h) },
                    submitTasks x num (some sync))
      | _ => none
  -- `releaseCounter` and `releaseCounterIfOnTarget`
  | .releaseLoad h target k =>
      match m.handles h with
      | none => none
      | some x =>
          if target = none ∨ target = some (m.counters x.counterIndex).count then
            some (m, .releaseHandle h x.counterIndex k)
          else some (afterRelease m false k, .body)
  | .releaseHandle h c k =>
      match m.handles h with
      | none => none
      | some x =>
          if x.counterIndex = c then some ({ m with handles := m.handles.set h none }, .freeEnq k c .load)
          else none
  | .freeEnq k c pc =>
      let r := Mpmc.enqueueStep 0 c (ch = .spurious) m.freeCounters pc
      let m := { m with freeCounters := r.1 }
      match r.2 with
      | .inl pc => some (m, .freeEnq k c pc)
      | .inr _ => some (afterRelease m true k, .body)

/-- A thread makes the access its running agent stands at. -/
def step (cfg : Config) (s : State) (l : Label) : Option State :=
  if s.mem.panic = none ∧ l.thread < cfg.numThreads then
    let f := (s.mem.tls l.thread).running
    (exec cfg s.mem l.thread f l.choice (s.pc f)).map fun r => ⟨r.1, s.pc.set f r.2⟩
  else none

/-- Thread `t` makes `n` accesses. -/
def goes (t n : Nat) : List Label := List.replicate n ⟨t, .go⟩

/-- The body that runs on thread `t` makes a call, and the thread `n` accesses of it. -/
def calls (t : Nat) (u : UserCall) (n : Nat) : List Label := ⟨t, .call u⟩ :: goes t n

/-! ## The initial state -/

def newSlot : WaitingFiber where
  counterTarget := 0
  fiberIndex := invalidFiber
  pinnedThreadIndex := none
  inUse := true
  reg := 0

def newCounter : AtomicCounter where
  count := 0
  waitingFibers := .const newSlot
  freeWaitingSlots := .const false

def newHist : Hist where
  nextCall := 0
  call := .const none
  added := .const none
  pushes := .const 0
  ended := .const false
  nextLife := 0
  nextTask := 0
  task := .const { counter := 0, life := 0, sync := none }
  started := .const 0
  returned := .const 0
  decremented := .const 0
  suspends := .const 0
  resumes := .const 0
  unwaited := .const false

/-- A queue into which `start` has enqueued the indices below `n`. -/
def populate (bufferSize n : Nat) : Mpmc Nat :=
  (List.range n).foldl (Mpmc.enqueue 0) (Mpmc.new bufferSize 0)

/-- `start` has populated the pools; every thread is about to acquire its first fiber. -/
def start (cfg : Config) : State where
  mem :=
    { idleFibers := populate cfg.numFibers cfg.numFibers
      resumableFibers := .new cfg.numFibers { fiber := 0, reg := 0 }
      freeCounters := populate cfg.maxNumCounters cfg.maxNumCounters
      tasks := .new cfg.maxNumTasks { metadata := 0, id := 0, life := 0 }
      counters := .const newCounter
      threads := .const { pinnedResumableFibers := .new { fiber := 0, reg := 0 }, locked := false }
      tls :=
        { cells := (List.range cfg.numThreads).map fun i =>
            { currentFiberIndex := none
              previousFiberIndex := none
              previousFiberDest := .none
              running := cfg.numFibers + i }
          rest :=
            { currentFiberIndex := none
              previousFiberIndex := none
              previousFiberDest := .none
              running := cfg.numFibers } }
      isThreadWaiting := .const false
      isWaitingCleanedUp := .const false
      task := .const none
      backoff := .const 1
      handles := .const none
      syncs := .const none
      isShuttingDown := false
      primary := none
      panic := none
      hist := newHist }
  pc :=
    { cells := List.replicate cfg.numFibers .entry ++
        List.replicate cfg.numThreads (.idleDeq .start .load)
      rest := .done }

/-- `start` on the memory that an earlier call has left: the arrays are reset and
the pools populated, the queues and the caller's syncs are what they were. -/
def startOn (cfg : Config) (m : Mem) : State where
  mem :=
    { (start cfg).mem with
      idleFibers := m.idleFibers.refill cfg.numFibers
      resumableFibers := m.resumableFibers
      freeCounters := m.freeCounters.refill cfg.maxNumCounters
      tasks := m.tasks
      syncs := m.syncs }
  pc := (start cfg).pc

/-- `Scheduler(config)`: four new queues. -/
def construct (cfg : Config) : Mem :=
  { (start cfg).mem with
    idleFibers := .new cfg.numFibers 0
    freeCounters := .new cfg.maxNumCounters 0 }

theorem startOn_construct (cfg : Config) : startOn cfg (construct cfg) = start cfg := rfl

end TaskDispatcher.Scheduler
