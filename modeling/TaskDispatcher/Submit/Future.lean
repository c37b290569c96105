import TaskDispatcher.Library.Table

/-!
# `td::future` and the submits that return one

The futures of `td.hh` together with what they own: the heap cells of the
results, the counter handles of `td-lean.hh` and the counters behind them.  One
client performs the operations on futures one after the other; the tasks store
and complete at any time in between.  Which wait returns when is left open.
-/

namespace TaskDispatcher.Submit.Futures

open TaskDispatcher.Library

/-- `future<T>`: the handle in `_sync` and the cell of `_value`, `none` for the invalid handle and
for null. -/
structure Future where
  sync : Option Nat
  value : Option Nat

/-- A task of a future: where it writes its result, and the counter it completes on. -/
structure Task where
  cell : Nat
  counter : Nat

inductive Op where
  | submit (f : Nat)
  | moveConstruct (f rhs : Nat)
  | moveAssign (f rhs : Nat)
  | get (f : Nat)
  | getUnpinned (f : Nat)
  | destroy (f : Nat)

/-- What follows a `wait_for(_sync)`. -/
inductive After where
  | get
  | assign (rhs : Nat)
  | destroy

/-- Where the client is. -/
inductive PC where
  | ready
  /-- `future()`: `cc::make_unique<T>()` -/
  | construct (f : Nat)
  /-- `submit_raw`: `acquireCounterHandle`, with `result_ptr` -/
  | acquireHandle (f cell : Nat)
  /-- `submitTasks(&dispatch, 1, s.handle)` -/
  | submitTasks (f cell h : Nat)
  /-- `res.set_sync(s)` -/
  | setSync (f h : Nat)
  /-- `single_wait_for(_sync)` -/
  | wait (f : Nat) (k : After)
  /-- `releaseCounterIfOnTarget(_sync.handle, 0)` -/
  | release (f h : Nat) (k : After)
  | finish (f : Nat) (k : After)

/-- A handle that has expired, or a cell that has been freed, is used. -/
inductive Fault where
  | expiredHandle
  | freedCell

/-- What has happened to a submission. -/
structure Record (T : Type) where
  cell : Nat
  stored : Option T
  completed : Bool
  waited : Bool
  released : Nat

/-- The submissions so far, which of them acquired a handle last, which future object holds the
result of which one, and the values returned by `get` and `get_unpinned`. -/
structure History (T : Type) where
  next : Nat
  record : Table (Record T)
  issued : Table Nat
  owner : Table (Option Nat)
  got : List (Option Nat × T)

structure World (T : Type) where
  futures : Table (Option Future)
  cells : Table (Option T)
  /-- `mCounterHandles`: the counter of a handle that is alive -/
  handles : Table (Option Nat)
  counts : Table Int
  /-- `mFreeCounters` -/
  free : Table Bool
  /-- The tasks that have not completed, by submission. -/
  tasks : Table (Option Task)
  pc : PC
  fault : Option Fault
  hist : History T

inductive Label (T : Type) where
  | call (o : Op)
  | go
  /-- `make_unique` returns this cell. -/
  | cell (a : Nat)
  /-- `acquireCounterHandle` returns this handle, for this counter. -/
  | handle (h c : Nat)
  /-- The task of a submission writes its result. -/
  | store (n : Nat) (v : T)
  /-- The task of a submission counts down its counter. -/
  | complete (n : Nat)

variable {T : Type}

namespace World

def goto (w : World T) (p : PC) : World T := { w with pc := p }

def failed (w : World T) (e : Fault) : World T := { w with fault := some e }

def sync (w : World T) (f : Nat) : Option Nat := (w.futures f).bind Future.sync

def value (w : World T) (f : Nat) : Option Nat := (w.futures f).bind Future.value

def owner (w : World T) (f : Nat) : Option Nat := w.hist.owner f

/-- `*_value` -/
def deref (w : World T) (f : Nat) : Option T := (w.value f).bind fun a => w.cells a

def setFuture (w : World T) (f : Nat) (F : Option Future) : World T :=
  { w with futures := w.futures.set f F }

def setOwner (w : World T) (f : Nat) (n : Option Nat) : World T :=
  { w with hist := { w.hist with owner := w.hist.owner.set f n } }

def setRecord (w : World T) (n : Nat) (r : Record T) : World T :=
  { w with hist := { w.hist with record := w.hist.record.set n r } }

/-- `future()` -/
def construct [Inhabited T] (w : World T) (f a : Nat) : World T :=
  { w with cells := w.cells.set a (some default) }.setFuture f (some ⟨none, some a⟩)

/-- `acquireCounterHandle`: the handle is for the submission that begins here. -/
def acquireCounterHandle (w : World T) (f a h c : Nat) : World T :=
  { w with
    handles := w.handles.set h (some c)
    counts := w.counts.set c 0
    free := w.free.set c false
    hist :=
      { w.hist with
        next := w.hist.next + 1
        record := w.hist.record.set w.hist.next ⟨a, none, false, false, 0⟩
        issued := w.hist.issued.set h w.hist.next
        owner := w.hist.owner.set f (some w.hist.next) } }

/-- `submitTasks`: the counter is incremented, then the task is enqueued with it. -/
def submitTasks (w : World T) (a h c : Nat) : World T :=
  { w with
    counts := w.counts.set c (w.counts c + 1)
    tasks := w.tasks.set (w.hist.issued h) (some ⟨a, c⟩) }

/-- `Scheduler::wait` returns. -/
def waitReturns (w : World T) (h : Nat) : World T :=
  w.setRecord (w.hist.issued h) { w.hist.record (w.hist.issued h) with waited := true }

/-- `mCounterHandles.release`, `mFreeCounters.enqueue` -/
def releaseHandle (w : World T) (h c : Nat) : World T :=
  { w with handles := w.handles.set h none, free := w.free.set c true }.setRecord
    (w.hist.issued h)
    { w.hist.record (w.hist.issued h) with released := (w.hist.record (w.hist.issued h)).released + 1 }

/-- The move constructor: `rhs` keeps a null `_value`, and its handle is invalidated. -/
def moveInto (w : World T) (f rhs : Nat) : World T :=
  ((((w.setFuture f (some ⟨w.sync rhs, w.value rhs⟩)).setFuture rhs (some ⟨none, none⟩)).setOwner f
    (w.owner rhs)).setOwner rhs none)

/-- The cell of `_value` is deleted. -/
def deleteValue (w : World T) (f : Nat) : World T :=
  let w' := (w.setFuture f (some ⟨w.sync f, none⟩)).setOwner f none
  match w.value f with
  | none => w'
  | some a =>
      match w.cells a with
      | none => w'.failed .freedCell
      | some _ => { w' with cells := w'.cells.set a none }

/-- The call of an operation on live futures; `submit` and the move constructor begin the life of
`f`. -/
def call (w : World T) : Op → Option (World T)
  | .submit f =>
      match w.futures f with
      | none => some (w.goto (.construct f))
      | some _ => none
  | .moveConstruct f rhs =>
      match w.futures f, w.futures rhs with
      | none, some _ => some (w.moveInto f rhs)
      | _, _ => none
  | .moveAssign f rhs =>
      match w.futures f, w.futures rhs with
      | some _, some _ => if f = rhs then some w else some (w.goto (.wait f (.assign rhs)))
      | _, _ => none
  | .get f => (w.futures f).map fun _ => w.goto (.wait f .get)
  | .getUnpinned f => (w.futures f).map fun _ => w.goto (.wait f .get)
  | .destroy f => (w.futures f).map fun _ => w.goto (.wait f .destroy)

/-- What follows the wait.  `get` through the null pointer of a future that was moved from is
undefined. -/
def finish (w : World T) (f : Nat) : After → Option (World T)
  | .get =>
      (w.value f).map fun a =>
        match w.cells a with
        | none => w.failed .freedCell
        | some v => { w with hist := { w.hist with got := (w.owner f, v) :: w.hist.got } }.goto .ready
  | .assign rhs => some (((w.deleteValue f).moveInto f rhs).goto .ready)
  | .destroy => some (((w.deleteValue f).setFuture f none).goto .ready)

/-- A step of the client inside an operation. -/
def advance (w : World T) : Option (World T) :=
  match w.pc with
  | .submitTasks f a h =>
      match w.handles h with
      | none => some (w.failed .expiredHandle)
      | some c => some ((w.submitTasks a h c).goto (.setSync f h))
  | .setSync f h => some ((w.setFuture f (some ⟨some h, w.value f⟩)).goto .ready)
  | .wait f k =>
      match w.sync f with
      | none => some (w.goto (.finish f k))
      | some h =>
          match w.handles h with
          | none => some (w.failed .expiredHandle)
          | some _ => some ((w.waitReturns h).goto (.release f h k))
  | .release f h k =>
      match w.handles h with
      | none => some (w.failed .expiredHandle)
      | some c =>
          if w.counts c = 0 then
            some (((w.releaseHandle h c).setFuture f (some ⟨none, w.value f⟩)).goto (.finish f k))
          else some (w.goto (.finish f k))
  | .finish f k => w.finish f k
  | _ => none

/-- `*result_ptr = fun()` -/
def store (w : World T) (n : Nat) (v : T) : Option (World T) :=
  match w.tasks n, (w.hist.record n).stored with
  | some t, none =>
      match w.cells t.cell with
      | none => some (w.failed .freedCell)
      | some _ =>
          some ({ w with cells := w.cells.set t.cell (some v) }.setRecord n
            { w.hist.record n with stored := some v })
  | _, _ => none

/-- `counterIncrement(counter, -1)` after the task -/
def complete (w : World T) (n : Nat) : Option (World T) :=
  match w.tasks n, (w.hist.record n).stored with
  | some t, some _ =>
      some ({ w with
        counts := w.counts.set t.counter (w.counts t.counter - 1)
        tasks := w.tasks.set n none }.setRecord n { w.hist.record n with completed := true })
  | _, _ => none

/-- The handle that `acquireCounterHandle` returns is not alive, and its counter is free. -/
def handle (w : World T) (h c : Nat) : Option (World T) :=
  match w.pc, w.handles h, w.free c with
  | .acquireHandle f a, none, true =>
      some ((w.acquireCounterHandle f a h c).goto (.submitTasks f a h))
  | _, _, _ => none

/-- The cell that `make_unique` returns is not in use. -/
def cell [Inhabited T] (w : World T) (a : Nat) : Option (World T) :=
  match w.pc, w.cells a with
  | .construct f, none => some ((w.construct f a).goto (.acquireHandle f a))
  | _, _ => none

/-- A step; nothing follows a fault. -/
def step [Inhabited T] (w : World T) (l : Label T) : Option (World T) :=
  match w.fault with
  | some _ => none
  | none =>
      match l with
      | .call o =>
          match w.pc with
          | .ready => w.call o
          | _ => none
      | .go => w.advance
      | .cell a => w.cell a
      | .handle h c => w.handle h c
      | .store n v => w.store n v
      | .complete n => w.complete n

/-- Before the first submit. -/
def start [Inhabited T] : World T where
  futures := Table.const none
  cells := Table.const none
  handles := Table.const none
  counts := Table.const 0
  free := Table.const true
  tasks := Table.const none
  pc := .ready
  fault := none
  hist := ⟨0, Table.const ⟨0, none, false, false, 0⟩, Table.const 0, Table.const none, []⟩

end World

end TaskDispatcher.Submit.Futures
