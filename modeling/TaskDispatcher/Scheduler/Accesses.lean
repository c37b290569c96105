import TaskDispatcher.Scheduler.Queues

/-!
# The accesses to a counter

What one access of a waiter or of a scanner does to the counter, with the test
that led there.  Everything later about counters is derived from these.
-/

namespace TaskDispatcher.Scheduler

open TaskDispatcher.Library TaskDispatcher.Container

/-- One access of `counterAddWaitingFiber`. -/
inductive AddMove (a : AtomicCounter) (w : WaitCall) (j : Nat) :
    AddPC → AtomicCounter → AddNext → Prop where
  | acquire : a.freeWaitingSlots j = true →
      AddMove a w j .acquire (a.setFree j false) (.goto j .writeFiber)
  | occupied : a.freeWaitingSlots j = false → j + 1 < maxWaiting →
      AddMove a w j .acquire a (.goto (j + 1) .acquire)
  | full : a.freeWaitingSlots j = false → maxWaiting ≤ j + 1 → AddMove a w j .acquire a .full
  | writeFiber : AddMove a w j .writeFiber
      (a.setSlot j { a.slot j with fiberIndex := w.fiber, reg := w.call }) (.goto j .writeTarget)
  | writeTarget : AddMove a w j .writeTarget
      (a.setSlot j { a.slot j with counterTarget := w.target }) (.goto j .writePinned)
  | writePinned : AddMove a w j .writePinned
      (a.setSlot j { a.slot j with pinnedThreadIndex := w.pinned }) (.goto j .publish)
  | publish : AddMove a w j .publish (a.setSlot j { a.slot j with inUse := false }) (.goto j .load)
  | load : AddMove a w j .load a (.goto j (.recheck a.count))
  | taken {value} : (a.slot j).inUse = true → AddMove a w j (.recheck value) a (.ret false)
  | unclaimed {value} : (a.slot j).inUse = false →
      AddMove a w j (.recheck value) a (.goto j (.compare value))
  | onTarget {value} : (a.slot j).counterTarget = value →
      AddMove a w j (.compare value) a (.goto j .claim)
  | offTarget {value} : (a.slot j).counterTarget ≠ value →
      AddMove a w j (.compare value) a (.ret false)
  | lost : (a.slot j).inUse = true → AddMove a w j .claim a (.ret false)
  | won : (a.slot j).inUse = false →
      AddMove a w j .claim (a.setSlot j { a.slot j with inUse := true }) (.goto j .free)
  | free : AddMove a w j .free (a.setFree j true) (.ret true)

theorem addStep_move (a : AtomicCounter) (w : WaitCall) (j : Nat) (pc : AddPC) :
    AddMove a w j pc (addStep a w j pc).1 (addStep a w j pc).2 := by
  cases pc with
  | acquire =>
      simp only [addStep]
      split
      · exact .acquire ‹_›
      · split
        · exact .occupied (by simpa using ‹¬ a.freeWaitingSlots j = true›) ‹_›
        · exact .full (by simpa using ‹¬ a.freeWaitingSlots j = true›) (Nat.le_of_not_lt ‹_›)
  | writeFiber => exact .writeFiber
  | writeTarget => exact .writeTarget
  | writePinned => exact .writePinned
  | publish => exact .publish
  | load => exact .load
  | recheck value =>
      simp only [addStep]
      split
      · exact .taken ‹_›
      · exact .unclaimed (by simpa using ‹¬ (a.slot j).inUse = true›)
  | compare value =>
      simp only [addStep]
      split
      · exact .onTarget ‹_›
      · exact .offTarget ‹_›
  | claim =>
      simp only [addStep]
      split
      · exact .lost ‹_›
      · exact .won (by simpa using ‹¬ (a.slot j).inUse = true›)
  | free => exact .free

/-- One access of `counterCheckWaitingFibers`. -/
inductive ScanMove (a : AtomicCounter) (value : Int) (j : Nat) :
    ScanPC → AtomicCounter → ScanNext → Prop where
  | free : a.freeWaitingSlots j = true → ScanMove a value j .free a .skip
  | occupied : a.freeWaitingSlots j = false → ScanMove a value j .free a (.goto .inUse)
  | used : (a.slot j).inUse = true → ScanMove a value j .inUse a .skip
  | unused : (a.slot j).inUse = false → ScanMove a value j .inUse a (.goto .target)
  | onTarget : (a.slot j).counterTarget = value →
      ScanMove a value j .target a (.goto (.claim (a.slot j).reg))
  | offTarget : (a.slot j).counterTarget ≠ value → ScanMove a value j .target a .skip
  | lost {reg} : (a.slot j).inUse = true → ScanMove a value j (.claim reg) a .skip
  | won {reg} : (a.slot j).inUse = false →
      ScanMove a value j (.claim reg) (a.setSlot j { a.slot j with inUse := true })
        (.goto (.pinned reg))
  | unpinned {reg} : (a.slot j).pinnedThreadIndex = none →
      ScanMove a value j (.pinned reg) a (.goto (.fiber reg))
  | pinned {reg t} : (a.slot j).pinnedThreadIndex = some t →
      ScanMove a value j (.pinned reg) a (.pin reg t)
  | fiber {reg} : ScanMove a value j (.fiber reg) a
      (.enqueue { fiber := (a.slot j).fiberIndex, reg := (a.slot j).reg })
  | release {reg} : ScanMove a value j (.release reg) (a.setFree j true) .skip

theorem scanStep_move (a : AtomicCounter) (value : Int) (j : Nat) (pc : ScanPC) :
    ScanMove a value j pc (scanStep a value j pc).1 (scanStep a value j pc).2 := by
  cases pc with
  | free =>
      simp only [scanStep]
      split
      · exact .free ‹_›
      · exact .occupied (by simpa using ‹¬ a.freeWaitingSlots j = true›)
  | inUse =>
      simp only [scanStep]
      split
      · exact .used ‹_›
      · exact .unused (by simpa using ‹¬ (a.slot j).inUse = true›)
  | target =>
      simp only [scanStep]
      split
      · exact .onTarget ‹_›
      · exact .offTarget ‹_›
  | claim reg =>
      simp only [scanStep]
      split
      · exact .lost ‹_›
      · exact .won (by simpa using ‹¬ (a.slot j).inUse = true›)
  | pinned reg =>
      simp only [scanStep]
      split
      · exact .unpinned ‹_›
      · exact .pinned ‹_›
  | fiber reg => exact .fiber
  | release reg => exact .release

/-! ## The steps that make them -/

/-- Where a waiter goes on. -/
def addNext (w : WaitCall) (j : Nat) : AddNext → PC
  | .goto j pc => .add w j pc
  | .full => .add w j .acquire
  | .ret b => if b then .waitDone w else .idleDeq (.wait w) .load

/-- Where a scanner goes on. -/
def scanNext (x : Scan) (j : Nat) : ScanNext → PC
  | .goto pc => .scan x j pc
  | .skip => nextSlot x j
  | .enqueue v => .resEnq (.scan x j) v .load
  | .pin reg t => .pin x j reg t .lock

section Steps

variable {cfg : Config} {m m' : Mem} {i f : Nat} {ch : Choice} {p' : PC}

theorem exec_scan {x : Scan} {j : Nat} {pc : ScanPC}
    (hx : exec cfg m i f ch (.scan x j pc) = some (m', p')) :
    ∃ a r, ScanMove (m.counters x.counter) x.value j pc a r ∧
      m' = { m with counters := m.counters.set x.counter a } ∧ p' = scanNext x j r := by
  refine ⟨_, _, scanStep_move (m.counters x.counter) x.value j pc, ?_⟩
  simp only [exec] at hx
  split at hx <;> rename_i hr <;> cases hx <;> exact ⟨rfl, by rw [hr]; rfl⟩

/-- What an access of a waiter changes beside its counter. -/
def addMem (m : Mem) (w : WaitCall) (a : AtomicCounter) : AddNext → Mem
  | .goto _ _ => { m with counters := m.counters.set w.counter a }
  | .full =>
      { m with counters := m.counters.set w.counter a, panic := some .waitingSlotsFull }
  | .ret b =>
      { m with
        counters := m.counters.set w.counter a
        hist := { m.hist with added := m.hist.added.set w.call (some b) } }

theorem exec_add {w : WaitCall} {j : Nat} {pc : AddPC}
    (hx : exec cfg m i f ch (.add w j pc) = some (m', p')) :
    ∃ a r, AddMove (m.counters w.counter) w j pc a r ∧ m' = addMem m w a r ∧ p' = addNext w j r := by
  refine ⟨_, _, addStep_move (m.counters w.counter) w j pc, ?_⟩
  simp only [exec] at hx
  split at hx <;> rename_i hr <;> cases hx <;> rw [hr] <;> exact ⟨rfl, rfl⟩

end Steps

end TaskDispatcher.Scheduler
