import TaskDispatcher.Container.Deque
import TaskDispatcher.Library.Transition

/-!
# `spmc::Deque` with an owner and thieves

Every access to `top`, `bottom`, `buffer`, the list of stealers and their
flags is a step of its own, and so is every read or write of a cell, every read
of a field of a buffer and every delete.  Copying into a buffer that nobody else
knows yet is one step: the copied cells have no other writer than the owner.
-/

namespace TaskDispatcher.Container.Spmc

open TaskDispatcher.Library

/-! ## State -/

/-- An element, and the number of its push (history). -/
structure Item (T : Type) where
  val : T
  id : Nat
  deriving DecidableEq, Repr, Inhabited

/-- A buffer on the heap: `next` is null in the newest one. -/
structure Allocated (T : Type) where
  buffer : Buffer (Item T)
  next : Option Nat
  live : Bool

/-- `buffer_tls`; its `next` is the order of the list of stealers. -/
structure BufferTls where
  idLastUsed : Nat
  wasIdle : Bool

/-- What a successful `pop_bottom` or `steal` has read, and the element that was
pushed at the index it claimed. -/
structure Yield (T : Type) where
  item : Item T
  expected : Item T
  deriving DecidableEq, Repr

structure Hist (T : Type) where
  pushes : Nat
  /-- the element last pushed at each logical index -/
  pushed : Table (Item T)
  /-- the numbers of the elements claimed so far -/
  claimed : List Nat
  yields : List (Yield T)

structure Mem (T : Type) where
  top : Int
  bottom : Int
  /-- the address of the current buffer -/
  buffer : Nat
  unlinked : Option Nat
  logInitialSize : Nat
  heap : Table (Allocated T)
  nextAddress : Nat
  /-- the registered stealers, the last one first -/
  idList : List Nat
  tls : Table BufferTls
  hist : Hist T

/-- What follows `reclaim_buffers`. -/
inductive ReclaimK (T : Type) where
  | push (object : T) (b : Int) (a : Nat)
  | pop
  deriving DecidableEq, Repr

/-- Where the owner stands: the access it makes next. -/
inductive OwnerPC (T : Type) where
  | idle
  -- `push_bottom`
  | pushTop (object : T) (b : Int)
  | pushBuffer (object : T) (b t : Int)
  | pushSize (object : T) (b t : Int) (a : Nat)       -- and `resize`
  | pushStore (object : T) (b : Int) (a : Nat)        -- of the new buffer
  | pushPut (object : T) (b : Int) (a : Nat)
  | pushBottom (object : T) (b : Int)
  -- `pop_bottom`
  | popBuffer (b : Int)
  | popStore (b : Int) (a : Nat)                      -- `bottom.store(b - 1)`
  | popTop (b : Int) (a : Nat)
  | popClaim (b t : Int) (a : Nat)                    -- exchange of `top`
  | popRead (b t : Int) (a : Nat) (e : Item T)        -- `a->get(t)`
  | popRestore (b : Int)                              -- `bottom.store(b)`
  | popTake (b t : Int) (a : Nat) (e : Item T)        -- `a->get(b - 1)`
  | popShrink (b t : Int) (a : Nat)                   -- and `resize`
  | popBufferStore (a : Nat)
  -- `reclaim_buffers`
  | reclaimId (a : Nat) (k : ReclaimK T)
  | reclaimList (minId : Nat) (k : ReclaimK T)
  | reclaimIdle (minId : Nat) (head : List Nat) (k : ReclaimK T)
  | reclaimUsed (minId : Nat) (i : Nat) (head : List Nat) (k : ReclaimK T)
  | reclaimWalk (minId : Nat) (k : ReclaimK T)
  deriving DecidableEq, Repr

/-- Where a stealer stands. -/
inductive StealPC (T : Type) where
  -- `register_thread`
  | unregistered
  | link (next : List Nat)                            -- exchange of `id_list`
  | relink
  -- `Stealer::steal`
  | idle
  | top
  | bottom (t : Int)
  | buffer (t : Int)
  | claim (t : Int) (a : Nat)                         -- exchange of `top`
  | read (t : Int) (a : Nat) (e : Item T)             -- `a->get(t)`
  | setIdle
  | reload                                            -- `deque->buffer.load()`
  | readId (a : Nat)                                  -- `b->id()`
  | setUsed (id : Nat)
  deriving DecidableEq, Repr

structure State (T : Type) where
  mem : Mem T
  owner : OwnerPC T
  stealer : Table (StealPC T)

inductive Label (T : Type) where
  | push (object : T)                                 -- the owner begins a call
  | pop
  | owner                                             -- and goes on with it
  | stealer (i : Nat) (spurious : Bool)
  deriving DecidableEq, Repr

/-! ## Steps -/

variable {T : Type} [Inhabited T]

/-- `a->resize(b, t, delta)`, with `unlinked = unlinked ? unlinked : a` before it. -/
def Mem.resize (m : Mem T) (a : Nat) (b t delta : Int) : Mem T :=
  let heap := m.heap.set m.nextAddress
    { buffer := (m.heap a).buffer.resize b t delta, next := none, live := true }
  { m with
    unlinked := some (m.unlinked.getD a)
    heap := heap.set a { heap a with next := some m.nextAddress }
    nextAddress := m.nextAddress + 1 }

/-- `a->put(b, object)` -/
def Mem.put (m : Mem T) (a : Nat) (b : Int) (item : Item T) : Mem T :=
  let c := m.heap a
  { m with heap := m.heap.set a { c with buffer := c.buffer.put b item } }

/-- `bottom.store(b + 1)`, by which the element at `b` is pushed. -/
def Mem.publish (m : Mem T) (b : Int) (item : Item T) : Mem T :=
  { m with
    bottom := b + 1
    hist := { m.hist with
      pushes := m.hist.pushes + 1
      pushed := m.hist.pushed.set b.toNat item } }

/-- The element at logical index `i` is claimed. -/
def Mem.claim (m : Mem T) (i : Int) : Mem T :=
  { m with hist := { m.hist with claimed := m.hist.claimed ++ [(m.hist.pushed i.toNat).id] } }

/-- The element at logical index `i` is read from buffer `a`. -/
def Mem.yield (m : Mem T) (a : Nat) (i : Int) (e : Item T) : Mem T :=
  { m with
    hist := { m.hist with
      yields := m.hist.yields ++ [{ item := (m.heap a).buffer.get i, expected := e }] } }

/-- What follows the test `if (unlinked)`. -/
def afterReclaim : ReclaimK T → OwnerPC T
  | .push object b a => .pushPut object b a
  | .pop => .idle

def testUnlinked (m : Mem T) (a : Nat) (k : ReclaimK T) : OwnerPC T :=
  if m.unlinked.isSome then .reclaimId a k else afterReclaim k

/-- The next access of a call of the owner. -/
def ownerStep (m : Mem T) : OwnerPC T → Option (Mem T × OwnerPC T)
  | .idle => none
  | .pushTop x b => some (m, .pushBuffer x b m.top)
  | .pushBuffer x b t => some (m, .pushSize x b t m.buffer)
  | .pushSize x b t a =>
      if grows (m.heap a).buffer (b - t) then
        some (m.resize a b t 1, .pushStore x b m.nextAddress)
      else some (m, testUnlinked m a (.push x b a))
  | .pushStore x b a =>
      let m := { m with buffer := a }
      some (m, testUnlinked m a (.push x b a))
  | .pushPut x b a => some (m.put a b { val := x, id := m.hist.pushes }, .pushBottom x b)
  | .pushBottom x b => some (m.publish b { val := x, id := m.hist.pushes }, .idle)
  | .popBuffer b => some (m, .popStore b m.buffer)
  | .popStore b a => some ({ m with bottom := b - 1 }, .popTop b a)
  | .popTop b a =>
      let t := m.top
      if b - t ≤ 0 then some (m, .popRestore b)
      else if b - t = 1 then some (m, .popClaim b t a)
      else some (m.claim (b - 1), .popTake b t a (m.hist.pushed (b - 1).toNat))
  | .popClaim b t a =>
      if m.top = t then
        some (({ m with top := t + 1 } : Mem T).claim t, .popRead b t a (m.hist.pushed t.toNat))
      else some (m, .popRestore b)
  | .popRead b t a e => some (m.yield a t e, .popRestore b)
  | .popRestore b => some ({ m with bottom := b }, .idle)
  | .popTake b t a e => some (m.yield a (b - 1) e, .popShrink b t a)
  | .popShrink b t a =>
      if shrinks m.logInitialSize (m.heap a).buffer (b - t) then
        some (m.resize a b t (-1), .popBufferStore m.nextAddress)
      else some (m, testUnlinked m a .pop)
  | .popBufferStore a =>
      let m := { m with buffer := a }
      some (m, testUnlinked m a .pop)
  | .reclaimId a k => some (m, .reclaimList (m.heap a).buffer.id k)
  | .reclaimList minId k => some (m, .reclaimIdle minId m.idList k)
  | .reclaimIdle minId [] k => some (m, .reclaimWalk minId k)
  | .reclaimIdle minId (i :: head) k =>
      some (m, if (m.tls i).wasIdle then .reclaimIdle minId head k else .reclaimUsed minId i head k)
  | .reclaimUsed minId i head k => some (m, .reclaimIdle (min minId (m.tls i).idLastUsed) head k)
  | .reclaimWalk minId k =>
      match m.unlinked with
      | none => none
      | some u =>
          if (m.heap u).buffer.id < minId then
            some
              ({ m with
                  unlinked := (m.heap u).next
                  heap := m.heap.set u { m.heap u with live := false } },
                .reclaimWalk minId k)
          else some (m, afterReclaim k)

/-- The next access of stealer `i`, which may begin a call at any time. -/
def stealStep (m : Mem T) (i : Nat) (spurious : Bool) : StealPC T → Mem T × StealPC T
  | .unregistered =>
      ({ m with tls := m.tls.set i { idLastUsed := 0, wasIdle := true } }, .link m.idList)
  | .link next =>
      if m.idList = next ∧ spurious = false then ({ m with idList := i :: next }, .idle)
      else (m, .relink)
  | .relink => (m, .link m.idList)
  | .idle => ({ m with tls := m.tls.set i { m.tls i with wasIdle := false } }, .top)
  | .top => (m, .bottom m.top)
  | .bottom t => (m, if 0 < toInt (m.bottom - t) then .buffer t else .setIdle)
  | .buffer t => (m, .claim t m.buffer)
  | .claim t a =>
      if m.top = t then
        (({ m with top := t + 1 } : Mem T).claim t, .read t a (m.hist.pushed t.toNat))
      else (m, .setIdle)
  | .read t a e => (m.yield a t e, .setIdle)
  | .setIdle => ({ m with tls := m.tls.set i { m.tls i with wasIdle := true } }, .reload)
  | .reload => (m, .readId m.buffer)
  | .readId a => (m, .setUsed (m.heap a).buffer.id)
  | .setUsed id => ({ m with tls := m.tls.set i { m.tls i with idLastUsed := id } }, .idle)

def step (s : State T) : Label T → Option (State T)
  | .push x =>
      match s.owner with
      | .idle => some { s with owner := .pushTop x s.mem.bottom }
      | _ => none
  | .pop =>
      match s.owner with
      | .idle => some { s with owner := .popBuffer s.mem.bottom }
      | _ => none
  | .owner => (ownerStep s.mem s.owner).map fun r => { s with mem := r.1, owner := r.2 }
  | .stealer i spurious =>
      let r := stealStep s.mem i spurious (s.stealer i)
      some { s with mem := r.1, stealer := s.stealer.set i r.2 }

/-- `Deque(log_reserve_size)`, before any stealer is registered. -/
def start (logReserveSize : Nat) : State T where
  mem :=
    { top := 0
      bottom := 0
      buffer := 0
      unlinked := none
      logInitialSize := logReserveSize
      heap :=
        { cells := [{ buffer := .new logReserveSize 0, next := none, live := true }]
          rest := { buffer := .new 0 0, next := none, live := false } }
      nextAddress := 1
      idList := []
      tls := .const { idLastUsed := 0, wasIdle := true }
      hist :=
        { pushes := 0
          pushed := .const default
          claimed := []
          yields := [] } }
  owner := .idle
  stealer := .const .unregistered

/-! ## The steps as cases -/

/-- A step of the owner, a new call of it, or a step of a stealer. -/
theorem step_cases {s s' : State T} {l : Label T} (h : step s l = some s') :
    (∃ x, l = .push x ∧ s.owner = .idle ∧ s' = { s with owner := .pushTop x s.mem.bottom }) ∨
    (l = .pop ∧ s.owner = .idle ∧ s' = { s with owner := .popBuffer s.mem.bottom }) ∨
    (∃ m' p', l = .owner ∧ ownerStep s.mem s.owner = some (m', p') ∧
      s' = { s with mem := m', owner := p' }) ∨
    ∃ i b, l = .stealer i b ∧
      s' = { s with
        mem := (stealStep s.mem i b (s.stealer i)).1
        stealer := s.stealer.set i (stealStep s.mem i b (s.stealer i)).2 } := by
  cases l with
  | push x =>
      simp only [step] at h
      split at h
      · rename_i hidle
        exact Or.inl ⟨x, rfl, hidle, (Option.some.inj h).symm⟩
      · cases h
  | pop =>
      simp only [step] at h
      split at h
      · rename_i hidle
        exact Or.inr (Or.inl ⟨rfl, hidle, (Option.some.inj h).symm⟩)
      · cases h
  | owner =>
      obtain ⟨⟨m', p'⟩, hx, hs⟩ := Option.map_eq_some_iff.1 h
      exact Or.inr (Or.inr (Or.inl ⟨m', p', rfl, hx, hs.symm⟩))
  | stealer i b => exact Or.inr (Or.inr (Or.inr ⟨i, b, rfl, (Option.some.inj h).symm⟩))

end TaskDispatcher.Container.Spmc
