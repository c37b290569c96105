import TaskDispatcher.Library.Table
import Mathlib.Algebra.Order.Group.Int

/-!
# `container::MPMCQueue`

The bounded ring of `container/mpmc_queue.hh`, one atomic access a step.  A
call is a program counter; `enqueueStep` and `dequeueStep` execute the access
it stands at and say where the call goes on or what it returns.

Positions are `size_t` values.  `M` is the modulus of that type: `2 ^ 64`, or
`0` for positions that never wrap (`x % 0 = x`).
-/

namespace TaskDispatcher.Container

open TaskDispatcher.Library

structure Cell (T : Type) where
  sequence : Nat
  data : T

/-- `MPMCQueue<T>`.  `log` is a history variable: the values in the order in
which the enqueues claimed their positions. -/
structure Mpmc (T : Type) where
  bufferMask : Nat
  buffer : Table (Cell T)
  enqueuePos : Nat
  dequeuePos : Nat
  log : List T

/-- The access an `enqueue` call makes next. -/
inductive EnqueuePC where
  | load                 -- `pos = mEnqueuePos.load()`
  | sequence (pos : Nat) -- `seq = cell->sequence_.load()` and the test of `diff`
  | claim (pos : Nat)    -- `mEnqueuePos.compare_exchange_weak(pos, pos + 1)`
  | write (pos : Nat)    -- `cell->data_ = data`
  | publish (pos : Nat)  -- `cell->sequence_.store(pos + 1)`
  deriving DecidableEq, Repr

/-- The access a `dequeue` call makes next. -/
inductive DequeuePC (T : Type) where
  | load
  | sequence (pos : Nat)
  | claim (pos : Nat)
  | read (pos : Nat)              -- `data = cell->data_`
  | publish (pos : Nat) (data : T) -- `cell->sequence_.store(pos + mBufferMask + 1)`
  deriving DecidableEq, Repr

/-- Whether the value has been handed to the queue. -/
def EnqueuePC.claimed : EnqueuePC → Bool
  | .write _ => true
  | .publish _ => true
  | _ => false

/-- The position whose value has been taken out of the queue. -/
def DequeuePC.claimed {T : Type} : DequeuePC T → Option Nat
  | .read pos => some pos
  | .publish pos _ => some pos
  | _ => none

namespace Mpmc

variable {T : Type}

/-- `MPMCQueue(buffer_size)`: cell `i` starts at sequence `i`. -/
def new (bufferSize : Nat) (d : T) : Mpmc T where
  bufferMask := bufferSize - 1
  buffer := ⟨(List.range bufferSize).map fun i => ⟨i, d⟩, ⟨0, d⟩⟩
  enqueuePos := 0
  dequeuePos := 0
  log := []

/-- `&mBuffer[pos & mBufferMask]` -/
def index (q : Mpmc T) (pos : Nat) : Nat := pos &&& q.bufferMask

def cell (q : Mpmc T) (pos : Nat) : Cell T := q.buffer (q.index pos)

def setData (q : Mpmc T) (pos : Nat) (v : T) : Mpmc T :=
  { q with buffer := q.buffer.set (q.index pos) { q.cell pos with data := v } }

def setSequence (q : Mpmc T) (pos seq : Nat) : Mpmc T :=
  { q with buffer := q.buffer.set (q.index pos) { q.cell pos with sequence := seq } }

/-- `static_cast<intptr_t>(seq) - static_cast<intptr_t>(pos)` -/
def diff (M seq pos : Nat) : Int := Int.bmod ((seq : Int) - (pos : Int)) M

/-- Positions that never wrap around. -/
theorem diff_zero (seq pos : Nat) : diff 0 seq pos = (seq : Int) - (pos : Int) := by
  simp [diff, Int.bmod]

/-- One access of `enqueue(data)`.  `spurious` lets the weak compare-exchange
fail although the position matches. -/
def enqueueStep (M : Nat) (data : T) (spurious : Bool) (q : Mpmc T) :
    EnqueuePC → Mpmc T × (EnqueuePC ⊕ Bool)
  | .load => (q, .inl (.sequence q.enqueuePos))
  | .sequence pos =>
      let d := diff M (q.cell pos).sequence pos
      if d = 0 then (q, .inl (.claim pos))
      else if d < 0 then (q, .inr false)
      else (q, .inl .load)
  | .claim pos =>
      if q.enqueuePos = pos ∧ spurious = false then
        ({ q with enqueuePos := (pos + 1) % M, log := q.log ++ [data] }, .inl (.write pos))
      else
        -- a failed exchange loads the current position into `pos`
        (q, .inl (.sequence q.enqueuePos))
  | .write pos => (q.setData pos data, .inl (.publish pos))
  | .publish pos => (q.setSequence pos ((pos + 1) % M), .inr true)

/-- One access of `dequeue(data)`. -/
def dequeueStep (M : Nat) (spurious : Bool) (q : Mpmc T) :
    DequeuePC T → Mpmc T × (DequeuePC T ⊕ Option T)
  | .load => (q, .inl (.sequence q.dequeuePos))
  | .sequence pos =>
      let d := diff M (q.cell pos).sequence ((pos + 1) % M)
      if d = 0 then (q, .inl (.claim pos))
      else if d < 0 then (q, .inr none)
      else (q, .inl .load)
  | .claim pos =>
      if q.dequeuePos = pos ∧ spurious = false then
        ({ q with dequeuePos := (pos + 1) % M }, .inl (.read pos))
      else
        (q, .inl (.sequence q.dequeuePos))
  | .read pos => (q, .inl (.publish pos (q.cell pos).data))
  | .publish pos data =>
      (q.setSequence pos ((pos + q.bufferMask + 1) % M), .inr (some data))

/-! ## What the accesses that branch can do -/

theorem enqueueStep_sequence (M : Nat) (data : T) (spurious : Bool) (q : Mpmc T) (pos : Nat) :
    enqueueStep M data spurious q (.sequence pos) = (q, .inl (.claim pos)) ∨
      enqueueStep M data spurious q (.sequence pos) = (q, .inr false) ∨
      enqueueStep M data spurious q (.sequence pos) = (q, .inl .load) := by
  simp only [enqueueStep]
  split
  · exact Or.inl rfl
  · split
    · exact Or.inr (Or.inl rfl)
    · exact Or.inr (Or.inr rfl)

theorem enqueueStep_claim (M : Nat) (data : T) (spurious : Bool) (q : Mpmc T) (pos : Nat) :
    (q.enqueuePos = pos ∧ enqueueStep M data spurious q (.claim pos) =
        ({ q with enqueuePos := (pos + 1) % M, log := q.log ++ [data] }, .inl (.write pos))) ∨
      enqueueStep M data spurious q (.claim pos) = (q, .inl (.sequence q.enqueuePos)) := by
  simp only [enqueueStep]
  split
  · rename_i h
    exact Or.inl ⟨h.1, rfl⟩
  · exact Or.inr rfl

theorem dequeueStep_sequence (M : Nat) (spurious : Bool) (q : Mpmc T) (pos : Nat) :
    dequeueStep M spurious q (.sequence pos) = (q, .inl (.claim pos)) ∨
      dequeueStep M spurious q (.sequence pos) = (q, .inr none) ∨
      dequeueStep M spurious q (.sequence pos) = (q, .inl .load) := by
  simp only [dequeueStep]
  split
  · exact Or.inl rfl
  · split
    · exact Or.inr (Or.inl rfl)
    · exact Or.inr (Or.inr rfl)

theorem dequeueStep_claim (M : Nat) (spurious : Bool) (q : Mpmc T) (pos : Nat) :
    (q.dequeuePos = pos ∧ dequeueStep M spurious q (.claim pos) =
        ({ q with dequeuePos := (pos + 1) % M }, .inl (.read pos))) ∨
      dequeueStep M spurious q (.claim pos) = (q, .inl (.sequence q.dequeuePos)) := by
  simp only [dequeueStep]
  split
  · rename_i h
    exact Or.inl ⟨h.1, rfl⟩
  · exact Or.inr rfl

/-! ## The queue as a list

The claims are where an enqueue appends its value and a dequeue takes the
oldest one out; no other access changes what the queue holds. -/

/-- The value queued at position `p`. -/
def entry (q : Mpmc T) (p : Nat) : Option T := if q.dequeuePos ≤ p then q.log[p]? else none

/-- What an access of `enqueue` does to the queue as a list. -/
inductive EnqueueEffect (q : Mpmc T) (data : T) (pc : EnqueuePC) (q' : Mpmc T) :
    EnqueuePC ⊕ Bool → Prop where
  | quiet {pc'} : pc'.claimed = pc.claimed → q'.log = q.log → q'.dequeuePos = q.dequeuePos →
      EnqueueEffect q data pc q' (.inl pc')
  | put {pc'} : pc.claimed = false → pc'.claimed = true → q'.log = q.log ++ [data] →
      q'.dequeuePos = q.dequeuePos → EnqueueEffect q data pc q' (.inl pc')
  | done : pc.claimed = true → q'.log = q.log → q'.dequeuePos = q.dequeuePos →
      EnqueueEffect q data pc q' (.inr true)
  | full {pos} : pc = .sequence pos → diff 0 (q.cell pos).sequence pos < 0 → q' = q →
      EnqueueEffect q data pc q' (.inr false)

/-- What an access of `dequeue` does to the queue as a list. -/
inductive DequeueEffect (q : Mpmc T) (pc : DequeuePC T) (q' : Mpmc T) :
    DequeuePC T ⊕ Option T → Prop where
  | quiet {pc'} : pc'.claimed = pc.claimed → q'.log = q.log → q'.dequeuePos = q.dequeuePos →
      DequeueEffect q pc q' (.inl pc')
  | take {pc'} : pc = .claim q.dequeuePos → pc'.claimed = some q.dequeuePos → q'.log = q.log →
      q'.dequeuePos = q.dequeuePos + 1 → DequeueEffect q pc q' (.inl pc')
  | done {pos x} : pc = .publish pos x → q'.log = q.log → q'.dequeuePos = q.dequeuePos →
      DequeueEffect q pc q' (.inr (some x))
  | empty {pos} : pc = .sequence pos → diff 0 (q.cell pos).sequence (pos + 1) < 0 → q' = q →
      DequeueEffect q pc q' (.inr none)

theorem enqueueStep_effect (q : Mpmc T) (data : T) (spurious : Bool) (pc : EnqueuePC) :
    EnqueueEffect q data pc (enqueueStep 0 data spurious q pc).1
      (enqueueStep 0 data spurious q pc).2 := by
  cases pc with
  | load => exact .quiet rfl rfl rfl
  | sequence pos =>
      simp only [enqueueStep]
      split
      · exact .quiet rfl rfl rfl
      · split
        · exact .full rfl ‹_› rfl
        · exact .quiet rfl rfl rfl
  | claim pos =>
      simp only [enqueueStep]
      split
      · exact .put rfl rfl rfl rfl
      · exact .quiet rfl rfl rfl
  | write pos => exact .quiet rfl rfl rfl
  | publish pos => exact .done rfl rfl rfl

theorem dequeueStep_effect (q : Mpmc T) (spurious : Bool) (pc : DequeuePC T) :
    DequeueEffect q pc (dequeueStep 0 spurious q pc).1 (dequeueStep 0 spurious q pc).2 := by
  cases pc with
  | load => exact .quiet rfl rfl rfl
  | sequence pos =>
      simp only [dequeueStep, Nat.mod_zero]
      split
      · exact .quiet rfl rfl rfl
      · split
        · exact .empty rfl ‹_› rfl
        · exact .quiet rfl rfl rfl
  | claim pos =>
      simp only [dequeueStep, Nat.mod_zero]
      split
      · rename_i h
        obtain ⟨rfl, -⟩ := h
        exact .take rfl rfl rfl rfl
      · exact .quiet rfl rfl rfl
  | read pos => exact .quiet rfl rfl rfl
  | publish pos x => exact .done rfl rfl rfl

theorem entry_congr {q q' : Mpmc T} (hlog : q'.log = q.log) (hdeq : q'.dequeuePos = q.dequeuePos)
    (p : Nat) : q'.entry p = q.entry p := by
  rw [entry, entry, hlog, hdeq]

theorem entry_put {q q' : Mpmc T} {v : T} (hlog : q'.log = q.log ++ [v])
    (hdeq : q'.dequeuePos = q.dequeuePos) (hle : q.dequeuePos ≤ q.log.length) (p : Nat) :
    q'.entry p = if p = q.log.length then some v else q.entry p := by
  rw [entry, entry, hlog, hdeq]
  split_ifs with h1 h2 h2
  · rw [h2, List.getElem?_append_right (le_refl _)]
    simp
  · rcases Nat.lt_or_ge p q.log.length with hlt | hge
    · rw [List.getElem?_append_left hlt]
    · rw [List.getElem?_eq_none (by simp; omega), List.getElem?_eq_none (by omega)]
  · omega
  · rfl

theorem entry_take {q q' : Mpmc T} (hlog : q'.log = q.log)
    (hdeq : q'.dequeuePos = q.dequeuePos + 1) (p : Nat) :
    q'.entry p = if p = q.dequeuePos then none else q.entry p := by
  rw [entry, entry, hlog, hdeq]
  split_ifs <;> first | rfl | omega

theorem entry_dequeuePos (q : Mpmc T) : q.entry q.dequeuePos = q.log[q.dequeuePos]? := by
  rw [entry, if_pos (le_refl _)]

theorem entry_length (q : Mpmc T) : q.entry q.log.length = none := by
  rw [entry]
  split
  · exact List.getElem?_eq_none (le_refl _)
  · rfl

/-! ## A call on its own -/

/-- A call of `enqueue` that no other thread interferes with. -/
def enqueueAlone (M : Nat) (data : T) : Nat → EnqueuePC → Mpmc T → Mpmc T × Bool
  | 0, _, q => (q, false)
  | fuel + 1, pc, q =>
      match enqueueStep M data false q pc with
      | (q', .inl pc') => enqueueAlone M data fuel pc' q'
      | (q', .inr b) => (q', b)

/-- `enqueue(data)` called while the queue is at rest. -/
def enqueue (M : Nat) (q : Mpmc T) (data : T) : Mpmc T :=
  (enqueueAlone M data 5 .load q).1

/-- A call of `dequeue` that no other thread interferes with. -/
def dequeueAlone (M : Nat) : Nat → DequeuePC T → Mpmc T → Mpmc T × Option T
  | 0, _, q => (q, none)
  | fuel + 1, pc, q =>
      match dequeueStep M false q pc with
      | (q', .inl pc') => dequeueAlone M fuel pc' q'
      | (q', .inr x) => (q', x)

/-- `dequeue(data)` called while the queue is at rest. -/
def dequeue (M : Nat) (q : Mpmc T) : Mpmc T × Option T := dequeueAlone M 5 .load q

/-- `while (queue.dequeue(dump)) {}`, `none` where the fuel does not reach its end. -/
def drain : Nat → Mpmc T → Option (Mpmc T)
  | 0, _ => none
  | fuel + 1, q =>
      match dequeue 0 q with
      | (q', some _) => drain fuel q'
      | (q', none) => some q'

/-- The indices below `n` enqueued one after the other. -/
def refill (q : Mpmc Nat) (n : Nat) : Mpmc Nat := (List.range n).foldl (enqueue 0) q

/-- The values in the queue, oldest first. -/
def contents (q : Mpmc T) : List T := q.log.drop q.dequeuePos

end Mpmc

end TaskDispatcher.Container
