import TaskDispatcher.Library.Table
import TaskDispatcher.Library.Ring
import TaskDispatcher.Library.Transition

/-!
# `container::FIFOQueue`

The ring of `container/mpsc_queue.hh`.  `head` and `tail` are `int`s, `-1`
while the queue is empty, and the capacity is a `size_t`.  `enqueue` runs to its
end also when the queue is full, as it does where its assertion is compiled out.
-/

namespace TaskDispatcher.Container

open TaskDispatcher.Library

/-- `FIFOQueue<T, N>`.  `log` and `taken` are history variables: the values
enqueued so far, and how many of them have left the queue. -/
structure Fifo (T : Type) where
  head : Int
  tail : Int
  data : Table T
  log : List T
  taken : Nat

namespace Fifo

variable {T : Type}

def new (d : T) : Fifo T where
  head := -1
  tail := -1
  data := .const d
  log := []
  taken := 0

def empty (q : Fifo T) : Bool := q.tail == -1

/-- `++i; if (i >= N) i -= N;` on an `int`: it is compared and reduced as a
`size_t`, and the result is converted back. -/
def next (N : Nat) (i : Int) : Int :=
  let i := i + 1
  let u := i % (2 ^ 64 : Int)
  if u ≥ N then Int.bmod (u - N) (2 ^ 32) else i

def full (N : Nat) (q : Fifo T) : Bool := next N q.head == q.tail

def dequeue (N : Nat) (q : Fifo T) : Option T × Fifo T :=
  if q.empty then (none, q)
  else
    let out := q.data q.tail.toNat
    if q.tail = q.head then
      (some out, { q with tail := -1, head := -1, taken := q.taken + 1 })
    else (some out, { q with tail := next N q.tail, taken := q.taken + 1 })

def enqueue (N : Nat) (q : Fifo T) (val : T) : Fifo T :=
  let tail := if q.empty then 0 else q.tail
  let head := next N q.head
  { head := head
    tail := tail
    data := q.data.set head.toNat val
    log := q.log ++ [val]
    -- a full queue loses what it holds: head meets tail on the new value
    taken := if q.full N then q.log.length else q.taken }

/-- The values in the queue, oldest first. -/
def toList (q : Fifo T) : List T := q.log.drop q.taken

/-- The value at position `p` of the log while it is queued. -/
def entry (q : Fifo T) (p : Nat) : Option T := if q.taken ≤ p then q.log[p]? else none

/-- The capacities the indices are wide enough for. -/
structure Capacity (N : Nat) : Prop where
  pos : 0 < N
  lt : N < 2 ^ 31

namespace Capacity

variable {N : Nat}

/-- The index `mHead` or `mTail` moves on to. -/
theorem next_index (hN : Capacity N) {b : Nat} (hb : b < N) : next N b = ((b + 1) % N : Nat) := by
  have hlt := hN.lt
  have hu : ((b : Int) + 1) % (2 ^ 64 : Int) = b + 1 := Int.emod_eq_of_lt (by omega) (by omega)
  simp only [next, hu]
  split
  · obtain rfl : N = b + 1 := by omega
    have hzero : (b : Int) + 1 - ((b + 1 : Nat) : Int) = 0 := by omega
    rw [Nat.mod_self, hzero]
    rfl
  · rw [Nat.mod_eq_of_lt (by omega)]
    omega

theorem next_neg_one (hN : Capacity N) : next N (-1) = 0 := by
  have hpos := hN.pos
  have hu : ((-1 : Int) + 1) % (2 ^ 64 : Int) = 0 := rfl
  simp only [next, hu]
  rw [if_neg (by omega)]
  rfl

end Capacity

/-- The ring holds what the log says. -/
structure Ok (N : Nat) (q : Fifo T) : Prop where
  taken_le : q.taken ≤ q.log.length
  length_le : q.log.length ≤ q.taken + N
  rest : q.log.length = q.taken → q.head = -1 ∧ q.tail = -1
  busy : q.taken < q.log.length → ∃ b : Nat, b < N ∧ q.tail = b ∧
    q.head = ((b + (q.log.length - q.taken - 1)) % N : Nat) ∧
    ∀ j, q.taken + j < q.log.length → q.log[q.taken + j]? = some (q.data ((b + j) % N))

namespace Ok

variable {N : Nat} {q : Fifo T}

theorem new (N : Nat) (d : T) : Ok N (Fifo.new d) where
  taken_le := le_refl _
  length_le := Nat.zero_le _
  rest _ := ⟨rfl, rfl⟩
  busy h := absurd h (lt_irrefl _)

theorem empty_iff (h : Ok N q) : q.empty = true ↔ q.log.length = q.taken := by
  have hle := h.taken_le
  unfold empty
  constructor
  · intro he
    by_contra hne
    obtain ⟨b, -, htail, -⟩ := h.busy (by omega)
    rw [htail] at he
    simp only [beq_iff_eq] at he
    omega
  · intro he
    rw [(h.rest he).2]
    rfl

theorem full_iff (h : Ok N q) (hN : Capacity N) : q.full N = true ↔ q.log.length = q.taken + N := by
  have hle := h.taken_le
  have hlen := h.length_le
  unfold full
  by_cases he : q.log.length = q.taken
  · obtain ⟨hhead, htail⟩ := h.rest he
    have hpos := hN.pos
    rw [hhead, htail, hN.next_neg_one]
    constructor
    · intro hf
      cases hf
    · intro hf
      omega
  · obtain ⟨b, hb, htail, hhead, -⟩ := h.busy (by omega)
    have hlt : (b + (q.log.length - q.taken - 1)) % N < N := Nat.mod_lt _ hN.pos
    rw [hhead, htail]
    simp only [beq_iff_eq]
    rw [hN.next_index hlt, Nat.mod_add_mod]
    constructor
    · intro hf
      have hf' : (b + (q.log.length - q.taken - 1) + 1) % N = b := by omega
      by_contra hne
      rcases Nat.lt_or_ge (b + (q.log.length - q.taken - 1) + 1) N with hlt' | hge
      · rw [Nat.mod_eq_of_lt hlt'] at hf'
        omega
      · rw [Nat.mod_eq_sub_mod hge, Nat.mod_eq_of_lt (by omega)] at hf'
        omega
    · intro hf
      have hpos : b + (q.log.length - q.taken - 1) + 1 = b + N := by omega
      rw [hpos, Nat.add_mod_right, Nat.mod_eq_of_lt hb]

theorem enqueue (h : Ok N q) (hN : Capacity N) (val : T) : Ok N (q.enqueue N val) := by
  have hle := h.taken_le
  have hlen := h.length_le
  have hpos := hN.pos
  have hfull := h.full_iff hN
  by_cases he : q.log.length = q.taken
  · -- the first value starts the ring at cell zero
    obtain ⟨hhead, htail⟩ := h.rest he
    have hempty : q.empty = true := h.empty_iff.2 he
    have hnot : q.full N = false := by
      rw [Bool.eq_false_iff]
      intro hf
      have := hfull.1 hf
      omega
    have hnew : q.enqueue N val =
        { head := 0, tail := 0, data := q.data.set 0 val, log := q.log ++ [val], taken := q.taken } := by
      simp only [Fifo.enqueue, hempty, hhead, hnot, hN.next_neg_one, if_true]
      rfl
    rw [hnew]
    refine ⟨?_, ?_, ?_, ?_⟩
    · simp [he]
    · simp only [List.length_append, List.length_singleton]
      omega
    · intro hc
      simp only [List.length_append, List.length_singleton] at hc
      omega
    · intro _
      refine ⟨0, hpos, rfl, ?_, ?_⟩
      · simp [he]
      · intro j hj
        simp only [List.length_append, List.length_singleton] at hj
        obtain rfl : j = 0 := by omega
        simp [← he]
  · obtain ⟨b, hb, htail, hhead, hdata⟩ := h.busy (by omega)
    have hempty : q.empty = false := by
      rw [Bool.eq_false_iff]
      exact fun hc => he (h.empty_iff.1 hc)
    have hlt : (b + (q.log.length - q.taken - 1)) % N < N := Nat.mod_lt _ hpos
    have hhead' : next N q.head = ((b + (q.log.length - q.taken)) % N : Nat) := by
      rw [hhead, hN.next_index hlt, Nat.mod_add_mod]
      congr 2
      omega
    have hnew : q.enqueue N val =
        { head := ((b + (q.log.length - q.taken)) % N : Nat)
          tail := b
          data := q.data.set ((b + (q.log.length - q.taken)) % N) val
          log := q.log ++ [val]
          taken := if q.full N then q.log.length else q.taken } := by
      simp only [Fifo.enqueue, hempty, hhead', htail, Int.toNat_natCast, Bool.false_eq_true,
        if_false]
    rw [hnew]
    by_cases hf : q.full N = true
    · -- the head runs into the tail, and only the new value is left
      have hsize : q.log.length - q.taken = N := by
        have := hfull.1 hf
        omega
      have hcell : (b + N) % N = b := by rw [Nat.add_mod_right, Nat.mod_eq_of_lt hb]
      refine ⟨?_, ?_, ?_, ?_⟩
      · simp [hf]
      · simp only [hf, if_true, List.length_append, List.length_singleton]
        omega
      · intro hc
        simp [hf] at hc
      · intro _
        refine ⟨b, hb, rfl, ?_, ?_⟩
        · simp [hf, hsize, Nat.mod_eq_of_lt hb]
        · intro j hj
          simp only [hf, if_true, List.length_append, List.length_singleton] at hj
          obtain rfl : j = 0 := by omega
          simp [hf, hsize, Nat.mod_eq_of_lt hb]
    · have hsize : q.log.length - q.taken < N := by
        have : q.log.length ≠ q.taken + N := fun hc => hf (hfull.2 hc)
        omega
      refine ⟨?_, ?_, ?_, ?_⟩
      · simp only [hf, List.length_append, List.length_singleton, Bool.false_eq_true, if_false]
        omega
      · simp only [hf, List.length_append, List.length_singleton, Bool.false_eq_true, if_false]
        omega
      · intro hc
        simp only [hf, List.length_append, List.length_singleton, Bool.false_eq_true, if_false] at hc
        omega
      · intro _
        simp only [hf, List.length_append, List.length_singleton, Bool.false_eq_true, if_false]
        refine ⟨b, hb, rfl, ?_, ?_⟩
        · congr 3
          omega
        · intro j hj
          rcases Nat.lt_or_ge (q.taken + j) q.log.length with hlt' | hge
          · rw [List.getElem?_append_left hlt', hdata j hlt', Table.get_set_ne]
            -- distinct positions of one lap lie in distinct cells
            intro hc
            have hj' : b + j < b + N := by omega
            have hl' : b + (q.log.length - q.taken) < b + N := by omega
            have := Ring.eq_of_mod_eq (Nat.le_add_right b j) hj' (Nat.le_add_right b _) hl' hc
            omega
          · have hjeq : j = q.log.length - q.taken := by omega
            rw [List.getElem?_append_right hge, hjeq, Table.get_set_self]
            have hzero : q.taken + (q.log.length - q.taken) - q.log.length = 0 := by omega
            rw [hzero]
            rfl

/-- A dequeue takes the oldest value, if there is one. -/
theorem dequeue (h : Ok N q) (hN : Capacity N) :
    q.log.length = q.taken ∧ q.dequeue N = (none, q) ∨
    ∃ v, q.log[q.taken]? = some v ∧ (q.dequeue N).1 = some v ∧
      (q.dequeue N).2.log = q.log ∧ (q.dequeue N).2.taken = q.taken + 1 ∧
      Ok N (q.dequeue N).2 := by
  have hle := h.taken_le
  have hlen := h.length_le
  by_cases he : q.log.length = q.taken
  · refine Or.inl ⟨he, ?_⟩
    simp only [Fifo.dequeue, h.empty_iff.2 he, if_true]
  · obtain ⟨b, hb, htail, hhead, hdata⟩ := h.busy (by omega)
    have hempty : q.empty = false := by
      rw [Bool.eq_false_iff]
      exact fun hc => he (h.empty_iff.1 hc)
    have hfirst : q.log[q.taken]? = some (q.data b) := by
      have := hdata 0 (by omega)
      rwa [Nat.add_zero, Nat.add_zero, Nat.mod_eq_of_lt hb] at this
    refine Or.inr ⟨q.data b, hfirst, ?_⟩
    by_cases hone : q.log.length = q.taken + 1
    · have heq : q.tail = q.head := by
        rw [htail, hhead]
        congr 1
        rw [show q.log.length - q.taken - 1 = 0 by omega, Nat.add_zero, Nat.mod_eq_of_lt hb]
      simp only [Fifo.dequeue, hempty, heq.symm, htail, if_true, Bool.false_eq_true, if_false]
      refine ⟨by simp, trivial, trivial, ?_⟩
      exact
        { taken_le := by simp [hone]
          length_le := by simp only; omega
          rest := fun _ => ⟨rfl, rfl⟩
          busy := fun hc => by simp only at hc; omega }
    · have hne : q.tail ≠ q.head := by
        rw [htail, hhead]
        intro hc
        have hc' : b % N = (b + (q.log.length - q.taken - 1)) % N := by
          rw [Nat.mod_eq_of_lt hb]
          omega
        have := Ring.eq_of_mod_eq (le_refl b) (by omega : b < b + N) (Nat.le_add_right b _)
          (by omega) hc'
        omega
      have htail' : next N q.tail = ((b + 1) % N : Nat) := by rw [htail, hN.next_index hb]
      simp only [Fifo.dequeue, hempty, hne, htail', Bool.false_eq_true, if_false]
      refine ⟨by simp [htail], trivial, trivial, ?_⟩
      exact
        { taken_le := by simp only; omega
          length_le := by simp only; omega
          rest := fun hc => by simp only at hc; omega
          busy := by
            intro hc
            simp only at hc ⊢
            refine ⟨(b + 1) % N, Nat.mod_lt _ hN.pos, rfl, ?_, ?_⟩
            · rw [hhead, Nat.mod_add_mod]
              congr 2
              omega
            · intro j hj
              have := hdata (j + 1) (by omega)
              rw [Nat.mod_add_mod, show b + 1 + j = b + (j + 1) by omega,
                show q.taken + 1 + j = q.taken + (j + 1) by omega]
              exact this }

end Ok

/-! ## The queue as a list -/

theorem entry_congr {q q' : Fifo T} (hlog : q'.log = q.log) (htaken : q'.taken = q.taken) (p : Nat) :
    q'.entry p = q.entry p := by
  rw [entry, entry, hlog, htaken]

theorem entry_dequeue {q q' : Fifo T} (hlog : q'.log = q.log) (htaken : q'.taken = q.taken + 1)
    (p : Nat) : q'.entry p = if p = q.taken then none else q.entry p := by
  rw [entry, entry, hlog, htaken]
  split_ifs <;> first | rfl | omega

/-- An enqueue adds its value, and loses the others when the queue is full. -/
theorem entry_enqueue {N : Nat} {q : Fifo T} (hle : q.taken ≤ q.log.length) (val : T) (p : Nat) :
    (q.enqueue N val).entry p =
      if p = q.log.length then some val
      else if q.full N = true then none
      else q.entry p := by
  have hlog : (q.enqueue N val).log = q.log ++ [val] := rfl
  have htaken : (q.enqueue N val).taken = if q.full N then q.log.length else q.taken := rfl
  rw [entry, entry, hlog, htaken]
  by_cases hp : p = q.log.length
  · rw [if_pos hp, if_pos (by split <;> omega), hp, List.getElem?_append_right (le_refl _)]
    simp
  · rw [if_neg hp]
    by_cases hf : q.full N = true
    · rw [if_pos hf, if_pos hf]
      split
      · rw [List.getElem?_eq_none]
        simp only [List.length_append, List.length_singleton]
        omega
      · rfl
    · rw [if_neg hf, if_neg hf]
      split
      · rcases Nat.lt_or_ge p q.log.length with hlt | hge
        · rw [List.getElem?_append_left hlt]
        · rw [List.getElem?_eq_none (by simp; omega), List.getElem?_eq_none (by omega)]
      · rfl

/-! ## Runs -/

/-- A call of the queue's user. -/
inductive Call (T : Type) where
  | enqueue (val : T)
  | dequeue
  deriving DecidableEq, Repr

/-- `enqueue` asserts that the queue is not full. -/
def step (N : Nat) (q : Fifo T) : Call T → Option (Fifo T)
  | .enqueue val => if q.full N then none else some (q.enqueue N val)
  | .dequeue => some (q.dequeue N).2

/-- The number of values between the tail and the head. -/
def count (N : Nat) (q : Fifo T) : Nat :=
  if q.empty then 0 else ((q.head - q.tail) % N).toNat + 1

/-- The list that `mHead`, `mTail` and `mData` represent. -/
def contents (N : Nat) (q : Fifo T) : List T :=
  (List.range (q.count N)).map fun j => q.data ((q.tail.toNat + j) % N)

namespace Ok

variable {N : Nat} {q : Fifo T}

theorem count_eq (h : Ok N q) : q.count N = q.log.length - q.taken := by
  have hle := h.taken_le
  have hlen := h.length_le
  by_cases he : q.log.length = q.taken
  · rw [count, if_pos (h.empty_iff.2 he), he, Nat.sub_self]
  · obtain ⟨b, hb, htail, hhead, -⟩ := h.busy (by omega)
    have hempty : ¬ q.empty = true := fun hc => he (h.empty_iff.1 hc)
    have hdist : (q.head - q.tail) % N = ((q.log.length - q.taken - 1 : Nat) : Int) := by
      have hmod : (q.log.length - q.taken - 1 : Nat) % N = q.log.length - q.taken - 1 :=
        Nat.mod_eq_of_lt (by omega)
      rw [hhead, htail, Int.natCast_emod, Int.emod_sub_emod]
      rw [show ((b + (q.log.length - q.taken - 1) : Nat) : Int) - b =
        ((q.log.length - q.taken - 1 : Nat) : Int) by omega, ← Int.natCast_emod, hmod]
    rw [count, if_neg hempty, hdist, Int.toNat_natCast]
    omega

theorem contents_eq (h : Ok N q) : q.contents N = q.toList := by
  have hle := h.taken_le
  have hcount := h.count_eq
  apply List.ext_getElem?
  intro j
  rw [toList, List.getElem?_drop]
  by_cases hj : q.taken + j < q.log.length
  · obtain ⟨b, -, htail, -, hdata⟩ := h.busy (by omega)
    rw [hdata j hj, contents, List.getElem?_map, List.getElem?_range (by omega), htail,
      Int.toNat_natCast]
    rfl
  · have hlength : (q.contents N).length = q.count N := by
      rw [contents, List.length_map, List.length_range]
    rw [List.getElem?_eq_none (by omega), List.getElem?_eq_none (by omega)]

theorem contents_length (h : Ok N q) : (q.contents N).length = q.log.length - q.taken := by
  rw [h.contents_eq, toList, List.length_drop]

theorem step {q' : Fifo T} {c : Call T} (h : Ok N q) (hN : Capacity N)
    (hs : q.step N c = some q') : Ok N q' := by
  cases c with
  | enqueue val =>
      simp only [Fifo.step] at hs
      split at hs
      · cases hs
      · cases hs
        exact h.enqueue hN val
  | dequeue =>
      obtain rfl := Option.some.inj hs
      rcases h.dequeue hN with ⟨-, hsame⟩ | ⟨v, -, -, -, -, hok⟩
      · rw [hsame]
        exact h
      · exact hok

end Ok

/-- What the operations do on a queue that represents the list `l`. -/
structure Represents (N : Nat) (q : Fifo T) (l : List T) : Prop where
  contents : q.contents N = l
  length_le : l.length ≤ N
  empty_iff : q.empty = true ↔ l = []
  full_iff : q.full N = true ↔ l.length = N
  enqueue : ∀ val, q.full N = false → (q.enqueue N val).contents N = l ++ [val]
  dequeue_none : (q.dequeue N).1 = none ↔ l = []
  dequeue_same : l = [] → (q.dequeue N).2 = q
  dequeue_some : ∀ v rest, l = v :: rest →
    (q.dequeue N).1 = some v ∧ (q.dequeue N).2.contents N = rest

theorem Ok.represents {N : Nat} {q : Fifo T} (h : Ok N q) (hN : Capacity N) :
    Represents N q (q.contents N) := by
  have hle := h.taken_le
  have hlen := h.length_le
  have hlength := h.contents_length
  have hnil : q.contents N = [] ↔ q.log.length = q.taken := by
    rw [← List.length_eq_zero_iff, hlength]
    omega
  refine ⟨rfl, by omega, h.empty_iff.trans hnil.symm, ?_, ?_, ?_, ?_, ?_⟩
  · rw [h.full_iff hN]
    omega
  · intro val hf
    have htaken : (q.enqueue N val).taken = q.taken := by
      show (if q.full N then _ else _) = _
      rw [if_neg (by rw [hf]; simp)]
    rw [(h.enqueue hN val).contents_eq, h.contents_eq, toList, toList, htaken]
    exact List.drop_append_of_le_length hle
  · rw [hnil]
    rcases h.dequeue hN with ⟨he, hsame⟩ | ⟨v, hv, hout, -, -, -⟩
    · rw [hsame]
      exact ⟨fun _ => he, fun _ => rfl⟩
    · have hlt := (List.getElem?_eq_some_iff.1 hv).1
      rw [hout]
      exact ⟨by simp, fun he => by omega⟩
  · intro hl
    rcases h.dequeue hN with ⟨-, hsame⟩ | ⟨v, hv, -, -, -, -⟩
    · rw [hsame]
    · have hlt := (List.getElem?_eq_some_iff.1 hv).1
      have he := hnil.1 hl
      omega
  · intro v rest hl
    rcases h.dequeue hN with ⟨he, -⟩ | ⟨u, hu, hout, hlog, htaken, hok⟩
    · rw [hnil.2 he] at hl
      cases hl
    · obtain ⟨hlt, hget⟩ := List.getElem?_eq_some_iff.1 hu
      rw [h.contents_eq, toList, List.drop_eq_getElem_cons hlt, hget] at hl
      obtain ⟨rfl, rfl⟩ := List.cons.inj hl
      refine ⟨hout, ?_⟩
      rw [hok.contents_eq, toList, hlog, htaken]

/-- In every run that enqueues only while the queue is not full, the ring
represents a bounded list. -/
theorem represents_of_run {N : Nat} (hpos : 0 < N) (hlt : N < 2 ^ 31) (d : T) {σ : Nat → Fifo T}
    {ℓ : Nat → Call T} {n : Nat} (h : Run (step N) (new d) σ ℓ n) {k : Nat} (hk : k ≤ n) :
    Represents N (σ k) ((σ k).contents N) := by
  have hN : Capacity N := ⟨hpos, hlt⟩
  have hok := h.invariant (I := Ok N) (.new N d) (fun _ _ _ hI hs => hI.step hN hs) k hk
  exact hok.represents hN

/-- A queue of one value filled and emptied twice. -/
theorem represents_wrap :
    Represents 1 (trace (step 1) (new 0) [.enqueue 1, .dequeue, .enqueue 2, .dequeue] 3)
      ((trace (step 1) (new 0) [.enqueue 1, .dequeue, .enqueue 2, .dequeue] 3).contents 1) :=
  represents_of_run (by decide) (by decide) 0
    (Run.of_follows (G := fun _ _ => true) (s := new 0) .dequeue (by decide)) (by decide)

end Fifo

end TaskDispatcher.Container
