import TaskDispatcher.Container.MpmcQueue
import TaskDispatcher.Library.Ring

/-!
# The ring invariant of `MPMCQueue`

Each position is vacant, claimed by one enqueue, published, claimed by one
dequeue, or returned for the next lap.  `Inv` ties the sequence numbers of the
cells to that life cycle for any number of callers, and `enqueueStep_inv` and
`dequeueStep_inv` show that every access of either operation keeps it.
-/

namespace TaskDispatcher.Container

open TaskDispatcher.Library

/-- What one caller of the queue is doing. -/
inductive Caller (T : Type) where
  | idle
  | enqueue (data : T) (pc : EnqueuePC)
  | dequeue (pc : DequeuePC T)
  deriving DecidableEq, Repr

namespace Caller

variable {T : Type}

/-- The position a caller has claimed and not yet handed on: `.inl` for an
enqueue, `.inr` for a dequeue. -/
def claimed : Caller T → Option (Nat ⊕ Nat)
  | .enqueue _ (.write pos) => some (.inl pos)
  | .enqueue _ (.publish pos) => some (.inl pos)
  | .dequeue (.read pos) => some (.inr pos)
  | .dequeue (.publish pos _) => some (.inr pos)
  | _ => none

/-- The caller after one access of `enqueue(data)`. -/
def afterEnqueue (data : T) : EnqueuePC ⊕ Bool → Caller T
  | .inl pc => .enqueue data pc
  | .inr _ => .idle

/-- The caller after one access of `dequeue`. -/
def afterDequeue : DequeuePC T ⊕ Option T → Caller T
  | .inl pc => .dequeue pc
  | .inr _ => .idle

/-- A caller outside the queue or about to make its first access. -/
def atRest : Caller T → Bool
  | .idle => true
  | .enqueue _ .load => true
  | .dequeue .load => true
  | _ => false

theorem claimed_of_atRest {l : Caller T} (h : l.atRest = true) : l.claimed = none := by
  match l, h with
  | .idle, _ => rfl
  | .enqueue _ .load, _ => rfl
  | .dequeue .load, _ => rfl

end Caller

namespace Mpmc

variable {T A : Type}

def size (q : Mpmc T) : Nat := q.bufferMask + 1

@[simp] theorem size_setData (q : Mpmc T) (pos : Nat) (v : T) : (q.setData pos v).size = q.size := rfl

@[simp] theorem size_setSequence (q : Mpmc T) (pos s : Nat) :
    (q.setSequence pos s).size = q.size := rfl

@[simp] theorem enqueuePos_setData (q : Mpmc T) (pos : Nat) (v : T) :
    (q.setData pos v).enqueuePos = q.enqueuePos := rfl

@[simp] theorem dequeuePos_setData (q : Mpmc T) (pos : Nat) (v : T) :
    (q.setData pos v).dequeuePos = q.dequeuePos := rfl

@[simp] theorem log_setData (q : Mpmc T) (pos : Nat) (v : T) : (q.setData pos v).log = q.log := rfl

@[simp] theorem enqueuePos_setSequence (q : Mpmc T) (pos s : Nat) :
    (q.setSequence pos s).enqueuePos = q.enqueuePos := rfl

@[simp] theorem dequeuePos_setSequence (q : Mpmc T) (pos s : Nat) :
    (q.setSequence pos s).dequeuePos = q.dequeuePos := rfl

@[simp] theorem log_setSequence (q : Mpmc T) (pos s : Nat) :
    (q.setSequence pos s).log = q.log := rfl

theorem cell_setData (q : Mpmc T) (pos p : Nat) (v : T) :
    (q.setData pos v).cell p =
      if q.index p = q.index pos then { q.cell pos with data := v } else q.cell p := by
  show (q.buffer.set (q.index pos) _) (q.index p) = _
  rw [Table.get_set]
  rfl

theorem cell_setSequence (q : Mpmc T) (pos p s : Nat) :
    (q.setSequence pos s).cell p =
      if q.index p = q.index pos then { q.cell pos with sequence := s } else q.cell p := by
  show (q.buffer.set (q.index pos) _) (q.index p) = _
  rw [Table.get_set]
  rfl

theorem sequence_setData (q : Mpmc T) (pos p : Nat) (v : T) :
    ((q.setData pos v).cell p).sequence = (q.cell p).sequence := by
  rw [cell_setData]
  split
  · rename_i h
    simp [cell, h]
  · rfl

/-- What a caller knows about the ring at the access it stands at. -/
def CallerOk (q : Mpmc T) : Caller T → Prop
  | .enqueue _ (.sequence pos) => pos ≤ q.enqueuePos
  | .enqueue _ (.claim pos) =>
      pos ≤ q.enqueuePos ∧ (q.enqueuePos = pos → (q.cell pos).sequence = pos)
  | .enqueue v (.write pos) =>
      q.dequeuePos ≤ pos ∧ pos < q.enqueuePos ∧ (q.cell pos).sequence = pos ∧
        q.log[pos]? = some v
  | .enqueue v (.publish pos) =>
      q.dequeuePos ≤ pos ∧ pos < q.enqueuePos ∧ (q.cell pos).sequence = pos ∧
        q.log[pos]? = some v ∧ (q.cell pos).data = v
  | .dequeue (.sequence pos) => pos ≤ q.dequeuePos
  | .dequeue (.claim pos) =>
      pos ≤ q.dequeuePos ∧ (q.dequeuePos = pos → (q.cell pos).sequence = pos + 1)
  | .dequeue (.read pos) =>
      pos < q.dequeuePos ∧ q.enqueuePos ≤ pos + q.size ∧ (q.cell pos).sequence = pos + 1 ∧
        q.log[pos]? = some (q.cell pos).data
  | .dequeue (.publish pos x) =>
      pos < q.dequeuePos ∧ q.enqueuePos ≤ pos + q.size ∧ (q.cell pos).sequence = pos + 1 ∧
        q.log[pos]? = some (q.cell pos).data ∧ x = (q.cell pos).data
  | _ => True

theorem callerOk_of_atRest {q : Mpmc T} {l : Caller T} (h : l.atRest = true) : CallerOk q l := by
  match l, h with
  | .idle, _ => trivial
  | .enqueue _ .load, _ => trivial
  | .dequeue .load, _ => trivial

/-- The ring invariant over the queue and all its callers. -/
structure Inv (q : Mpmc T) (caller : A → Caller T) : Prop where
  two_pow : ∃ k, 1 ≤ k ∧ q.size = 2 ^ k
  log_length : q.log.length = q.enqueuePos
  deq_le : q.dequeuePos ≤ q.enqueuePos
  enq_le : q.enqueuePos ≤ q.dequeuePos + q.size
  ok : ∀ a, CallerOk q (caller a)
  unique : ∀ a b c, (caller a).claimed = some c → (caller b).claimed = some c → a = b
  filled : ∀ p, q.dequeuePos ≤ p → p < q.enqueuePos →
    ((q.cell p).sequence = p ∧ ∃ a, (caller a).claimed = some (.inl p)) ∨
      ((q.cell p).sequence = p + 1 ∧ q.log[p]? = some (q.cell p).data)
  vacant : ∀ p, q.enqueuePos ≤ p → p < q.dequeuePos + q.size →
    (q.cell p).sequence = p ∨
      (q.size ≤ p ∧ (q.cell p).sequence + q.size = p + 1 ∧
        ∃ a, (caller a).claimed = some (.inr (p - q.size)))

/-- The positions and sequence numbers up to the next claim fit the position type. -/
def Fits (M : Nat) (q : Mpmc T) : Prop := M = 0 ∨ q.enqueuePos + q.size < M

namespace Inv

variable {q : Mpmc T} {caller : A → Caller T}

theorem two_le_size (h : Inv q caller) : 2 ≤ q.size := by
  obtain ⟨k, hk, hs⟩ := h.two_pow
  calc 2 = 2 ^ 1 := rfl
    _ ≤ 2 ^ k := Nat.pow_le_pow_right (by decide) hk
    _ = q.size := hs.symm

theorem index_eq (h : Inv q caller) (p : Nat) : q.index p = p % q.size := by
  obtain ⟨k, hk, hs⟩ := h.two_pow
  have hmask : q.bufferMask = 2 ^ k - 1 := by
    unfold size at hs
    omega
  rw [index, hmask, Nat.and_two_pow_sub_one_eq_mod, hs]

theorem cell_congr (h : Inv q caller) {p r : Nat} (hpr : p % q.size = r % q.size) :
    q.cell p = q.cell r := by
  simp only [cell, h.index_eq, hpr]

theorem cell_add_size (h : Inv q caller) (p : Nat) : q.cell (p + q.size) = q.cell p :=
  h.cell_congr (Ring.add_self_mod _ _)

/-- Every sequence number is below the end of the lap in use. -/
theorem sequence_lt (h : Inv q caller) (p : Nat) :
    (q.cell p).sequence < q.enqueuePos + q.size := by
  have h2 := h.two_le_size
  have hle := h.deq_le
  obtain ⟨r, hr1, hr2, hr3⟩ := Ring.exists_mod_eq (show 0 < q.size by omega) q.dequeuePos p
  rw [← h.cell_congr hr3]
  rcases Nat.lt_or_ge r q.enqueuePos with hlt | hge
  · rcases h.filled r hr1 hlt with ⟨hs, -⟩ | ⟨hs, -⟩ <;> omega
  · rcases h.vacant r hge hr2 with hs | ⟨-, hs, -⟩ <;> omega

/-- A claimed enqueue position is in the lap in use, and its cell says so. -/
theorem claimed_enqueue (h : Inv q caller) {a : A} {p : Nat}
    (ha : (caller a).claimed = some (.inl p)) :
    q.dequeuePos ≤ p ∧ p < q.enqueuePos ∧ (q.cell p).sequence = p := by
  have hok := h.ok a
  unfold Caller.claimed at ha
  split at ha <;> simp only [Option.some.injEq, Sum.inl.injEq, reduceCtorEq] at ha <;>
    subst ha <;> rename_i heq <;> rw [heq] at hok
  · exact ⟨hok.1, hok.2.1, hok.2.2.1⟩
  · exact ⟨hok.1, hok.2.1, hok.2.2.1⟩

/-- A claimed dequeue position is behind `mDequeuePos` and not yet lapped. -/
theorem claimed_dequeue (h : Inv q caller) {a : A} {p : Nat}
    (ha : (caller a).claimed = some (.inr p)) :
    p < q.dequeuePos ∧ q.enqueuePos ≤ p + q.size ∧ (q.cell p).sequence = p + 1 ∧
      q.log[p]? = some (q.cell p).data := by
  have hok := h.ok a
  unfold Caller.claimed at ha
  split at ha <;> simp only [Option.some.injEq, Sum.inr.injEq, reduceCtorEq] at ha <;>
    subst ha <;> rename_i heq <;> rw [heq] at hok
  · exact hok
  · exact ⟨hok.1, hok.2.1, hok.2.2.1, hok.2.2.2.1⟩

/-- An enqueue that finds its cell behind meets a queue that holds `size` values or
a dequeue that has claimed the cell and not handed it back. -/
theorem full_or_stalled (h : Inv q caller) {pos : Nat} (hpos : pos ≤ q.enqueuePos)
    (hseq : (q.cell pos).sequence < pos) : q.enqueuePos = q.dequeuePos + q.size ∨
      (q.size ≤ pos ∧ ∃ a, (caller a).claimed = some (.inr (pos - q.size))) := by
  have h2 := h.two_le_size
  have hle := h.enq_le
  obtain ⟨r, hr1, hr2, hr3⟩ := Ring.exists_mod_eq (show 0 < q.size by omega) q.dequeuePos pos
  rw [← h.cell_congr hr3] at hseq
  rcases Nat.lt_or_ge r pos with hlt | hge
  · -- the cell is a lap behind
    have hdvd := (Nat.modEq_iff_dvd' (Nat.le_of_lt hlt)).1 hr3
    have := Nat.le_of_dvd (by omega) hdvd
    exact Or.inl (by omega)
  · rcases Nat.lt_or_ge r q.enqueuePos with hlt' | hge'
    · rcases h.filled r hr1 hlt' with ⟨hs, -⟩ | ⟨hs, -⟩ <;> omega
    · rcases h.vacant r hge' hr2 with hs | ⟨hsize, hs, a, ha⟩
      · omega
      · obtain rfl : pos = r := by
          have hdvd := (Nat.modEq_iff_dvd' hge).1 hr3.symm
          have := Nat.eq_zero_of_dvd_of_lt hdvd (by omega)
          omega
        exact Or.inr ⟨hsize, a, ha⟩

/-- A dequeue that finds its cell behind meets an empty queue or an enqueue that
has claimed the cell and not published it. -/
theorem empty_or_stalled (h : Inv q caller) {pos : Nat} (hpos : pos ≤ q.dequeuePos)
    (hseq : (q.cell pos).sequence < pos + 1) : pos = q.dequeuePos ∧
      (q.enqueuePos = q.dequeuePos ∨ ∃ a, (caller a).claimed = some (.inl pos)) := by
  have h2 := h.two_le_size
  have hle := h.enq_le
  have hde := h.deq_le
  obtain ⟨r, hr1, hr2, hr3⟩ := Ring.exists_mod_eq (show 0 < q.size by omega) q.dequeuePos pos
  rw [← h.cell_congr hr3] at hseq
  have hlap : r = pos ∨ pos + q.size ≤ r := by
    rcases Nat.eq_or_lt_of_le (Nat.le_trans hpos hr1) with heq | hlt
    · exact Or.inl heq.symm
    · have hdvd := (Nat.modEq_iff_dvd' (Nat.le_of_lt hlt)).1 hr3.symm
      have := Nat.le_of_dvd (by omega) hdvd
      exact Or.inr (by omega)
  rcases Nat.lt_or_ge r q.enqueuePos with hlt | hge
  · rcases h.filled r hr1 hlt with ⟨hs, a, ha⟩ | ⟨hs, -⟩
    · obtain rfl : r = pos := by omega
      exact ⟨by omega, Or.inr ⟨a, ha⟩⟩
    · omega
  · rcases h.vacant r hge hr2 with hs | ⟨-, hs, -⟩
    · exact ⟨by omega, Or.inl (by omega)⟩
    · omega

/-- Two claims in flight are never on the same cell. -/
theorem claims_disjoint (h : Inv q caller) {a b : A} {c d : Nat ⊕ Nat}
    (ha : (caller a).claimed = some c) (hb : (caller b).claimed = some d) (hab : a ≠ b) :
    (c.elim id id) % q.size ≠ (d.elim id id) % q.size := by
  have h2 := h.two_le_size
  have key : ∀ (x : A) (e : Nat ⊕ Nat), (caller x).claimed = some e →
      (q.cell (e.elim id id)).sequence = e.elim id (· + 1) := by
    rintro x (p | p) hx
    · exact (h.claimed_enqueue hx).2.2
    · exact (h.claimed_dequeue hx).2.2.1
  intro hmod
  have hc := key a c ha
  have hd := key b d hb
  rw [h.cell_congr hmod, hd] at hc
  rcases c with p | p <;> rcases d with r | r <;>
    simp only [Sum.elim_inl, Sum.elim_inr, id_eq] at hc hmod
  · subst hc
    exact hab (h.unique a b _ ha hb)
  · subst hc
    exact Ring.succ_mod_ne h2 r hmod
  · subst hc
    exact Ring.succ_mod_ne h2 p hmod.symm
  · have : p = r := by omega
    subst this
    exact hab (h.unique a b _ ha hb)

/-- A dequeue still reading the cell keeps the ring from lapping it. -/
theorem reader_lap (h : Inv q caller) {pos : Nat} (hle : q.enqueuePos ≤ pos + q.size)
    (hs : (q.cell pos).sequence = pos + 1)
    (hclaim : (q.cell q.enqueuePos).sequence = q.enqueuePos) :
    q.enqueuePos + 1 ≤ pos + q.size := by
  have h2 := h.two_le_size
  by_contra hlt
  have he : q.enqueuePos = pos + q.size := by omega
  rw [he, h.cell_add_size, hs] at hclaim
  omega

/-- The position a dequeue claims is not one an enqueue is still filling. -/
theorem writer_after {pos : Nat} (hle : q.dequeuePos ≤ pos)
    (hs : (q.cell pos).sequence = pos)
    (hclaim : (q.cell q.dequeuePos).sequence = q.dequeuePos + 1) : q.dequeuePos + 1 ≤ pos := by
  by_contra hlt
  have he : pos = q.dequeuePos := by omega
  rw [he, hclaim] at hs
  omega

/-! ## Claims under a move of one caller -/

theorem unique_update [DecidableEq A] (h : Inv q caller) {a : A} {l : Caller T}
    (hl : ∀ c, l.claimed = some c → ∀ b, b ≠ a → (caller b).claimed ≠ some c) :
    ∀ b b' c, (Function.update caller a l b).claimed = some c →
      (Function.update caller a l b').claimed = some c → b = b' := by
  intro b b' c hb hb'
  by_cases hba : b = a <;> by_cases hba' : b' = a
  · rw [hba, hba']
  · rw [hba, Function.update_self] at hb
    rw [Function.update_of_ne hba'] at hb'
    exact absurd hb' (hl c hb b' hba')
  · rw [hba', Function.update_self] at hb'
    rw [Function.update_of_ne hba] at hb
    exact absurd hb (hl c hb' b hba)
  · rw [Function.update_of_ne hba] at hb
    rw [Function.update_of_ne hba'] at hb'
    exact h.unique b b' c hb hb'

theorem exists_claimed_update [DecidableEq A] {caller : A → Caller T} {a : A} {l : Caller T}
    {c : Nat ⊕ Nat} (hac : (caller a).claimed = some c → l.claimed = some c)
    (h : ∃ b, (caller b).claimed = some c) :
    ∃ b, (Function.update caller a l b).claimed = some c := by
  obtain ⟨b, hb⟩ := h
  by_cases hba : b = a
  · subst hba
    exact ⟨b, by rw [Function.update_self]; exact hac hb⟩
  · exact ⟨b, by rw [Function.update_of_ne hba]; exact hb⟩

theorem ok_update [DecidableEq A] {caller : A → Caller T} {q' : Mpmc T} {a : A} {l : Caller T} (hl : CallerOk q' l)
    (hother : ∀ b, b ≠ a → CallerOk q' (caller b)) :
    ∀ b, CallerOk q' (Function.update caller a l b) := by
  intro b
  by_cases hb : b = a
  · subst hb
    rw [Function.update_self]
    exact hl
  · rw [Function.update_of_ne hb]
    exact hother b hb

/-- A caller may move to any access that holds the same claim. -/
theorem move [DecidableEq A] (h : Inv q caller) {a : A} {l : Caller T}
    (hl : l.claimed = (caller a).claimed) (hok : CallerOk q l) :
    Inv q (Function.update caller a l) where
  two_pow := h.two_pow
  log_length := h.log_length
  deq_le := h.deq_le
  enq_le := h.enq_le
  ok := ok_update hok fun b _ => h.ok b
  unique := by
    refine h.unique_update fun c hc b hb hbc => hb ?_
    exact h.unique b a c hbc (hl ▸ hc)
  filled := by
    intro p hp1 hp2
    rcases h.filled p hp1 hp2 with ⟨hs, he⟩ | hs
    · exact Or.inl ⟨hs, exists_claimed_update (by simp [hl]) he⟩
    · exact Or.inr hs
  vacant := by
    intro p hp1 hp2
    rcases h.vacant p hp1 hp2 with hs | ⟨hn, hs, he⟩
    · exact Or.inl hs
    · exact Or.inr ⟨hn, hs, exists_claimed_update (by simp [hl]) he⟩

/-! ## Enqueue -/

/-- The position an enqueue claims is the next one, and its cell is free. -/
theorem enqueuePos_lt (h : Inv q caller)
    (hs : (q.cell q.enqueuePos).sequence = q.enqueuePos) :
    q.enqueuePos < q.dequeuePos + q.size := by
  have h2 := h.two_le_size
  have hle := h.enq_le
  by_contra hlt
  have he : q.enqueuePos = q.dequeuePos + q.size := by omega
  rw [he, h.cell_add_size] at hs
  rcases h.filled q.dequeuePos (le_refl _) (by omega) with ⟨hd, -⟩ | ⟨hd, -⟩ <;> omega

theorem log_append (v : T) {p : Nat} {w : T} (hp : q.log[p]? = some w) :
    (q.log ++ [v])[p]? = some w := by
  obtain ⟨hlt, -⟩ := List.getElem?_eq_some_iff.1 hp
  rw [List.getElem?_append_left hlt]
  exact hp

/-- Claiming a position leaves what every other caller knows true. -/
theorem callerOk_claim_enqueue (h : Inv q caller) (v : T) {l : Caller T} (hok : CallerOk q l)
    (hclaim : (q.cell q.enqueuePos).sequence = q.enqueuePos) :
    CallerOk { q with enqueuePos := q.enqueuePos + 1, log := q.log ++ [v] } l := by
  match l, hok with
  | .idle, _ => trivial
  | .enqueue _ .load, _ => trivial
  | .enqueue _ (.sequence pos), hok => exact Nat.le_succ_of_le hok
  | .enqueue _ (.claim pos), ⟨h1, _⟩ =>
      refine ⟨Nat.le_succ_of_le h1, fun he => ?_⟩
      simp only at he
      omega
  | .enqueue _ (.write pos), ⟨h1, h2, h3, h4⟩ =>
      exact ⟨h1, Nat.lt_succ_of_lt h2, h3, log_append v h4⟩
  | .enqueue _ (.publish pos), ⟨h1, h2, h3, h4, h5⟩ =>
      exact ⟨h1, Nat.lt_succ_of_lt h2, h3, log_append v h4, h5⟩
  | .dequeue .load, _ => trivial
  | .dequeue (.sequence pos), hok => exact hok
  | .dequeue (.claim pos), hok => exact hok
  | .dequeue (.read pos), ⟨h1, h2, h3, h4⟩ =>
      exact ⟨h1, h.reader_lap h2 h3 hclaim, h3, log_append v h4⟩
  | .dequeue (.publish pos x), ⟨h1, h2, h3, h4, h5⟩ =>
      exact ⟨h1, h.reader_lap h2 h3 hclaim, h3, log_append v h4, h5⟩

theorem claim_enqueue [DecidableEq A] (h : Inv q caller) {a : A} {v : T}
    (ha : caller a = .enqueue v (.claim q.enqueuePos)) :
    Inv { q with enqueuePos := q.enqueuePos + 1, log := q.log ++ [v] }
      (Function.update caller a (.enqueue v (.write q.enqueuePos))) := by
  have hclaim : (q.cell q.enqueuePos).sequence = q.enqueuePos := by
    have hok := h.ok a
    rw [ha] at hok
    exact hok.2 rfl
  have hnone : (caller a).claimed = none := by rw [ha]; rfl
  refine ⟨h.two_pow, ?_, ?_, h.enqueuePos_lt hclaim, ?_, h.unique_update ?_, ?_, ?_⟩
  · simp [h.log_length]
  · exact Nat.le_succ_of_le h.deq_le
  · refine ok_update ⟨h.deq_le, Nat.lt_succ_self _, hclaim, ?_⟩ fun b _ =>
      h.callerOk_claim_enqueue v (h.ok b) hclaim
    simp [← h.log_length]
  · -- nobody else holds the position that was only now handed out
    rintro c hc b - hb
    obtain rfl : Sum.inl q.enqueuePos = c := by simpa [Caller.claimed] using hc
    have := (h.claimed_enqueue hb).2
    omega
  · intro p hp1 hp2
    by_cases hp : p = q.enqueuePos
    · subst hp
      exact Or.inl ⟨hclaim, a, by rw [Function.update_self]; rfl⟩
    · rcases h.filled p hp1 (by simp only at hp2; omega) with ⟨hs, he⟩ | ⟨hs, hl⟩
      · exact Or.inl ⟨hs, exists_claimed_update (by simp [hnone]) he⟩
      · exact Or.inr ⟨hs, log_append v hl⟩
  · intro p hp1 hp2
    rcases h.vacant p (by simp only at hp1; omega) hp2 with hs | ⟨hn, hs, he⟩
    · exact Or.inl hs
    · exact Or.inr ⟨hn, hs, exists_claimed_update (by simp [hnone]) he⟩

theorem cell_setData_ne (h : Inv q caller) {pos p : Nat} {v : T}
    (hne : p % q.size ≠ pos % q.size) : (q.setData pos v).cell p = q.cell p := by
  rw [cell_setData, if_neg (by rwa [h.index_eq, h.index_eq])]

theorem cell_setSequence_ne (h : Inv q caller) {pos p s : Nat}
    (hne : p % q.size ≠ pos % q.size) : (q.setSequence pos s).cell p = q.cell p := by
  rw [cell_setSequence, if_neg (by rwa [h.index_eq, h.index_eq])]

theorem write_enqueue [DecidableEq A] (h : Inv q caller) {a : A} {v : T} {pos : Nat}
    (ha : caller a = .enqueue v (.write pos)) :
    Inv (q.setData pos v) (Function.update caller a (.enqueue v (.publish pos))) := by
  have hclaimed : (caller a).claimed = some (.inl pos) := by rw [ha]; rfl
  have hok := h.ok a
  rw [ha] at hok
  obtain ⟨h1, h2, h3, h4⟩ := hok
  have hsame : ∀ c, (caller a).claimed = some c →
      (Caller.enqueue v (.publish pos)).claimed = some c := by rw [ha]; exact fun _ hc => hc
  refine ⟨h.two_pow, h.log_length, h.deq_le, h.enq_le, ?_, h.unique_update ?_, ?_, ?_⟩
  · refine ok_update ⟨h1, h2, by rw [sequence_setData]; exact h3, h4, by simp [cell_setData]⟩ ?_
    intro b hba
    have hdis : ∀ c, (caller b).claimed = some c → (c.elim id id) % q.size ≠ pos % q.size :=
      fun c hc => h.claims_disjoint hc hclaimed hba
    have hokb := h.ok b
    revert hokb hdis
    generalize caller b = l
    intro hdis hokb
    match l, hokb with
    | .idle, _ => trivial
    | .enqueue _ .load, _ => trivial
    | .enqueue _ (.sequence p), hp => exact hp
    | .enqueue _ (.claim p), ⟨hp, hs⟩ =>
        exact ⟨hp, fun he => by rw [sequence_setData]; exact hs he⟩
    | .enqueue _ (.write p), ⟨p1, p2, p3, p4⟩ =>
        exact ⟨p1, p2, by rw [sequence_setData]; exact p3, p4⟩
    | .enqueue _ (.publish p), hp =>
        have hc : (q.setData pos v).cell p = q.cell p :=
          h.cell_setData_ne (hdis (.inl p) rfl)
        simpa [CallerOk, hc] using hp
    | .dequeue .load, _ => trivial
    | .dequeue (.sequence p), hp => exact hp
    | .dequeue (.claim p), ⟨hp, hs⟩ =>
        exact ⟨hp, fun he => by rw [sequence_setData]; exact hs he⟩
    | .dequeue (.read p), hp =>
        have hc : (q.setData pos v).cell p = q.cell p :=
          h.cell_setData_ne (hdis (.inr p) rfl)
        simpa [CallerOk, hc] using hp
    | .dequeue (.publish p x), hp =>
        have hc : (q.setData pos v).cell p = q.cell p :=
          h.cell_setData_ne (hdis (.inr p) rfl)
        simpa [CallerOk, hc] using hp
  · rintro c hc b hba hb
    obtain rfl : Sum.inl pos = c := by simpa [Caller.claimed] using hc
    exact hba (h.unique b a _ hb hclaimed)
  · intro p hp1 hp2
    rw [sequence_setData]
    rcases h.filled p hp1 hp2 with ⟨hs, he⟩ | ⟨hs, hl⟩
    · exact Or.inl ⟨hs, exists_claimed_update (hsame _) he⟩
    · refine Or.inr ⟨hs, ?_⟩
      have hne : p % q.size ≠ pos % q.size := by
        intro hmod
        rw [h.cell_congr hmod, h3] at hs
        subst hs
        exact Ring.succ_mod_ne h.two_le_size p hmod.symm
      rw [h.cell_setData_ne hne]
      exact hl
  · intro p hp1 hp2
    rw [sequence_setData]
    rcases h.vacant p hp1 hp2 with hs | ⟨hn, hs, he⟩
    · exact Or.inl hs
    · exact Or.inr ⟨hn, hs, exists_claimed_update (hsame _) he⟩

/-- A sequence store by the claimant of `pos` is not seen through any other claim
or pending exchange. -/
theorem callerOk_setSequence (h : Inv q caller) {a b : A} {c : Nat ⊕ Nat} {s : Nat}
    (ha : (caller a).claimed = some c) (hba : b ≠ a) :
    CallerOk (q.setSequence (c.elim id id) s) (caller b) := by
  have h2 := h.two_le_size
  have hdis : ∀ d, (caller b).claimed = some d →
      (d.elim id id) % q.size ≠ (c.elim id id) % q.size := fun d hd => h.claims_disjoint hd ha hba
  have henq : ∀ p, q.enqueuePos = p → (q.cell p).sequence = p →
      p % q.size ≠ (c.elim id id) % q.size := by
    intro p he hs hmod
    rw [h.cell_congr hmod] at hs
    rcases c with pos | pos <;> simp only [Sum.elim_inl, Sum.elim_inr, id_eq] at hs hmod
    · have := h.claimed_enqueue ha
      omega
    · rw [(h.claimed_dequeue ha).2.2.1] at hs
      subst hs
      exact Ring.succ_mod_ne h2 pos hmod
  have hdeq : ∀ p, q.dequeuePos = p → (q.cell p).sequence = p + 1 →
      p % q.size ≠ (c.elim id id) % q.size := by
    intro p he hs hmod
    rw [h.cell_congr hmod] at hs
    rcases c with pos | pos <;> simp only [Sum.elim_inl, Sum.elim_inr, id_eq] at hs hmod
    · rw [(h.claimed_enqueue ha).2.2] at hs
      subst hs
      exact Ring.succ_mod_ne h2 p hmod.symm
    · have := h.claimed_dequeue ha
      omega
  have hokb := h.ok b
  revert hokb hdis
  generalize caller b = l
  intro hdis hokb
  match l, hokb with
  | .idle, _ => trivial
  | .enqueue _ .load, _ => trivial
  | .enqueue _ (.sequence p), hp => exact hp
  | .enqueue _ (.claim p), ⟨hp, hs⟩ =>
      exact ⟨hp, fun he => by rw [h.cell_setSequence_ne (henq p he (hs he))]; exact hs he⟩
  | .enqueue _ (.write p), hp =>
      have hc : (q.setSequence (c.elim id id) s).cell p = q.cell p :=
        h.cell_setSequence_ne (hdis (.inl p) rfl)
      simpa [CallerOk, hc] using hp
  | .enqueue _ (.publish p), hp =>
      have hc : (q.setSequence (c.elim id id) s).cell p = q.cell p :=
        h.cell_setSequence_ne (hdis (.inl p) rfl)
      simpa [CallerOk, hc] using hp
  | .dequeue .load, _ => trivial
  | .dequeue (.sequence p), hp => exact hp
  | .dequeue (.claim p), ⟨hp, hs⟩ =>
      exact ⟨hp, fun he => by rw [h.cell_setSequence_ne (hdeq p he (hs he))]; exact hs he⟩
  | .dequeue (.read p), hp =>
      have hc : (q.setSequence (c.elim id id) s).cell p = q.cell p :=
        h.cell_setSequence_ne (hdis (.inr p) rfl)
      simpa [CallerOk, hc] using hp
  | .dequeue (.publish p x), hp =>
      have hc : (q.setSequence (c.elim id id) s).cell p = q.cell p :=
        h.cell_setSequence_ne (hdis (.inr p) rfl)
      simpa [CallerOk, hc] using hp

theorem publish_enqueue [DecidableEq A] (h : Inv q caller) {a : A} {v : T} {pos : Nat}
    (ha : caller a = .enqueue v (.publish pos)) :
    Inv (q.setSequence pos (pos + 1)) (Function.update caller a .idle) := by
  have h2 := h.two_le_size
  have hclaimed : (caller a).claimed = some (.inl pos) := by rw [ha]; rfl
  have hok := h.ok a
  rw [ha] at hok
  obtain ⟨h1, hlt, h3, h4, h5⟩ := hok
  have hle := h.enq_le
  refine ⟨h.two_pow, h.log_length, h.deq_le, h.enq_le,
    ok_update trivial fun b hb => h.callerOk_setSequence hclaimed hb, h.unique_update ?_, ?_, ?_⟩
  · rintro c hc
    simp [Caller.claimed] at hc
  · intro p hp1 hp2
    simp only [dequeuePos_setSequence, enqueuePos_setSequence] at hp1 hp2
    by_cases hp : p = pos
    · subst hp
      refine Or.inr ?_
      rw [cell_setSequence, if_pos rfl]
      exact ⟨rfl, by rw [h5]; exact h4⟩
    · have hne : p % q.size ≠ pos % q.size := fun hmod =>
        hp (Ring.eq_of_mod_eq hp1 (lt_of_lt_of_le hp2 hle) h1 (by omega) hmod)
      rw [h.cell_setSequence_ne hne]
      rcases h.filled p hp1 hp2 with ⟨hs, he⟩ | hs
      · refine Or.inl ⟨hs, exists_claimed_update (fun hc => ?_) he⟩
        rw [hclaimed] at hc
        exact absurd (by simpa using hc.symm) hp
      · exact Or.inr hs
  · intro p hp1 hp2
    have hp2' : p < q.dequeuePos + q.size := hp2
    have hne : p % q.size ≠ pos % q.size := by
      intro hmod
      have := Ring.eq_of_mod_eq (h.deq_le.trans hp1) hp2' h1 (by omega) hmod
      simp only [setSequence] at hp1
      omega
    rw [h.cell_setSequence_ne hne, size_setSequence]
    rcases h.vacant p hp1 hp2' with hs | ⟨hn, hs, he⟩
    · exact Or.inl hs
    · refine Or.inr ⟨hn, hs, exists_claimed_update (fun hc => ?_) he⟩
      rw [hclaimed] at hc
      simp at hc

/-! ## Dequeue -/

/-- The position a dequeue claims holds a published value. -/
theorem dequeuePos_lt (h : Inv q caller)
    (hs : (q.cell q.dequeuePos).sequence = q.dequeuePos + 1) :
    q.dequeuePos < q.enqueuePos ∧
      q.log[q.dequeuePos]? = some (q.cell q.dequeuePos).data := by
  have h2 := h.two_le_size
  have hle := h.deq_le
  have hlt : q.dequeuePos < q.enqueuePos := by
    by_contra hge
    rcases h.vacant q.dequeuePos (by omega) (by omega) with hv | ⟨-, hv, -⟩ <;> omega
  rcases h.filled q.dequeuePos (le_refl _) hlt with ⟨hf, -⟩ | ⟨-, hl⟩
  · omega
  · exact ⟨hlt, hl⟩

theorem claim_dequeue [DecidableEq A] (h : Inv q caller) {a : A}
    (ha : caller a = .dequeue (.claim q.dequeuePos)) :
    Inv { q with dequeuePos := q.dequeuePos + 1 }
      (Function.update caller a (.dequeue (.read q.dequeuePos))) := by
  have hclaim : (q.cell q.dequeuePos).sequence = q.dequeuePos + 1 := by
    have hok := h.ok a
    rw [ha] at hok
    exact hok.2 rfl
  obtain ⟨hlt, hlog⟩ := h.dequeuePos_lt hclaim
  have h2 := h.two_le_size
  have hle := h.enq_le
  have hnone : (caller a).claimed = none := by rw [ha]; rfl
  refine ⟨h.two_pow, h.log_length, hlt, ?_, ?_, h.unique_update ?_, ?_, ?_⟩
  · show q.enqueuePos ≤ q.dequeuePos + 1 + q.size
    omega
  · refine ok_update ⟨Nat.lt_succ_self _, hle, hclaim, hlog⟩ fun b _ => ?_
    have hok := h.ok b
    revert hok
    generalize caller b = l
    intro hok
    match l, hok with
    | .idle, _ => trivial
    | .enqueue _ .load, _ => trivial
    | .enqueue _ (.sequence p), hp => exact hp
    | .enqueue _ (.claim p), hp => exact hp
    | .enqueue _ (.write p), ⟨p1, p2, p3, p4⟩ =>
        exact ⟨writer_after p1 p3 hclaim, p2, p3, p4⟩
    | .enqueue _ (.publish p), ⟨p1, p2, p3, p4, p5⟩ =>
        exact ⟨writer_after p1 p3 hclaim, p2, p3, p4, p5⟩
    | .dequeue .load, _ => trivial
    | .dequeue (.sequence p), hp => exact Nat.le_succ_of_le hp
    | .dequeue (.claim p), ⟨hp, _⟩ =>
        refine ⟨Nat.le_succ_of_le hp, fun he => ?_⟩
        simp only at he
        omega
    | .dequeue (.read p), ⟨p1, hp⟩ => exact ⟨Nat.lt_succ_of_lt p1, hp⟩
    | .dequeue (.publish p x), ⟨p1, hp⟩ => exact ⟨Nat.lt_succ_of_lt p1, hp⟩
  · rintro c hc b - hb
    obtain rfl : Sum.inr q.dequeuePos = c := by simpa [Caller.claimed] using hc
    have := (h.claimed_dequeue hb).1
    omega
  · intro p hp1 hp2
    rcases h.filled p (by simp only at hp1; omega) hp2 with ⟨hs, he⟩ | hs
    · exact Or.inl ⟨hs, exists_claimed_update (by simp [hnone]) he⟩
    · exact Or.inr hs
  · intro p hp1 hp2
    by_cases hp : p < q.dequeuePos + q.size
    · rcases h.vacant p hp1 hp with hs | ⟨hn, hs, he⟩
      · exact Or.inl hs
      · exact Or.inr ⟨hn, hs, exists_claimed_update (by simp [hnone]) he⟩
    · -- the cell just claimed is the last of the new lap
      obtain rfl : p = q.dequeuePos + q.size := by
        have : p < q.dequeuePos + 1 + q.size := hp2
        omega
      refine Or.inr ⟨Nat.le_add_left _ _, ?_, a, ?_⟩
      · show (q.cell (q.dequeuePos + q.size)).sequence + q.size = _
        rw [h.cell_add_size, hclaim]
        omega
      · rw [Function.update_self]
        show some (Sum.inr q.dequeuePos) = some (Sum.inr (q.dequeuePos + q.size - q.size))
        rw [Nat.add_sub_cancel]

theorem publish_dequeue [DecidableEq A] (h : Inv q caller) {a : A} {x : T} {pos : Nat}
    (ha : caller a = .dequeue (.publish pos x)) :
    Inv (q.setSequence pos (pos + q.size)) (Function.update caller a .idle) := by
  have h2 := h.two_le_size
  have hclaimed : (caller a).claimed = some (.inr pos) := by rw [ha]; rfl
  have hok := h.ok a
  rw [ha] at hok
  obtain ⟨h1, hle, h3, h4, h5⟩ := hok
  refine ⟨h.two_pow, h.log_length, h.deq_le, h.enq_le,
    ok_update trivial fun b hb => h.callerOk_setSequence hclaimed hb, h.unique_update ?_, ?_, ?_⟩
  · rintro c hc
    simp [Caller.claimed] at hc
  · intro p hp1 hp2
    have hfill := h.filled p hp1 hp2
    have hne : p % q.size ≠ pos % q.size := by
      intro hmod
      rw [h.cell_congr hmod, h3] at hfill
      rcases hfill with ⟨hs, -⟩ | ⟨hs, -⟩
      · subst hs
        exact Ring.succ_mod_ne h2 pos hmod
      · simp only [setSequence] at hp1
        omega
    rw [h.cell_setSequence_ne hne]
    rcases hfill with ⟨hs, he⟩ | hs
    · refine Or.inl ⟨hs, exists_claimed_update (fun hc => ?_) he⟩
      rw [hclaimed] at hc
      simp at hc
    · exact Or.inr hs
  · intro p hp1 hp2
    have hv := h.vacant p hp1 hp2
    by_cases hmod : p % q.size = pos % q.size
    · rw [cell_setSequence, if_pos (by rw [h.index_eq, h.index_eq, hmod])]
      refine Or.inl ?_
      rw [h.cell_congr hmod, h3] at hv
      rcases hv with hs | ⟨-, hs, -⟩
      · subst hs
        exact absurd hmod (Ring.succ_mod_ne h2 pos)
      · show pos + q.size = p
        omega
    · rw [h.cell_setSequence_ne hmod, size_setSequence]
      rcases hv with hs | ⟨hn, hs, he⟩
      · exact Or.inl hs
      · refine Or.inr ⟨hn, hs, exists_claimed_update (fun hc => ?_) he⟩
        rw [hclaimed] at hc
        simp only [Option.some.injEq, Sum.inr.injEq] at hc
        exact absurd (by rw [hc, Ring.sub_self_mod hn]) hmod

/-! ## Every access -/

theorem new {k : Nat} (hk : 1 ≤ k) (d : T) : Inv (Mpmc.new (2 ^ k) d) fun _ : A => .idle := by
  have hsize : (Mpmc.new (2 ^ k) d).size = 2 ^ k := by
    show 2 ^ k - 1 + 1 = 2 ^ k
    have := Nat.two_pow_pos k
    omega
  refine ⟨⟨k, hk, hsize⟩, rfl, le_refl _, Nat.zero_le _, fun _ => trivial, by simp [Caller.claimed],
    fun p _ hp => absurd hp (Nat.not_lt_zero p), fun p _ hp => Or.inl ?_⟩
  have hp' : p < 2 ^ k := by
    rw [hsize] at hp
    simpa [Mpmc.new] using hp
  have hindex : (Mpmc.new (2 ^ k) d).index p = p := by
    show p &&& (2 ^ k - 1) = p
    rw [Nat.and_two_pow_sub_one_eq_mod, Nat.mod_eq_of_lt hp']
  show Cell.sequence ((Mpmc.new (2 ^ k) d).buffer ((Mpmc.new (2 ^ k) d).index p)) = p
  rw [hindex]
  show Cell.sequence (Table.lookup _ _ p) = p
  rw [Table.lookup_eq_getD]
  simp [Mpmc.new, hp']

theorem eq_of_diff_eq_zero {M s p : Nat} (hs : M = 0 ∨ s < M) (hp : M = 0 ∨ p < M)
    (h : diff M s p = 0) : s = p := by
  have hdvd := Int.dvd_of_bmod_eq_zero h
  rcases Nat.eq_zero_or_pos M with rfl | hM
  · have := Int.zero_dvd.1 hdvd
    omega
  · have := Int.eq_zero_of_abs_lt_dvd hdvd (by rw [abs_lt]; omega)
    omega

theorem mod_eq_of_fits {M p : Nat} (h : M = 0 ∨ p < M) : p % M = p := by
  rcases h with rfl | h
  · exact Nat.mod_zero p
  · exact Nat.mod_eq_of_lt h

theorem enqueueStep_inv [DecidableEq A] (h : Inv q caller) {M : Nat} (hM : Fits M q) {a : A} {v : T}
    {pc : EnqueuePC} (ha : caller a = .enqueue v pc) (spurious : Bool) :
    Inv (enqueueStep M v spurious q pc).1
      (Function.update caller a (Caller.afterEnqueue v (enqueueStep M v spurious q pc).2)) := by
  have hok := h.ok a
  rw [ha] at hok
  cases pc with
  | load => exact h.move (by rw [ha]; rfl) (le_refl q.enqueuePos)
  | sequence pos =>
      have hpos : pos ≤ q.enqueuePos := hok
      have hnone : none = (caller a).claimed := by rw [ha]; rfl
      have hseq : diff M (q.cell pos).sequence pos = 0 → (q.cell pos).sequence = pos := by
        have hlt := h.sequence_lt pos
        have h2 := h.two_le_size
        exact eq_of_diff_eq_zero (hM.imp_right fun _ => by omega) (hM.imp_right fun _ => by omega)
      simp only [enqueueStep]
      split
      · exact h.move hnone ⟨hpos, fun _ => hseq ‹_›⟩
      · split
        · exact h.move hnone trivial
        · exact h.move hnone trivial
  | claim pos =>
      simp only [enqueueStep]
      split
      · rename_i hc
        obtain ⟨rfl, -⟩ := hc
        have h2 := h.two_le_size
        rw [mod_eq_of_fits (hM.imp_right fun _ => by omega)]
        exact h.claim_enqueue ha
      · exact h.move (by rw [ha]; rfl) (le_refl q.enqueuePos)
  | write pos => exact h.write_enqueue ha
  | publish pos =>
      have h2 := h.two_le_size
      have hpos := hok.2.1
      simp only [enqueueStep]
      rw [mod_eq_of_fits (hM.imp_right fun _ => by omega)]
      exact h.publish_enqueue ha

theorem dequeueStep_inv [DecidableEq A] (h : Inv q caller) {M : Nat} (hM : Fits M q) {a : A}
    {pc : DequeuePC T} (ha : caller a = .dequeue pc) (spurious : Bool) :
    Inv (dequeueStep M spurious q pc).1
      (Function.update caller a (Caller.afterDequeue (dequeueStep M spurious q pc).2)) := by
  have hok := h.ok a
  rw [ha] at hok
  have h2 := h.two_le_size
  have hle := h.deq_le
  cases pc with
  | load => exact h.move (by rw [ha]; rfl) (le_refl q.dequeuePos)
  | sequence pos =>
      have hpos : pos ≤ q.dequeuePos := hok
      have hnone : none = (caller a).claimed := by rw [ha]; rfl
      have hmod : (pos + 1) % M = pos + 1 := mod_eq_of_fits (hM.imp_right fun _ => by omega)
      have hseq : diff M (q.cell pos).sequence (pos + 1) = 0 → (q.cell pos).sequence = pos + 1 := by
        have hlt := h.sequence_lt pos
        exact eq_of_diff_eq_zero (hM.imp_right fun _ => by omega) (hM.imp_right fun _ => by omega)
      simp only [dequeueStep, hmod]
      split
      · exact h.move hnone ⟨hpos, fun _ => hseq ‹_›⟩
      · split
        · exact h.move hnone trivial
        · exact h.move hnone trivial
  | claim pos =>
      simp only [dequeueStep]
      split
      · rename_i hc
        obtain ⟨rfl, -⟩ := hc
        rw [mod_eq_of_fits (hM.imp_right fun _ => by omega)]
        exact h.claim_dequeue ha
      · exact h.move (by rw [ha]; rfl) (le_refl q.dequeuePos)
  | read pos =>
      obtain ⟨h1, h2, h3, h4⟩ := hok
      exact h.move (by rw [ha]; rfl) ⟨h1, h2, h3, h4, rfl⟩
  | publish pos x =>
      have hpos := hok.1
      simp only [dequeueStep]
      rw [mod_eq_of_fits (hM.imp_right fun _ => by simp only [size] at *; omega)]
      exact h.publish_dequeue ha

theorem rest [DecidableEq A] (h : Inv q caller) {a : A} {l : Caller T}
    (ha : (caller a).atRest = true) (hl : l.atRest = true) : Inv q (Function.update caller a l) := by
  refine h.move ?_ (callerOk_of_atRest hl)
  rw [Caller.claimed_of_atRest ha, Caller.claimed_of_atRest hl]

end Inv

/-- How a step of a larger system may move one caller `c` of the queue `q`: it
stays at rest, or it makes its next access and may go on to a new call. -/
inductive Moves (M : Nat) (q : Mpmc T) (c : Caller T) : Mpmc T → Caller T → Prop where
  | rest {c'} : c.atRest = true → c'.atRest = true → Moves M q c q c'
  | enqueue {v pc c'} (spurious : Bool) : c = .enqueue v pc →
      (c' = Caller.afterEnqueue v (enqueueStep M v spurious q pc).2 ∨
        (Caller.afterEnqueue v (enqueueStep M v spurious q pc).2 = .idle ∧ c'.atRest = true)) →
      Moves M q c (enqueueStep M v spurious q pc).1 c'
  | dequeue {pc c'} (spurious : Bool) : c = .dequeue pc →
      (c' = Caller.afterDequeue (dequeueStep M spurious q pc).2 ∨
        (Caller.afterDequeue (dequeueStep M spurious q pc).2 = .idle ∧ c'.atRest = true)) →
      Moves M q c (dequeueStep M spurious q pc).1 c'

theorem Inv.moves [DecidableEq A] {q q' : Mpmc T} {caller : A → Caller T} (h : Inv q caller) {M : Nat}
    (hM : Fits M q) {a : A} {c' : Caller T} (hmove : Moves M q (caller a) q' c') :
    Inv q' (Function.update caller a c') := by
  cases hmove with
  | rest ha hc => exact h.rest ha hc
  | enqueue spurious ha hc =>
      have h' := h.enqueueStep_inv hM ha spurious
      rcases hc with rfl | ⟨hidle, hrest⟩
      · exact h'
      · rw [hidle] at h'
        simpa using h'.rest (a := a) (l := c') (by simp [Caller.atRest]) hrest
  | dequeue spurious ha hc =>
      have h' := h.dequeueStep_inv hM ha spurious
      rcases hc with rfl | ⟨hidle, hrest⟩
      · exact h'
      · rw [hidle] at h'
        simpa using h'.rest (a := a) (l := c') (by simp [Caller.atRest]) hrest

theorem enqueueStep_size (M : Nat) (q : Mpmc T) (v : T) (b : Bool) (pc : EnqueuePC) :
    (enqueueStep M v b q pc).1.size = q.size := by
  cases pc with
  | load => rfl
  | sequence pos =>
      simp only [enqueueStep]
      split
      · rfl
      · split <;> rfl
  | claim pos =>
      simp only [enqueueStep]
      split <;> rfl
  | write pos => rfl
  | publish pos => rfl

theorem dequeueStep_size (M : Nat) (q : Mpmc T) (b : Bool) (pc : DequeuePC T) :
    (dequeueStep M b q pc).1.size = q.size := by
  cases pc with
  | load => rfl
  | sequence pos =>
      simp only [dequeueStep]
      split
      · rfl
      · split <;> rfl
  | claim pos =>
      simp only [dequeueStep]
      split <;> rfl
  | read pos => rfl
  | publish pos x => rfl

theorem Moves.size {M : Nat} {q q' : Mpmc T} {c c' : Caller T} (h : Moves M q c q' c') :
    q'.size = q.size := by
  cases h with
  | rest _ _ => rfl
  | enqueue spurious _ _ => exact enqueueStep_size M q _ spurious _
  | dequeue spurious _ _ => exact dequeueStep_size M q spurious _

end Mpmc

end TaskDispatcher.Container
