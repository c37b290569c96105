import TaskDispatcher.Container.DequeReclaim
import Mathlib.Tactic.Tauto

/-!
# The destructors of `spmc::Deque` and `Reclaimer`

They run when the last owner of the deque lets it go, between the calls.  A delete of a
buffer that is not live and a read of its `next` are faults.
-/

namespace TaskDispatcher.Container.Spmc

open TaskDispatcher.Library

variable {T : Type}

/-- `delete a` -/
def Mem.delete (m : Mem T) (a : Nat) : Option (Mem T) :=
  if (m.heap a).live then
    some { m with heap := m.heap.set a { m.heap a with live := false } }
  else none

/-- `unlinked = unlinked->next_buffer()` -/
def Mem.unlinkNext (m : Mem T) (u : Nat) : Option (Mem T) :=
  if (m.heap u).live then some { m with unlinked := (m.heap u).next } else none

/-- The loop of `~Deque`, of which each round takes one of `fuel`. -/
def Mem.deleteUnlinked (b : Nat) : Nat → Mem T → Option (Mem T)
  | 0, _ => none
  | fuel + 1, m =>
      match m.unlinked with
      | none => some m
      | some u =>
          if u = b then some m
          else (m.unlinkNext u).bind fun m' => (m'.delete u).bind (deleteUnlinked b fuel)

/-- `~Deque()` -/
def Mem.destroy (fuel : Nat) (m : Mem T) : Option (Mem T) :=
  (m.deleteUnlinked m.buffer fuel).bind fun m' => m'.delete m.buffer

/-- `~Reclaimer()`, on the records that exist. -/
def deleteRecords : List Nat → (Nat → Bool) → Option (Nat → Bool)
  | [], live => some live
  | i :: head, live =>
      if live i then deleteRecords head (Function.update live i false) else none

/-- The record of a stealer exists from the start of `register_thread` on. -/
def State.records (s : State T) (i : Nat) : Bool :=
  match s.stealer i with
  | .unregistered => false
  | _ => true

/-- The destructors end without a fault and leave nothing but the records of registrations
in progress. -/
structure Destroyed (s : State T) : Prop where
  buffers : ∃ m', s.mem.destroy (s.mem.buffer + 1) = some m' ∧ ∀ a, (m'.heap a).live = false
  records : ∃ live, deleteRecords s.mem.idList s.records = some live ∧
    ∀ i, live i = true ↔ s.records i = true ∧ (s.stealer i).registered = false

/-! ## The buffers -/

variable {m m' : Mem T}

theorem delete_of_live {a : Nat} (h : (m.heap a).live = true) : ∃ m', m.delete a = some m' ∧
    m'.unlinked = m.unlinked ∧ (m'.heap a).live = false ∧
    ∀ c, c ≠ a → (m'.heap c).live = (m.heap c).live := by
  refine ⟨_, if_pos h, rfl, ?_, ?_⟩
  · show (m.heap.set a _ a).live = false
    rw [Table.get_set_self]
  · intro c hc
    show (m.heap.set a _ c).live = _
    rw [Table.get_set_ne _ _ hc]

/-- The loop leaves the current buffer, and no other one. -/
theorem deleteUnlinked_spec (fuel : Nat) (h : HeapInv m) (hn : m.nextAddress = m.buffer + 1)
    (hfuel : m.buffer - m.oldest < fuel) :
    ∃ m', m.deleteUnlinked m.buffer fuel = some m' ∧
      ∀ a, (m'.heap a).live = true ↔ a = m.buffer := by
  induction fuel generalizing m with
  | zero => exact absurd hfuel (Nat.not_lt_zero _)
  | succ fuel ih =>
      have hlive := h.live
      have hle := h.oldest_le
      unfold Mem.deleteUnlinked
      cases hu : m.unlinked with
      | none =>
          refine ⟨m, rfl, fun a => ?_⟩
          have hold : m.oldest = m.buffer := by simp [Mem.oldest, hu]
          rw [hlive, hold]
          omega
      | some u =>
          have hold : m.oldest = u := by simp [Mem.oldest, hu]
          by_cases hub : u = m.buffer
          · refine ⟨m, if_pos hub, fun a => ?_⟩
            rw [hlive, hold]
            omega
          · have hlt : u < m.buffer := by omega
            have hu_live : (m.heap u).live = true := (hlive u).2 (by omega)
            obtain ⟨hnext, hchain⟩ := h.delete hu hlt (by omega)
            obtain ⟨m', hm', hleft⟩ := ih hnext hn (by
              show m.buffer - ((m.heap u).next).getD m.buffer < fuel
              rw [hchain, Option.getD_some]
              omega)
            refine ⟨m', ?_, hleft⟩
            show (if u = m.buffer then _ else _) = _
            rw [if_neg hub, Mem.unlinkNext, if_pos hu_live, Option.bind_some, Mem.delete,
              if_pos (show (m.heap u).live = true from hu_live), Option.bind_some]
            exact hm'

/-- `~Deque` ends without a fault and leaves no buffer. -/
theorem destroy_spec (h : HeapInv m) (hn : m.nextAddress = m.buffer + 1) :
    ∃ m', m.destroy (m.buffer + 1) = some m' ∧ ∀ a, (m'.heap a).live = false := by
  obtain ⟨m₁, hloop, hleft⟩ := deleteUnlinked_spec (m.buffer + 1) h hn (by omega)
  obtain ⟨m', hdelete, -, hgone, hothers⟩ := delete_of_live ((hleft m.buffer).2 rfl)
  refine ⟨m', ?_, fun a => ?_⟩
  · rw [Mem.destroy, hloop, Option.bind_some, hdelete]
  · by_cases ha : a = m.buffer
    · rw [ha, hgone]
    · rw [hothers a ha, Bool.eq_false_iff]
      exact fun hlive => ha ((hleft a).1 hlive)

/-! ## The records -/

theorem deleteRecords_spec {l : List Nat} (hnodup : l.Nodup) (live : Nat → Bool)
    (hlive : ∀ i ∈ l, live i = true) :
    ∃ live', deleteRecords l live = some live' ∧ ∀ i, live' i = true ↔ live i = true ∧ i ∉ l := by
  induction l generalizing live with
  | nil => exact ⟨live, rfl, fun i => ⟨fun h => ⟨h, List.not_mem_nil⟩, fun h => h.1⟩⟩
  | cons i head ih =>
      obtain ⟨hnot, hnodup'⟩ := List.nodup_cons.1 hnodup
      obtain ⟨live', hrest, hleft⟩ := ih hnodup' (Function.update live i false) (by
        intro j hj
        have hne : j ≠ i := fun heq => hnot (heq ▸ hj)
        rw [Function.update_of_ne hne]
        exact hlive j (List.mem_cons_of_mem i hj))
      refine ⟨live', ?_, fun j => ?_⟩
      · show (if live i then _ else _) = _
        rw [if_pos (hlive i List.mem_cons_self)]
        exact hrest
      · rw [hleft j, List.mem_cons, not_or]
        by_cases hj : j = i
        · rw [hj, Function.update_self]
          simp
        · rw [Function.update_of_ne hj]
          tauto

/-- The list of stealers holds each registered stealer once. -/
structure RecordInv (s : State T) : Prop where
  nodup : s.mem.idList.Nodup
  mem : ∀ i, i ∈ s.mem.idList ↔ (s.stealer i).registered = true

/-- An access of the owner leaves the list alone. -/
theorem idList_ownerStep [Inhabited T] {p p' : OwnerPC T} (hx : ownerStep m p = some (m', p')) :
    m'.idList = m.idList := by
  cases p with
  | reclaimIdle minId head k =>
      cases head with
      | nil =>
          cases hx
          rfl
      | cons i head =>
          cases hx
          rfl
  | reclaimWalk minId k =>
      simp only [ownerStep] at hx
      split at hx
      · cases hx
      · split at hx <;> (cases hx; rfl)
  | popTop b a =>
      simp only [ownerStep] at hx
      split at hx
      · cases hx
        rfl
      · split at hx <;> (cases hx; rfl)
  | idle => cases hx
  | pushSize x b t a =>
      simp only [ownerStep] at hx
      split at hx <;> (cases hx; rfl)
  | popClaim b t a =>
      simp only [ownerStep] at hx
      split at hx <;> (cases hx; rfl)
  | popShrink b t a =>
      simp only [ownerStep] at hx
      split at hx <;> (cases hx; rfl)
  | _ =>
      cases hx
      rfl

theorem RecordInv.stealStep {s : State T} (h : RecordInv s) (i : Nat) (b : Bool) :
    RecordInv { s with
      mem := (stealStep s.mem i b (s.stealer i)).1
      stealer := s.stealer.set i (stealStep s.mem i b (s.stealer i)).2 } := by
  have hsame : ∀ (m' : Mem T) (q : StealPC T), m'.idList = s.mem.idList →
      q.registered = (s.stealer i).registered →
      RecordInv { s with mem := m', stealer := s.stealer.set i q } := by
    intro m' q hlist hq
    refine ⟨by rw [hlist]; exact h.nodup, fun j => ?_⟩
    rw [hlist, h.mem j]
    show _ ↔ (s.stealer.set i q j).registered = true
    rw [Table.get_set]
    split
    · rename_i hj
      rw [hq, hj]
    · rfl
  cases hp : s.stealer i with
  | link next =>
      simp only [Spmc.stealStep]
      split
      · rename_i heq
        have hnot : i ∉ s.mem.idList := by
          intro hmem
          have := (h.mem i).1 hmem
          rw [hp] at this
          cases this
        refine ⟨?_, fun j => ?_⟩
        · show (i :: next).Nodup
          rw [← heq.1]
          exact List.nodup_cons.2 ⟨hnot, h.nodup⟩
        · show j ∈ i :: next ↔ (s.stealer.set i .idle j).registered = true
          rw [← heq.1, List.mem_cons, h.mem j, Table.get_set]
          by_cases hj : j = i
          · rw [if_pos hj]
            exact ⟨fun _ => rfl, fun _ => Or.inl hj⟩
          · rw [if_neg hj]
            exact ⟨fun hor => hor.resolve_left hj, Or.inr⟩
      · exact hsame s.mem .relink rfl (by rw [hp]; rfl)
  | bottom t =>
      simp only [Spmc.stealStep]
      split
      · exact hsame s.mem (.buffer t) rfl (by rw [hp]; rfl)
      · exact hsame s.mem .setIdle rfl (by rw [hp]; rfl)
  | claim t a =>
      simp only [Spmc.stealStep]
      split
      · exact hsame _ _ rfl (by rw [hp]; rfl)
      · exact hsame s.mem .setIdle rfl (by rw [hp]; rfl)
  | _ => exact hsame _ _ rfl (by rw [hp]; rfl)

variable {s s' : State T} {l : Label T}

theorem RecordInv.step [Inhabited T] (h : RecordInv s) (hs : step s l = some s') : RecordInv s' := by
  rcases step_cases hs with ⟨x, -, -, rfl⟩ | ⟨-, -, rfl⟩ | ⟨m', p', -, hx, rfl⟩ | ⟨i, b, -, rfl⟩
  · exact ⟨h.nodup, h.mem⟩
  · exact ⟨h.nodup, h.mem⟩
  · have hlist := idList_ownerStep hx
    exact ⟨by rw [hlist]; exact h.nodup, by rw [hlist]; exact h.mem⟩
  · exact h.stealStep i b

theorem RecordInv.start [Inhabited T] (log : Nat) : RecordInv (start log : State T) where
  nodup := List.nodup_nil
  mem i := ⟨fun h => absurd h List.not_mem_nil, fun h => by cases h⟩

/-! ## Whole runs -/

theorem destroyed_of_inv (h : ReclaimInv s) (hrecords : RecordInv s) (hidle : s.owner = .idle) :
    Destroyed s := by
  constructor
  · apply destroy_spec h.heap
    have hn := h.owner.next_address
    rw [hidle] at hn
    exact hn
  · obtain ⟨live, hdeleted, hleft⟩ := deleteRecords_spec hrecords.nodup s.records (by
      intro i hi
      have hregistered := (hrecords.mem i).1 hi
      unfold State.records
      cases hp : s.stealer i with
      | unregistered =>
          rw [hp] at hregistered
          cases hregistered
      | _ => rfl)
    refine ⟨live, hdeleted, fun i => ?_⟩
    rw [hleft i, hrecords.mem i, Bool.not_eq_true]

/-- Whenever the owner is between its calls, destroying the deque deletes every buffer and
every record exactly once. -/
theorem destroyed_of_run [Inhabited T] {log : Nat} {σ : Nat → State T} {ℓ : Nat → Label T} {n : Nat}
    (h : Run step (start log) σ ℓ n) (hidle : (σ n).owner = .idle) : Destroyed (σ n) := by
  have hinv := h.invariant (I := fun s => ReclaimInv s ∧ RecordInv s) ⟨.start log, .start log⟩
    (fun s l s' hI hs => ⟨hI.1.step hs, hI.2.step hs⟩) n (le_refl n)
  exact destroyed_of_inv hinv.1 hinv.2 hidle

/-- A buffer is unlinked and another one current. -/
theorem destroyed_grow : Destroyed (trace step (start 0) growLabels 22) := by
  have hrun : follows step (fun _ _ => true) (start 0) growLabels = true := by decide +kernel
  exact destroyed_of_run (Run.of_follows .owner hrun) (by decide +kernel)

end TaskDispatcher.Container.Spmc
