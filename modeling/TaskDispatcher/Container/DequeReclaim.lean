import TaskDispatcher.Container.DequeSystem
import Mathlib.Logic.Relation

/-!
# When the deque deletes its buffers

The addresses of the buffers grow with their ids, and the live ones are those
from the first unlinked buffer to the newest.  `reclaim_buffers` spares what a
registered stealer may hold while it is not idle.
-/

namespace TaskDispatcher.Container.Spmc

open TaskDispatcher.Library

variable {T : Type}

/-! ## What is claimed -/

/-- The buffers of which the next access of the owner reads or writes a field or a cell. -/
def OwnerPC.derefs (m : Mem T) : OwnerPC T → List Nat
  | .pushSize _ _ _ a => [a]
  | .pushPut _ _ a => [a]
  | .popRead _ _ a _ => [a]
  | .popTake _ _ a _ => [a]
  | .popShrink _ _ a => [a]
  | .reclaimId a _ => [a]
  | .reclaimWalk _ _ => m.unlinked.toList
  | _ => []

def StealPC.derefs : StealPC T → List Nat
  | .read _ a _ => [a]
  | .readId a => [a]
  | _ => []

def derefs (s : State T) : Label T → List Nat
  | .owner => s.owner.derefs s.mem
  | .stealer i _ => (s.stealer i).derefs
  | _ => []

/-- The buffer that a step deletes. -/
def deletes (s : State T) : Label T → Option Nat
  | .owner =>
      match s.owner with
      | .reclaimWalk minId _ => s.mem.unlinked.filter fun u => (s.mem.heap u).buffer.id < minId
      | _ => none
  | _ => none

/-- The next-chain leads from one buffer to another. -/
def Reaches (heap : Table (Allocated T)) : Nat → Nat → Prop :=
  Relation.ReflTransGen fun a b => (heap a).next = some b

/-- The first buffer that is not deleted. -/
def Mem.oldest (m : Mem T) : Nat := m.unlinked.getD m.buffer

/-- A step uses live buffers only, deletes live buffers only and never the current
one, and the walk has not run past the current buffer. -/
structure Sound (s : State T) (l : Label T) : Prop where
  uses : ∀ a ∈ derefs s l, (s.mem.heap a).live = true
  deletes : ∀ a, deletes s l = some a → (s.mem.heap a).live = true ∧ a ≠ s.mem.buffer
  walk : ∀ minId k, s.owner = .reclaimWalk minId k →
    ∃ u, s.mem.unlinked = some u ∧ Reaches s.mem.heap u s.mem.buffer

/-- The live buffers are those on the chain from the oldest to the current one. -/
def LiveChain (s : State T) : Prop :=
  ∀ a, (s.mem.heap a).live = true ↔ Reaches s.mem.heap s.mem.oldest a ∧
    Reaches s.mem.heap a s.mem.buffer

/-- The step deletes no buffer of which a stealer, idle again, is about to read the id. -/
def Unread (s : State T) (l : Label T) : Prop :=
  ∀ a, deletes s l = some a → ∀ i, s.stealer i ≠ .readId a

/-! ## The invariant -/

/-- The buffer that a stealer may still read a cell of. -/
def StealPC.held : StealPC T → Option Nat
  | .claim _ a => some a
  | .read _ a _ => some a
  | _ => none

/-- A stealer between the stores to its `was_idle`. -/
def StealPC.busy : StealPC T → Bool
  | .top => true
  | .bottom _ => true
  | .buffer _ => true
  | .claim _ _ => true
  | .read _ _ _ => true
  | .setIdle => true
  | _ => false

def StealPC.registered : StealPC T → Bool
  | .unregistered => false
  | .link _ => false
  | .relink => false
  | _ => true

def ReclaimK.currents : ReclaimK T → List Nat
  | .push _ _ a => [a]
  | .pop => []

/-- The addresses by which the owner knows the current buffer. -/
def OwnerPC.currents : OwnerPC T → List Nat
  | .pushSize _ _ _ a => [a]
  | .pushPut _ _ a => [a]
  | .popStore _ a => [a]
  | .popTop _ a => [a]
  | .popClaim _ _ a => [a]
  | .popRead _ _ a _ => [a]
  | .popTake _ _ a _ => [a]
  | .popShrink _ _ a => [a]
  | .reclaimId a k => a :: k.currents
  | .reclaimList _ k => k.currents
  | .reclaimIdle _ _ k => k.currents
  | .reclaimUsed _ _ _ k => k.currents
  | .reclaimWalk _ k => k.currents
  | _ => []

/-- A buffer that the owner has made and not yet stored. -/
def OwnerPC.fresh : OwnerPC T → Option Nat
  | .pushStore _ _ a => some a
  | .popBufferStore a => some a
  | _ => none

/-- The owner has seen that `unlinked` is not null. -/
def OwnerPC.reclaims : OwnerPC T → Bool
  | .reclaimId _ _ => true
  | .reclaimList _ _ => true
  | .reclaimIdle _ _ _ => true
  | .reclaimUsed _ _ _ _ => true
  | .reclaimWalk _ _ => true
  | _ => false

/-- The least id found so far, and the stealers that are still to be asked. -/
def OwnerPC.scanned : OwnerPC T → Option (Nat × List Nat)
  | .reclaimIdle minId head _ => some (minId, head)
  | .reclaimUsed minId i head _ => some (minId, i :: head)
  | .reclaimWalk minId _ => some (minId, [])
  | _ => none

/-- What the heap looks like: buffers with consecutive ids, linked in order, and live from
the oldest one on. -/
structure HeapInv (m : Mem T) : Prop where
  ids : ∀ a, a < m.nextAddress → (m.heap a).buffer.id = a
  next : ∀ a, (m.heap a).next = if a + 1 < m.nextAddress then some (a + 1) else none
  live : ∀ a, (m.heap a).live = true ↔ m.oldest ≤ a ∧ a < m.nextAddress
  oldest_le : m.oldest ≤ m.buffer

structure OwnerInv (m : Mem T) (p : OwnerPC T) : Prop where
  current : ∀ a ∈ p.currents, a = m.buffer
  fresh : ∀ a, p.fresh = some a → a = m.buffer + 1 ∧ m.unlinked.isSome = true
  next_address : m.nextAddress = m.buffer + 1 + p.fresh.toList.length
  unlinked : p.reclaims = true → m.unlinked.isSome = true

structure StealerInv (m : Mem T) (i : Nat) (p : StealPC T) : Prop where
  registered : p.registered = true → i ∈ m.idList
  busy : p.busy = true → (m.tls i).wasIdle = false
  held : ∀ a, p.held = some a → m.oldest ≤ a ∧ a ≤ m.buffer ∧ (m.tls i).idLastUsed ≤ a
  used : (m.tls i).idLastUsed ≤ m.buffer
  reread : ∀ a, p = .readId a → a ≤ m.buffer
  setUsed : ∀ id, p = .setUsed id → id ≤ m.buffer

structure ReclaimInv (s : State T) : Prop where
  heap : HeapInv s.mem
  owner : OwnerInv s.mem s.owner
  stealer : ∀ i, StealerInv s.mem i (s.stealer i)
  listed : ∀ minId k, s.owner = .reclaimList minId k → minId ≤ s.mem.buffer
  /-- what the scan has passed holds no buffer that it would delete -/
  scanned : ∀ minId head, s.owner.scanned = some (minId, head) → minId ≤ s.mem.buffer ∧
    ∀ i, i ∉ head → ∀ a, (s.stealer i).held = some a → minId ≤ a

/-- With what holds of the runs that delete no buffer under a stealer. -/
structure SafeInv (s : State T) : Prop extends ReclaimInv s where
  unread : ∀ i a, s.stealer i = .readId a → s.mem.oldest ≤ a

/-! ## The heap -/

namespace HeapInv

variable {m m' : Mem T}

theorem congr (h : HeapInv m) (hids : ∀ a, (m'.heap a).buffer.id = (m.heap a).buffer.id)
    (hnext : ∀ a, (m'.heap a).next = (m.heap a).next) (hlive : ∀ a, (m'.heap a).live = (m.heap a).live)
    (hb : m'.buffer = m.buffer) (hu : m'.unlinked = m.unlinked) (hn : m'.nextAddress = m.nextAddress) :
    HeapInv m' where
  ids a ha := by
    rw [hids, h.ids a (hn ▸ ha)]
  next a := by
    rw [hnext, hn, h.next a]
  live a := by
    rw [hlive, h.live a, hn, Mem.oldest, Mem.oldest, hb, hu]
  oldest_le := by
    rw [Mem.oldest, hb, hu]
    exact h.oldest_le

/-- The current buffer is resized. -/
theorem resize [Inhabited T] (h : HeapInv m) (hn : m.nextAddress = m.buffer + 1) (b t delta : Int) :
    HeapInv (m.resize m.buffer b t delta) := by
  have hle := h.oldest_le
  have hold : (m.resize m.buffer b t delta).oldest = m.oldest := rfl
  have hheap : ∀ a, (m.resize m.buffer b t delta).heap a =
      if a = m.buffer then { m.heap a with next := some m.nextAddress }
      else if a = m.nextAddress then
        { buffer := (m.heap m.buffer).buffer.resize b t delta, next := none, live := true }
      else m.heap a := by
    intro a
    show ((m.heap.set m.nextAddress _).set m.buffer _) a = _
    rw [Table.get_set]
    split
    · rename_i ha
      rw [ha, Table.get_set_ne _ _ (by omega)]
    · rw [Table.get_set]
  have hnext : (m.resize m.buffer b t delta).nextAddress = m.nextAddress + 1 := rfl
  constructor
  · intro a ha
    rw [hheap]
    split
    · exact h.ids a (by omega)
    · split
      · rename_i ha'
        rw [Buffer.id_resize, h.ids _ (by omega), ha', hn]
      · exact h.ids a (by omega)
  · intro a
    rw [hheap, hnext]
    split
    · rename_i ha
      rw [if_pos (by omega), ha, hn]
    · split
      · rw [if_neg (by omega)]
      · rw [h.next a]
        split
        · rw [if_pos (by omega)]
        · rw [if_neg (by omega)]
  · intro a
    rw [hheap, hold, hnext]
    split
    · rename_i ha'
      rw [h.live a]
      omega
    · split
      · simp only [true_iff]
        omega
      · rw [h.live a]
        omega
  · exact hle

/-- The new buffer becomes the current one. -/
theorem store (h : HeapInv m) (hu : m.unlinked.isSome = true) :
    HeapInv { m with buffer := m.buffer + 1 } := by
  obtain ⟨u, hu⟩ := Option.isSome_iff_exists.1 hu
  have hold : ({ m with buffer := m.buffer + 1 } : Mem T).oldest = m.oldest := by
    simp [Mem.oldest, hu]
  refine ⟨h.ids, h.next, fun a => ?_, ?_⟩
  · rw [hold]
    exact h.live a
  · rw [hold]
    exact Nat.le_succ_of_le h.oldest_le

/-- The oldest buffer is deleted. -/
theorem delete (h : HeapInv m) {u : Nat} (hu : m.unlinked = some u) (hlt : u < m.buffer)
    (hn : m.buffer < m.nextAddress) :
    HeapInv { m with
      unlinked := (m.heap u).next
      heap := m.heap.set u { m.heap u with live := false } } ∧
    (m.heap u).next = some (u + 1) := by
  have hnext : (m.heap u).next = some (u + 1) := by
    rw [h.next u, if_pos (by omega)]
  have hold : m.oldest = u := by simp [Mem.oldest, hu]
  have hheap : ∀ a, (m.heap.set u { m.heap u with live := false }) a =
      if a = u then { m.heap a with live := false } else m.heap a := by
    intro a
    rw [Table.get_set]
    split
    · rename_i ha
      rw [ha]
    · rfl
  refine ⟨⟨fun a ha => ?_, fun a => ?_, fun a => ?_, ?_⟩, hnext⟩
  · show ((m.heap.set u _) a).buffer.id = a
    rw [hheap]
    split <;> exact h.ids a ha
  · show ((m.heap.set u _) a).next = _
    rw [hheap]
    split <;> exact h.next a
  · show ((m.heap.set u _) a).live = true ↔ ((m.heap u).next).getD m.buffer ≤ a ∧ a < m.nextAddress
    rw [hheap, hnext, Option.getD_some]
    have hlive := h.live a
    rw [hold] at hlive
    split
    · simp only [Bool.false_eq_true, false_iff]
      omega
    · rw [hlive]
      omega
  · show ((m.heap u).next).getD m.buffer ≤ m.buffer
    rw [hnext, Option.getD_some]
    omega

/-- The chain leads from each buffer to the later ones. -/
theorem reaches_iff (h : HeapInv m) {a b : Nat} (hb : b < m.nextAddress) :
    Reaches m.heap a b ↔ a ≤ b := by
  constructor
  · intro hr
    clear hb
    induction hr with
    | refl => exact Nat.le_refl a
    | @tail x y _ hnext ih =>
        rw [h.next x] at hnext
        split at hnext
        · have := Option.some.inj hnext
          omega
        · cases hnext
  · intro hle
    induction b, hle using Nat.le_induction with
    | base => exact .refl
    | succ b hle ih =>
        refine (ih (by omega)).tail ?_
        rw [h.next b, if_pos hb]

end HeapInv

/-! ## The owner -/

theorem StealerInv.congr {m m' : Mem T} {i : Nat} {p : StealPC T} (h : StealerInv m i p)
    (htls : m'.tls i = m.tls i) (hlist : ∀ j, j ∈ m.idList → j ∈ m'.idList)
    (hb : m.buffer ≤ m'.buffer)
    (hheld : ∀ a, p.held = some a → m.oldest ≤ a → m'.oldest ≤ a) : StealerInv m' i p where
  registered hp := hlist i (h.registered hp)
  busy hp := by
    rw [htls]
    exact h.busy hp
  held a ha := by
    obtain ⟨h1, h2, h3⟩ := h.held a ha
    rw [htls]
    exact ⟨hheld a ha h1, by omega, h3⟩
  used := by
    rw [htls]
    exact Nat.le_trans h.used hb
  reread a ha := Nat.le_trans (h.reread a ha) hb
  setUsed id hp := Nat.le_trans (h.setUsed id hp) hb

section Owner

variable {m m' : Mem T} {p p' : OwnerPC T} {s : State T}

/-- An access that leaves the addresses alone. -/
theorem OwnerInv.quiet (h : OwnerInv m p) (hb : m'.buffer = m.buffer)
    (hn : m'.nextAddress = m.nextAddress) (hfresh : p.fresh = none) (hfresh' : p'.fresh = none)
    (hcur : ∀ a ∈ p'.currents, a = m.buffer)
    (hrec : p'.reclaims = true → m'.unlinked.isSome = true) : OwnerInv m' p' where
  current a ha := by
    rw [hb]
    exact hcur a ha
  fresh a ha := by
    rw [hfresh'] at ha
    cases ha
  next_address := by
    have := h.next_address
    rw [hfresh] at this
    rw [hn, hb, hfresh', this]
  unlinked := hrec

theorem ownerInv_testUnlinked {a : Nat} {k : ReclaimK T} (ha : a = m.buffer)
    (hk : ∀ c ∈ k.currents, c = m.buffer) (hn : m.nextAddress = m.buffer + 1) :
    OwnerInv m (testUnlinked m a k) := by
  unfold testUnlinked
  split
  · rename_i hu
    refine ⟨?_, by simp [OwnerPC.fresh], hn, fun _ => hu⟩
    intro c hc
    rcases List.mem_cons.1 hc with rfl | hc
    · exact ha
    · exact hk c hc
  · cases k with
    | push x b c =>
        exact ⟨hk, by simp [afterReclaim, OwnerPC.fresh], hn, by simp [afterReclaim, OwnerPC.reclaims]⟩
    | pop =>
        exact ⟨hk, by simp [afterReclaim, OwnerPC.fresh], hn, by simp [afterReclaim, OwnerPC.reclaims]⟩

theorem scanned_testUnlinked (a : Nat) (k : ReclaimK T) : (testUnlinked m a k).scanned = none := by
  unfold testUnlinked
  split
  · rfl
  · cases k <;> rfl

theorem testUnlinked_ne_list (a minId : Nat) (k k' : ReclaimK T) :
    testUnlinked m a k ≠ .reclaimList minId k' := by
  unfold testUnlinked
  split
  · simp
  · cases k <;> simp [afterReclaim]

/-- An access outside the scan of the stealers. -/
theorem ReclaimInv.ofOwner (h : ReclaimInv s) (hheap : HeapInv m') (howner : OwnerInv m' p')
    (htls : m'.tls = s.mem.tls) (hlist : m'.idList = s.mem.idList) (hb : s.mem.buffer ≤ m'.buffer)
    (hold : m'.oldest = s.mem.oldest) (hscan : p'.scanned = none)
    (hne : ∀ minId k, p' ≠ .reclaimList minId k) :
    ReclaimInv { s with mem := m', owner := p' } where
  heap := hheap
  owner := howner
  stealer i := (h.stealer i).congr (by rw [htls]) (fun j hj => hlist ▸ hj) hb
    fun a _ ha => hold ▸ ha
  listed minId k hp := absurd hp (hne minId k)
  scanned minId head hp := by
    rw [show p'.scanned = none from hscan] at hp
    cases hp

/-- What `reclaim_buffers` depends on. -/
def Mem.shape (m : Mem T) : (Nat → Nat × Option Nat × Bool) × Nat × Option Nat × Nat × Table BufferTls × List Nat :=
  (fun a => ((m.heap a).buffer.id, (m.heap a).next, (m.heap a).live), m.buffer, m.unlinked,
    m.nextAddress, m.tls, m.idList)

theorem shape_put (m : Mem T) (a : Nat) (b : Int) (x : Item T) : (m.put a b x).shape = m.shape := by
  have hput : ∀ c, ((m.put a b x).heap c).buffer.id = (m.heap c).buffer.id ∧
      ((m.put a b x).heap c).next = (m.heap c).next ∧
      ((m.put a b x).heap c).live = (m.heap c).live := by
    intro c
    simp only [Mem.put, Table.get_set]
    split
    · rename_i hc
      subst hc
      exact ⟨rfl, rfl, rfl⟩
    · exact ⟨rfl, rfl, rfl⟩
  have hheap : (fun c => (((m.put a b x).heap c).buffer.id, ((m.put a b x).heap c).next,
      ((m.put a b x).heap c).live)) =
      fun c => ((m.heap c).buffer.id, (m.heap c).next, (m.heap c).live) := by
    funext c
    obtain ⟨h1, h2, h3⟩ := hput c
    rw [h1, h2, h3]
  simp only [Mem.shape, hheap]
  rfl

/-- An access that changes nothing that `reclaim_buffers` depends on. -/
theorem ReclaimInv.quiet (h : ReclaimInv s) (hshape : m'.shape = s.mem.shape)
    (hfresh : s.owner.fresh = none) (hcur : ∀ a ∈ p'.currents, a = s.mem.buffer)
    (hfresh' : p'.fresh = none) (hrec : p'.reclaims = false) (hscan : p'.scanned = none) :
    ReclaimInv { s with mem := m', owner := p' } := by
  simp only [Mem.shape, Prod.mk.injEq, funext_iff] at hshape
  obtain ⟨hheap, hb, hu, hn, htls, hlist⟩ := hshape
  refine h.ofOwner (h.heap.congr (fun a => (hheap a).1) (fun a => (hheap a).2.1)
    (fun a => (hheap a).2.2) hb hu hn) (h.owner.quiet hb hn hfresh hfresh' hcur fun hr => ?_)
    htls hlist hb.ge ?_ hscan ?_
  · rw [hrec] at hr
    cases hr
  · rw [Mem.oldest, Mem.oldest, hb, hu]
  · rintro minId k rfl
    cases hrec

/-- The buffer is resized, and stored by the next access. -/
theorem ReclaimInv.resize [Inhabited T] (h : ReclaimInv s) (hfresh : s.owner.fresh = none)
    {b t delta : Int} (hp' : p'.fresh = some s.mem.nextAddress) (hcur : p'.currents = [])
    (hrec : p'.reclaims = false) (hscan : p'.scanned = none) :
    ReclaimInv { s with mem := s.mem.resize s.mem.buffer b t delta, owner := p' } := by
  have hn := h.owner.next_address
  rw [hfresh] at hn
  refine h.ofOwner (h.heap.resize hn b t delta) ⟨?_, ?_, ?_, ?_⟩ rfl rfl (Nat.le_refl _) rfl hscan ?_
  · intro a ha
    rw [hcur] at ha
    cases ha
  · intro a ha
    rw [hp'] at ha
    exact ⟨(Option.some.inj ha).symm.trans hn, rfl⟩
  · rw [hp']
    show s.mem.nextAddress + 1 = s.mem.buffer + 1 + 1
    rw [hn]
    rfl
  · intro hr
    rw [hrec] at hr
    cases hr
  · rintro minId k rfl
    cases hrec

/-- The new buffer is stored. -/
theorem ReclaimInv.store (h : ReclaimInv s) {a : Nat} {k : ReclaimK T}
    (hfresh : s.owner.fresh = some a) (hk : ∀ c ∈ k.currents, c = a) :
    ReclaimInv { s with
      mem := { s.mem with buffer := a }
      owner := testUnlinked { s.mem with buffer := a } a k } := by
  obtain ⟨rfl, hu⟩ := h.owner.fresh a hfresh
  have hn := h.owner.next_address
  rw [hfresh] at hn
  refine h.ofOwner (h.heap.store hu) (ownerInv_testUnlinked rfl hk hn) rfl rfl (Nat.le_succ _) ?_
    (scanned_testUnlinked _ _) (fun minId k' => testUnlinked_ne_list _ _ _ _)
  obtain ⟨u, hu⟩ := Option.isSome_iff_exists.1 hu
  simp [Mem.oldest, hu]

theorem ReclaimInv.testUnlinked (h : ReclaimInv s) {a : Nat} {k : ReclaimK T}
    (hfresh : s.owner.fresh = none) (ha : a = s.mem.buffer) (hk : ∀ c ∈ k.currents, c = s.mem.buffer) :
    ReclaimInv { s with owner := testUnlinked s.mem a k } := by
  have hn := h.owner.next_address
  rw [hfresh] at hn
  exact h.ofOwner h.heap (ownerInv_testUnlinked ha hk hn) rfl rfl (Nat.le_refl _) rfl
    (scanned_testUnlinked _ _) (fun minId k' => testUnlinked_ne_list _ _ _ _)

/-- An access of `reclaim_buffers` before the walk. -/
theorem ReclaimInv.scan (h : ReclaimInv s) (hcur : ∀ a ∈ p'.currents, a = s.mem.buffer)
    (hrec : s.owner.reclaims = true) (hfresh' : p'.fresh = none) (hfresh : s.owner.fresh = none)
    (hlisted : ∀ minId k, p' = .reclaimList minId k → minId ≤ s.mem.buffer)
    (hscan : ∀ minId head, p'.scanned = some (minId, head) → minId ≤ s.mem.buffer ∧
      ∀ i, i ∉ head → ∀ a, (s.stealer i).held = some a → minId ≤ a) :
    ReclaimInv { s with owner := p' } where
  heap := h.heap
  owner := h.owner.quiet rfl rfl hfresh hfresh' hcur fun _ => h.owner.unlinked hrec
  stealer := h.stealer
  listed := hlisted
  scanned := hscan

/-- The walk deletes the oldest buffer. -/
theorem ReclaimInv.delete (h : ReclaimInv s) {minId u : Nat} {k : ReclaimK T}
    (hp : s.owner = .reclaimWalk minId k) (hu : s.mem.unlinked = some u) (hlt : u < minId) :
    ReclaimInv { s with
      mem := { s.mem with
        unlinked := (s.mem.heap u).next
        heap := s.mem.heap.set u { s.mem.heap u with live := false } }
      owner := .reclaimWalk minId k } := by
  obtain ⟨hmin, hheld⟩ := h.scanned minId [] (by rw [hp]; rfl)
  have hn := h.owner.next_address
  rw [hp] at hn
  replace hn : s.mem.nextAddress = s.mem.buffer + 1 := hn
  obtain ⟨hheap, hnext⟩ := h.heap.delete hu (by omega) (by omega)
  refine ⟨hheap, ⟨?_, by simp [OwnerPC.fresh], hn, fun _ => ?_⟩, fun i => ?_, by simp, ?_⟩
  · have hcur := h.owner.current
    rw [hp] at hcur
    exact hcur
  · rw [hnext]
    rfl
  · have hoff := hheld i (by simp)
    refine (h.stealer i).congr rfl (fun _ hj => hj) (Nat.le_refl _) fun a ha _ => ?_
    show ((s.mem.heap u).next).getD _ ≤ a
    rw [hnext, Option.getD_some]
    have := hoff a ha
    omega
  · intro min' head hs
    cases hs
    exact ⟨hmin, hheld⟩

theorem ReclaimInv.ownerStep [Inhabited T] (h : ReclaimInv s)
    (hx : ownerStep s.mem s.owner = some (m', p')) :
    ReclaimInv { s with mem := m', owner := p' } := by
  have hcur := h.owner.current
  cases hp : s.owner with
  | idle =>
      rw [hp] at hx
      cases hx
  | pushTop x b =>
      rw [hp] at hx
      cases hx
      exact h.quiet rfl (by rw [hp]; rfl) (by simp [OwnerPC.currents]) rfl rfl rfl
  | pushBuffer x b t =>
      rw [hp] at hx
      cases hx
      exact h.quiet rfl (by rw [hp]; rfl) (by simp [OwnerPC.currents]) rfl rfl rfl
  | pushSize x b t a =>
      rw [hp] at hx hcur
      obtain rfl : a = s.mem.buffer := hcur a (List.mem_singleton.2 rfl)
      simp only [Spmc.ownerStep] at hx
      split at hx <;> cases hx
      · exact h.resize (by rw [hp]; rfl) rfl rfl rfl rfl
      · exact h.testUnlinked (by rw [hp]; rfl) rfl hcur
  | pushStore x b a =>
      rw [hp] at hx
      cases hx
      exact h.store (by rw [hp]; rfl) (by simp [ReclaimK.currents])
  | pushPut x b a =>
      rw [hp] at hx
      cases hx
      exact h.quiet (shape_put _ _ _ _) (by rw [hp]; rfl) (by simp [OwnerPC.currents]) rfl rfl rfl
  | pushBottom x b =>
      rw [hp] at hx
      cases hx
      exact h.quiet rfl (by rw [hp]; rfl) (by simp [OwnerPC.currents]) rfl rfl rfl
  | popBuffer b =>
      rw [hp] at hx
      cases hx
      exact h.quiet rfl (by rw [hp]; rfl) (by simp [OwnerPC.currents]) rfl rfl rfl
  | popStore b a =>
      rw [hp] at hx hcur
      cases hx
      exact h.quiet rfl (by rw [hp]; rfl) hcur rfl rfl rfl
  | popTop b a =>
      rw [hp] at hx hcur
      simp only [Spmc.ownerStep] at hx
      split at hx
      · cases hx
        exact h.quiet rfl (by rw [hp]; rfl) (by simp [OwnerPC.currents]) rfl rfl rfl
      · split at hx <;> cases hx
        · exact h.quiet rfl (by rw [hp]; rfl) hcur rfl rfl rfl
        · exact h.quiet rfl (by rw [hp]; rfl) hcur rfl rfl rfl
  | popClaim b t a =>
      rw [hp] at hx hcur
      simp only [Spmc.ownerStep] at hx
      split at hx <;> cases hx
      · exact h.quiet rfl (by rw [hp]; rfl) hcur rfl rfl rfl
      · exact h.quiet rfl (by rw [hp]; rfl) (by simp [OwnerPC.currents]) rfl rfl rfl
  | popRead b t a e =>
      rw [hp] at hx
      cases hx
      exact h.quiet rfl (by rw [hp]; rfl) (by simp [OwnerPC.currents]) rfl rfl rfl
  | popRestore b =>
      rw [hp] at hx
      cases hx
      exact h.quiet rfl (by rw [hp]; rfl) (by simp [OwnerPC.currents]) rfl rfl rfl
  | popTake b t a e =>
      rw [hp] at hx hcur
      cases hx
      exact h.quiet rfl (by rw [hp]; rfl) hcur rfl rfl rfl
  | popShrink b t a =>
      rw [hp] at hx hcur
      obtain rfl : a = s.mem.buffer := hcur a (List.mem_singleton.2 rfl)
      simp only [Spmc.ownerStep] at hx
      split at hx <;> cases hx
      · exact h.resize (by rw [hp]; rfl) rfl rfl rfl rfl
      · exact h.testUnlinked (by rw [hp]; rfl) rfl (by simp [ReclaimK.currents])
  | popBufferStore a =>
      rw [hp] at hx
      cases hx
      exact h.store (by rw [hp]; rfl) (by simp [ReclaimK.currents])
  | reclaimId a k =>
      rw [hp] at hx hcur
      cases hx
      refine h.scan (fun c hc => hcur c (List.mem_cons_of_mem _ hc)) (by rw [hp]; rfl) rfl
        (by rw [hp]; rfl) (fun minId k' heq => ?_) (by simp [OwnerPC.scanned])
      obtain rfl : a = s.mem.buffer := hcur a List.mem_cons_self
      cases heq
      have hn := h.owner.next_address
      rw [h.heap.ids _ (by omega)]
  | reclaimList minId k =>
      rw [hp] at hx hcur
      cases hx
      refine h.scan hcur (by rw [hp]; rfl) rfl (by rw [hp]; rfl) (by simp) fun min' head hs => ?_
      cases hs
      refine ⟨h.listed _ _ hp, fun i hi a ha => ?_⟩
      -- a stealer that is not in the list has not been registered
      refine absurd ((h.stealer i).registered ?_) hi
      revert ha
      cases s.stealer i <;> simp [StealPC.held, StealPC.registered]
  | reclaimIdle minId head k =>
      rw [hp] at hx hcur
      obtain ⟨hmin, hheld⟩ := h.scanned minId head (by rw [hp]; rfl)
      cases head with
      | nil =>
          cases hx
          refine h.scan hcur (by rw [hp]; rfl) rfl (by rw [hp]; rfl) (by simp) fun min' head' hs => ?_
          cases hs
          exact ⟨hmin, hheld⟩
      | cons i head =>
          simp only [Spmc.ownerStep] at hx
          cases hx
          cases hidle : (s.mem.tls i).wasIdle with
          | true =>
              refine h.scan hcur (by rw [hp]; rfl) rfl (by rw [hp]; rfl) (by simp) fun min' head' hs => ?_
              cases hs
              refine ⟨hmin, fun j hj a ha => ?_⟩
              by_cases hij : j = i
              · subst hij
                have hbusy : (s.stealer j).busy = true := by
                  revert ha
                  cases s.stealer j <;> simp [StealPC.held, StealPC.busy]
                rw [(h.stealer j).busy hbusy] at hidle
                cases hidle
              · exact hheld j (by simp [hij, hj]) a ha
          | false =>
              refine h.scan hcur (by rw [hp]; rfl) rfl (by rw [hp]; rfl) (by simp) fun min' head' hs => ?_
              cases hs
              exact ⟨hmin, hheld⟩
  | reclaimUsed minId i head k =>
      rw [hp] at hx hcur
      obtain ⟨hmin, hheld⟩ := h.scanned minId (i :: head) (by rw [hp]; rfl)
      cases hx
      refine h.scan hcur (by rw [hp]; rfl) rfl (by rw [hp]; rfl) (by simp) fun min' head' hs => ?_
      cases hs
      refine ⟨by omega, fun j hj a ha => ?_⟩
      by_cases hij : j = i
      · subst hij
        have := ((h.stealer j).held a ha).2.2
        omega
      · have := hheld j (by simp [hij, hj]) a ha
        omega
  | reclaimWalk minId k =>
      have hn := h.owner.next_address
      rw [hp] at hx hcur hn
      simp only [Spmc.ownerStep] at hx
      split at hx
      · cases hx
      · rename_i u hu
        have hle := h.heap.oldest_le
        have hold : s.mem.oldest = u := by simp [Mem.oldest, hu]
        have hid : (s.mem.heap u).buffer.id = u := h.heap.ids u (by simp [OwnerPC.fresh] at hn; omega)
        split at hx <;> rename_i hlt <;> cases hx
        · exact h.delete hp hu (by omega)
        · cases k with
          | push x b a =>
              exact h.quiet rfl (by rw [hp]; rfl) hcur rfl rfl rfl
          | pop =>
              exact h.quiet rfl (by rw [hp]; rfl) hcur rfl rfl rfl

theorem ReclaimInv.begin (h : ReclaimInv s) (hp : s.owner = .idle) (hp' : p'.currents = [])
    (hfresh : p'.fresh = none) (hrec : p'.reclaims = false) (hscan : p'.scanned = none) :
    ReclaimInv { s with owner := p' } :=
  @ReclaimInv.quiet T s.mem p' s h rfl (by rw [hp]; rfl) (by rw [hp']; simp) hfresh hrec hscan

/-- The owner moves the oldest buffer on by deleting it only. -/
theorem oldest_step [Inhabited T] (h : ReclaimInv s)
    (hx : ownerStep s.mem s.owner = some (m', p')) : m'.oldest = s.mem.oldest ∨
      deletes s .owner = some s.mem.oldest ∧ m'.oldest = s.mem.oldest + 1 := by
  have hcur := h.owner.current
  cases hp : s.owner with
  | pushSize x b t a =>
      rw [hp] at hx hcur
      obtain rfl : a = s.mem.buffer := hcur a (List.mem_singleton.2 rfl)
      simp only [Spmc.ownerStep] at hx
      split at hx <;> cases hx <;> exact Or.inl rfl
  | popShrink b t a =>
      rw [hp] at hx hcur
      obtain rfl : a = s.mem.buffer := hcur a (List.mem_singleton.2 rfl)
      simp only [Spmc.ownerStep] at hx
      split at hx <;> cases hx <;> exact Or.inl rfl
  | pushStore x b a =>
      obtain ⟨u, hu⟩ := Option.isSome_iff_exists.1 (h.owner.fresh a (by rw [hp]; rfl)).2
      rw [hp] at hx
      cases hx
      simp [Mem.oldest, hu]
  | popBufferStore a =>
      obtain ⟨u, hu⟩ := Option.isSome_iff_exists.1 (h.owner.fresh a (by rw [hp]; rfl)).2
      rw [hp] at hx
      cases hx
      simp [Mem.oldest, hu]
  | popTop b a =>
      rw [hp] at hx
      simp only [Spmc.ownerStep] at hx
      split at hx
      · cases hx
        exact Or.inl rfl
      · split at hx <;> cases hx <;> exact Or.inl rfl
  | popClaim b t a =>
      rw [hp] at hx
      simp only [Spmc.ownerStep] at hx
      split at hx <;> cases hx <;> exact Or.inl rfl
  | reclaimIdle minId head k =>
      rw [hp] at hx
      cases head <;> cases hx <;> exact Or.inl rfl
  | reclaimWalk minId k =>
      have hn := h.owner.next_address
      have hmin := (h.scanned minId [] (by rw [hp]; rfl)).1
      rw [hp] at hx hn
      simp only [Spmc.ownerStep] at hx
      split at hx
      · cases hx
      · rename_i u hu
        have hle := h.heap.oldest_le
        have hold : s.mem.oldest = u := by simp [Mem.oldest, hu]
        have hid : (s.mem.heap u).buffer.id = u := h.heap.ids u (by omega)
        split at hx <;> rename_i hlt <;> cases hx
        · right
          constructor
          · simp [Spmc.deletes, hp, hu, hlt, hold]
          · show ((s.mem.heap u).next).getD _ = _
            rw [h.heap.next u, if_pos (by omega), hold]
            rfl
        · exact Or.inl rfl
  | idle =>
      rw [hp] at hx
      cases hx
  | _ =>
      rw [hp] at hx
      cases hx
      exact Or.inl rfl

end Owner

/-! ## The stealers -/

section Stealer

variable {m : Mem T} {s : State T} {i : Nat}

/-- An access of a stealer leaves the heap and the addresses alone. -/
theorem stealStep_frame [Inhabited T] (m : Mem T) (i : Nat) (b : Bool) (p : StealPC T) :
    (stealStep m i b p).1.heap = m.heap ∧ (stealStep m i b p).1.buffer = m.buffer ∧
      (stealStep m i b p).1.unlinked = m.unlinked ∧
      (stealStep m i b p).1.nextAddress = m.nextAddress ∧
      (∀ j, j ≠ i → (stealStep m i b p).1.tls j = m.tls j) ∧
      ∀ j, j ∈ m.idList → j ∈ (stealStep m i b p).1.idList := by
  cases p with
  | link next =>
      simp only [stealStep]
      split
      · rename_i hlink
        refine ⟨rfl, rfl, rfl, rfl, fun _ _ => rfl, fun j hj => ?_⟩
        rw [hlink.1] at hj
        exact List.mem_cons_of_mem _ hj
      · exact ⟨rfl, rfl, rfl, rfl, fun _ _ => rfl, fun _ hj => hj⟩
  | claim t a =>
      simp only [stealStep]
      split <;> exact ⟨rfl, rfl, rfl, rfl, fun _ _ => rfl, fun _ hj => hj⟩
  | unregistered => exact ⟨rfl, rfl, rfl, rfl, fun _ hj => Table.get_set_ne _ _ hj, fun _ hj => hj⟩
  | idle => exact ⟨rfl, rfl, rfl, rfl, fun _ hj => Table.get_set_ne _ _ hj, fun _ hj => hj⟩
  | setIdle => exact ⟨rfl, rfl, rfl, rfl, fun _ hj => Table.get_set_ne _ _ hj, fun _ hj => hj⟩
  | setUsed id => exact ⟨rfl, rfl, rfl, rfl, fun _ hj => Table.get_set_ne _ _ hj, fun _ hj => hj⟩
  | _ => exact ⟨rfl, rfl, rfl, rfl, fun _ _ => rfl, fun _ hj => hj⟩

/-- What an access of a stealer makes of its own part of the invariant. -/
theorem StealerInv.step [Inhabited T] {p : StealPC T} (h : StealerInv m i p) (hheap : HeapInv m)
    (hn : m.buffer < m.nextAddress) (b : Bool) :
    StealerInv (stealStep m i b p).1 i (stealStep m i b p).2 := by
  have hle := hheap.oldest_le
  have hused := h.used
  cases p with
  | unregistered =>
      constructor <;> simp [stealStep, StealPC.registered, StealPC.busy, StealPC.held]
  | link next =>
      simp only [stealStep]
      split
      · constructor <;> simp [StealPC.busy, StealPC.held, hused]
      · constructor <;> simp [StealPC.registered, StealPC.busy, StealPC.held, hused]
  | relink =>
      constructor <;> simp [stealStep, StealPC.registered, StealPC.busy, StealPC.held, hused]
  | idle =>
      have hreg := h.registered rfl
      constructor <;> simp [stealStep, StealPC.held, hused, hreg]
  | top =>
      have hreg := h.registered rfl
      have hbusy := h.busy rfl
      constructor <;> simp [stealStep, StealPC.held, hused, hreg, hbusy]
  | bottom t =>
      have hreg := h.registered rfl
      have hbusy := h.busy rfl
      simp only [stealStep]
      split <;> constructor <;> simp [StealPC.held, hused, hreg, hbusy]
  | buffer t =>
      have hreg := h.registered rfl
      have hbusy := h.busy rfl
      constructor <;> simp [stealStep, StealPC.held, hused, hreg, hbusy, hle]
  | claim t a =>
      have hreg := h.registered rfl
      have hbusy := h.busy rfl
      have hheld := h.held a rfl
      simp only [stealStep]
      split
      · refine ⟨fun _ => hreg, fun _ => hbusy, fun c hc => ?_, hused, by simp, by simp⟩
        cases hc
        exact hheld
      · refine ⟨fun _ => hreg, fun _ => hbusy, by simp [StealPC.held], hused, by simp, by simp⟩
  | read t a e =>
      have hreg := h.registered rfl
      have hbusy := h.busy rfl
      exact ⟨fun _ => hreg, fun _ => hbusy, by simp [stealStep, StealPC.held], hused,
        by simp [stealStep], by simp [stealStep]⟩
  | setIdle =>
      have hreg := h.registered rfl
      constructor <;> simp [stealStep, StealPC.busy, StealPC.held, hused, hreg]
  | reload =>
      have hreg := h.registered rfl
      constructor <;> simp [stealStep, StealPC.busy, StealPC.held, hused, hreg]
  | readId a =>
      have hreg := h.registered rfl
      have hread := h.reread a rfl
      have hid := hheap.ids a (by omega)
      constructor <;> simp [stealStep, StealPC.busy, StealPC.held, hused, hreg, hid, hread]
  | setUsed id =>
      have hreg := h.registered rfl
      have hset := h.setUsed id rfl
      constructor <;> simp [stealStep, StealPC.busy, StealPC.held, hreg, hset]

/-- What a stealer comes to hold is the current buffer. -/
theorem held_step [Inhabited T] {p : StealPC T} {b : Bool} {a : Nat}
    (ha : (stealStep m i b p).2.held = some a) : p.held = some a ∨ a = m.buffer := by
  cases p with
  | link next =>
      simp only [stealStep] at ha
      split at ha <;> cases ha
  | bottom t =>
      simp only [stealStep] at ha
      split at ha <;> cases ha
  | buffer t =>
      cases ha
      exact Or.inr rfl
  | claim t c =>
      simp only [stealStep] at ha
      split at ha <;> cases ha
      exact Or.inl rfl
  | _ => cases ha

theorem ReclaimInv.stealStep [Inhabited T] (h : ReclaimInv s) (i : Nat) (b : Bool) :
    ReclaimInv { s with
      mem := (stealStep s.mem i b (s.stealer i)).1
      stealer := s.stealer.set i (stealStep s.mem i b (s.stealer i)).2 } := by
  obtain ⟨hheap, hb, hu, hn, htls, hlist⟩ := stealStep_frame s.mem i b (s.stealer i)
  have hold : (Spmc.stealStep s.mem i b (s.stealer i)).1.oldest = s.mem.oldest := by
    rw [Mem.oldest, Mem.oldest, hb, hu]
  have hnext := h.owner.next_address
  refine ⟨h.heap.congr (by simp [hheap]) (by simp [hheap]) (by simp [hheap]) hb hu hn,
    ⟨?_, ?_, ?_, ?_⟩, fun j => ?_, ?_, ?_⟩
  · rw [hb]
    exact h.owner.current
  · rw [hb, hu]
    exact h.owner.fresh
  · rw [hn, hb]
    exact hnext
  · rw [hu]
    exact h.owner.unlinked
  · simp only [Table.get_set]
    split
    · rename_i hj
      subst hj
      exact (h.stealer j).step h.heap (by omega) b
    · rename_i hj
      exact (h.stealer j).congr (htls j hj) hlist hb.ge fun a _ ha => hold ▸ ha
  · rw [hb]
    exact h.listed
  · intro minId head hs
    obtain ⟨hmin, hheld⟩ := h.scanned minId head hs
    rw [hb]
    refine ⟨hmin, fun j hj a ha => ?_⟩
    simp only [Table.get_set] at ha
    split at ha
    · rename_i hji
      subst hji
      rcases held_step ha with hold | rfl
      · exact hheld j hj a hold
      · exact hmin
    · exact hheld j hj a ha

end Stealer

/-! ## Runs -/

section Runs

variable {s s' : State T} {l : Label T}

theorem ReclaimInv.step [Inhabited T] (h : ReclaimInv s) (hs : step s l = some s') :
    ReclaimInv s' := by
  rcases step_cases hs with ⟨x, -, hp, rfl⟩ | ⟨-, hp, rfl⟩ | ⟨m', p', rfl, hx, rfl⟩ | ⟨i, b, rfl, rfl⟩
  · exact h.begin hp rfl rfl rfl rfl
  · exact h.begin hp rfl rfl rfl rfl
  · exact h.ownerStep hx
  · exact h.stealStep i b

/-- A stealer reads the id of what was the current buffer. -/
theorem reread_step [Inhabited T] {m : Mem T} {p : StealPC T} {i a : Nat} {b : Bool}
    (ha : (stealStep m i b p).2 = .readId a) : a = m.buffer := by
  cases p with
  | link next =>
      simp only [stealStep] at ha
      split at ha <;> cases ha
  | bottom t =>
      simp only [stealStep] at ha
      split at ha <;> cases ha
  | claim t c =>
      simp only [stealStep] at ha
      split at ha <;> cases ha
  | reload =>
      cases ha
      rfl
  | _ => cases ha

theorem SafeInv.step [Inhabited T] (h : SafeInv s) (hg : Unread s l) (hs : step s l = some s') :
    SafeInv s' := by
  refine ⟨h.toReclaimInv.step hs, ?_⟩
  rcases step_cases hs with ⟨x, -, hp, rfl⟩ | ⟨-, hp, rfl⟩ | ⟨m', p', rfl, hx, rfl⟩ | ⟨i, b, rfl, rfl⟩
  · exact h.unread
  · exact h.unread
  · intro i a ha
    have hle := h.unread i a ha
    rcases oldest_step h.toReclaimInv hx with hsame | ⟨hdel, hnext⟩
    · rwa [hsame]
    · have hne : a ≠ s.mem.oldest := by
        rintro rfl
        exact hg _ hdel i ha
      show m'.oldest ≤ a
      omega
  · intro j a ha
    obtain ⟨-, hb, hu, -⟩ := stealStep_frame s.mem i b (s.stealer i)
    have hold : (stealStep s.mem i b (s.stealer i)).1.oldest = s.mem.oldest := by
      rw [Mem.oldest, Mem.oldest, hb, hu]
    rw [hold]
    simp only [Table.get_set] at ha
    split at ha
    · rw [reread_step ha]
      exact h.heap.oldest_le
    · exact h.unread j a ha

theorem ReclaimInv.start [Inhabited T] (log : Nat) : ReclaimInv (start log : State T) := by
  have hheap : ∀ a, a ≠ 0 → (Spmc.start log : State T).mem.heap a =
      { buffer := .new 0 0, next := none, live := false } := by
    intro a ha
    obtain ⟨k, rfl⟩ := Nat.exists_eq_succ_of_ne_zero ha
    rfl
  refine ⟨⟨fun a ha => ?_, fun a => ?_, fun a => ?_, Nat.le_refl 0⟩, ?_, fun i => ?_, ?_, ?_⟩
  · obtain rfl : a = 0 := Nat.lt_one_iff.1 ha
    rfl
  · rw [if_neg (by simp [Spmc.start])]
    by_cases ha : a = 0
    · subst ha
      rfl
    · rw [hheap a ha]
  · by_cases ha : a = 0
    · subst ha
      simp [Spmc.start, Table.get, Table.lookup, Mem.oldest]
    · rw [hheap a ha]
      simp [Spmc.start, ha]
  · constructor <;> simp [Spmc.start, OwnerPC.currents, OwnerPC.fresh, OwnerPC.reclaims]
  · constructor <;> simp [Spmc.start, StealPC.registered, StealPC.busy, StealPC.held]
  · simp [Spmc.start]
  · simp [Spmc.start, OwnerPC.scanned]

theorem SafeInv.start [Inhabited T] (log : Nat) : SafeInv (start log : State T) :=
  ⟨.start log, by simp [Spmc.start]⟩

theorem ReclaimInv.liveChain (h : ReclaimInv s) (hidle : s.owner = .idle) : LiveChain s := by
  intro a
  have hn := h.owner.next_address
  rw [hidle] at hn
  replace hn : s.mem.nextAddress = s.mem.buffer + 1 := hn
  rw [h.heap.live a]
  constructor
  · rintro ⟨hle, hlt⟩
    exact ⟨(h.heap.reaches_iff hlt).2 hle, (h.heap.reaches_iff (by omega)).2 (by omega)⟩
  · rintro ⟨hfrom, hto⟩
    have hle := (h.heap.reaches_iff (by omega)).1 hto
    exact ⟨(h.heap.reaches_iff (by omega)).1 hfrom, by omega⟩

theorem ReclaimInv.live_of_le (h : ReclaimInv s) {a : Nat} (hle : s.mem.oldest ≤ a)
    (hle' : a ≤ s.mem.buffer) : (s.mem.heap a).live = true := by
  have hn := h.owner.next_address
  exact (h.heap.live a).2 ⟨hle, by omega⟩

theorem ReclaimInv.live_current (h : ReclaimInv s) : (s.mem.heap s.mem.buffer).live = true :=
  h.live_of_le h.heap.oldest_le (Nat.le_refl _)

/-- The walk stands at a live buffer that the chain leads on to the current one. -/
theorem ReclaimInv.walk (h : ReclaimInv s) {minId : Nat} {k : ReclaimK T}
    (hp : s.owner = .reclaimWalk minId k) : ∃ u, s.mem.unlinked = some u ∧
      (s.mem.heap u).live = true ∧ (s.mem.heap u).buffer.id = u ∧ minId ≤ s.mem.buffer ∧
        Reaches s.mem.heap u s.mem.buffer := by
  obtain ⟨u, hu⟩ := Option.isSome_iff_exists.1 (h.owner.unlinked (by rw [hp]; rfl))
  have hn := h.owner.next_address
  have hle := h.heap.oldest_le
  have hold : s.mem.oldest = u := by simp [Mem.oldest, hu]
  rw [hold] at hle
  exact ⟨u, hu, h.live_of_le hold.le hle, h.heap.ids u (by omega),
    (h.scanned minId [] (by rw [hp]; rfl)).1, (h.heap.reaches_iff (by omega)).2 hle⟩

theorem SafeInv.sound (h : SafeInv s) (l : Label T) : Sound s l where
  uses a ha := by
    cases l with
    | push x => cases ha
    | pop => cases ha
    | owner =>
        have hcur := h.owner.current
        have key : ∀ c, c ∈ s.owner.currents → c = a → (s.mem.heap a).live = true := by
          rintro c hc rfl
          rw [hcur c hc]
          exact h.live_current
        replace ha : a ∈ s.owner.derefs s.mem := ha
        cases hp : s.owner with
        | reclaimWalk minId k =>
            obtain ⟨u, hu, hlive, -⟩ := h.walk hp
            rw [hp] at ha
            simp only [OwnerPC.derefs, hu, Option.toList_some, List.mem_singleton] at ha
            rwa [ha]
        | pushSize x b t c =>
            rw [hp] at ha
            exact key c (by rw [hp]; simp [OwnerPC.currents]) (List.mem_singleton.1 ha).symm
        | pushPut x b c =>
            rw [hp] at ha
            exact key c (by rw [hp]; simp [OwnerPC.currents]) (List.mem_singleton.1 ha).symm
        | popRead b t c e =>
            rw [hp] at ha
            exact key c (by rw [hp]; simp [OwnerPC.currents]) (List.mem_singleton.1 ha).symm
        | popTake b t c e =>
            rw [hp] at ha
            exact key c (by rw [hp]; simp [OwnerPC.currents]) (List.mem_singleton.1 ha).symm
        | popShrink b t c =>
            rw [hp] at ha
            exact key c (by rw [hp]; simp [OwnerPC.currents]) (List.mem_singleton.1 ha).symm
        | reclaimId c k =>
            rw [hp] at ha
            exact key c (by rw [hp]; simp [OwnerPC.currents]) (List.mem_singleton.1 ha).symm
        | _ =>
            rw [hp] at ha
            cases ha
    | stealer i b =>
        have hi := h.stealer i
        replace ha : a ∈ (s.stealer i).derefs := ha
        cases hp : s.stealer i with
        | read t c e =>
            rw [hp] at ha hi
            obtain rfl := List.mem_singleton.1 ha
            obtain ⟨h1, h2, -⟩ := hi.held a rfl
            exact h.live_of_le h1 h2
        | readId c =>
            rw [hp] at ha hi
            obtain rfl := List.mem_singleton.1 ha
            exact h.live_of_le (h.unread i a hp) (hi.reread a rfl)
        | _ =>
            rw [hp] at ha
            cases ha
  deletes a ha := by
    cases l with
    | owner =>
        simp only [Spmc.deletes] at ha
        split at ha
        · rename_i minId k hp
          obtain ⟨u, hu, hlive, hid, hmin, -⟩ := h.walk hp
          rw [hu] at ha
          obtain ⟨heq, hlt⟩ := Option.filter_eq_some_iff.1 ha
          obtain rfl := Option.some.inj heq
          simp only [decide_eq_true_eq, hid] at hlt
          exact ⟨hlive, by omega⟩
        · cases ha
    | _ => cases ha
  walk minId k hp := by
    obtain ⟨u, hu, -, -, -, hr⟩ := h.walk hp
    exact ⟨u, hu, hr⟩

/-- No step uses or deletes a buffer that has been deleted, and between the calls of
the owner the live buffers are those on the chain. -/
theorem sound_of_run [Inhabited T] {log : Nat} {σ : Nat → State T} {ℓ : Nat → Label T} {n : Nat}
    (h : Run step (start log) σ ℓ n) (hg : ∀ k, k < n → Unread (σ k) (ℓ k)) :
    (∀ k, k < n → Sound (σ k) (ℓ k)) ∧ ∀ k, k ≤ n → (σ k).owner = .idle → LiveChain (σ k) := by
  have hinv : ∀ k, k ≤ n → SafeInv (σ k) :=
    h.guarded (.start log) (fun s l s' hI hG hs => hI.step hG hs) hg
  exact ⟨fun k hk => (hinv k (Nat.le_of_lt hk)).sound (ℓ k),
    fun k hk hidle => (hinv k hk).liveChain hidle⟩

/-! ## The condition computed -/

/-- No stealer is seen to be about to read the id of the buffer that a step deletes. -/
def unread [DecidableEq T] (s : State T) (l : Label T) : Bool :=
  match deletes s l with
  | some a => (s.stealer.rest :: s.stealer.cells).all fun p => p ≠ .readId a
  | none => true

theorem Unread.of_unread [DecidableEq T] (h : unread s l = true) : Unread s l := by
  intro a ha i hi
  simp only [unread, ha] at h
  have hmem : s.stealer i ∈ s.stealer.rest :: s.stealer.cells := s.stealer.get_mem i
  have hne := List.all_eq_true.1 h _ hmem
  simp [hi] at hne

/-- A stealer finds the deque empty, and the first push grows the buffer. -/
def growLabels : List (Label Nat) :=
  List.replicate 9 (.stealer 0 false) ++ [.push 7] ++ List.replicate 12 .owner

theorem sound_grow : LiveChain (trace step (start 0) growLabels 22) := by
  have hrun : follows step unread (start 0) growLabels = true := by decide +kernel
  exact (sound_of_run (Run.of_follows .owner hrun)
    fun k hk => .of_unread (trace_ok .owner hrun k hk)).2 22 (by decide +kernel) (by decide +kernel)

/-- The stealer has loaded the address of the buffer and not yet read the id when
the push deletes it. -/
def staleLabels : List (Label Nat) :=
  List.replicate 7 (.stealer 0 false) ++ [.push 7] ++ List.replicate 9 .owner ++ [.stealer 0 false]

theorem not_sound :
    ¬ ∀ (log : Nat) (σ : Nat → State Nat) (ℓ : Nat → Label Nat) (n : Nat),
      Run step (start log) σ ℓ n →
        (∀ k, k < n → Sound (σ k) (ℓ k)) ∧ ∀ k, k ≤ n → (σ k).owner = .idle → LiveChain (σ k) := by
  intro h
  have hrun : follows step (fun _ _ => true) (start 0) staleLabels = true := by decide +kernel
  have hsound := (h 0 _ _ _ (Run.of_follows .owner hrun)).1 17 (by decide +kernel)
  have hlive := hsound.uses 0 (by decide +kernel)
  revert hlive
  decide +kernel

end Runs

end TaskDispatcher.Container.Spmc
