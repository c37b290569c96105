import TaskDispatcher.Scheduler.Calls

/-!
# What the queues of resumable fibers hold

Whatever is pushed to a queue of resumable fibers was copied from a slot, and a
slot names a call of `wait` together with the fiber that made it.
-/

namespace TaskDispatcher.Scheduler

open TaskDispatcher.Library TaskDispatcher.Container

/-- The entry a scanner pushes for a slot. -/
def WaitingFiber.wake (g : WaitingFiber) : Wake := { fiber := g.fiberIndex, reg := g.reg }

def Mem.slotWake (m : Mem) (c j : Nat) : Wake := ((m.counters c).slot j).wake

/-- The entry names a call of its fiber. -/
def Registered (hist : Hist) (v : Wake) : Prop := ∃ w, hist.call v.reg = some w ∧ w.fiber = v.fiber

/-- The slot a waiter has written its fiber to. -/
def writtenSlot : PC → Option (Nat × Nat)
  | .add _ _ .acquire => none
  | .add _ _ .writeFiber => none
  | .add w j _ => some (w.counter, j)
  | _ => none

/-- The slot a scanner has claimed. -/
def claimedSlot : PC → Option (Nat × Nat)
  | .scan x j (.pinned _) => some (x.counter, j)
  | .scan x j (.fiber _) => some (x.counter, j)
  | .pin x j _ _ .lock => some (x.counter, j)
  | .pin x j _ _ .push => some (x.counter, j)
  | _ => none

/-- The entry an agent holds. -/
def heldWake : PC → Option Wake
  | .getUnlock got => got
  | .tryResume _ v => some v
  | .reLock v => some v
  | .rePush v => some v
  | .resEnq _ v _ => some v
  | _ => none

structure WakeInv (s : State) : Prop where
  unused : ∀ c j, ((s.mem.counters c).slot j).inUse = false →
    Registered s.mem.hist (s.mem.slotWake c j)
  written : ∀ a c j, writtenSlot (s.pc a) = some (c, j) →
    Registered s.mem.hist (s.mem.slotWake c j)
  claimed : ∀ a c j, claimedSlot (s.pc a) = some (c, j) →
    Registered s.mem.hist (s.mem.slotWake c j)
  held : ∀ a v, heldWake (s.pc a) = some v → Registered s.mem.hist v
  resumable : ∀ v, v ∈ s.mem.resumableFibers.log → Registered s.mem.hist v
  pinned : ∀ t v, v ∈ (s.mem.threads t).pinnedResumableFibers.log → Registered s.mem.hist v

section Steps

variable {cfg : Config} {s s' : State} {m m' : Mem} {i f : Nat} {ch : Choice} {p p' : PC} {l : Label}

/-- Calls are never forgotten. -/
theorem CallInv.call_mono (h : CallInv cfg s) (hm : CallMove s.mem f p m' p') {r : Nat}
    {w : WaitCall} (hr : s.mem.hist.call r = some w) : m'.hist.call r = some w := by
  cases hm with
  | begin v _ _ _ _ hpart =>
      simp only [callPart, Prod.mk.injEq] at hpart
      rw [hpart.2.1, Table.get_set_ne _ _ (Nat.ne_of_lt (h.number r w hr).2.2), hr]
  | _ =>
      rename_i hpart
      simp only [callPart, Prod.mk.injEq] at hpart
      rw [hpart.2.1, hr]

theorem Registered.mono (h : CallInv cfg s) (hm : CallMove s.mem f p m' p') {v : Wake}
    (hv : Registered s.mem.hist v) : Registered m'.hist v := by
  obtain ⟨w, hw, hfiber⟩ := hv
  exact ⟨w, h.call_mono hm hw, hfiber⟩

theorem slotWake_set (d : Nat) (a : AtomicCounter) (c j : Nat) :
    Mem.slotWake { m with counters := m.counters.set d a } c j =
      if c = d then (a.slot j).wake else m.slotWake c j := by
  show ((m.counters.set d a) c |>.slot j).wake = _
  rw [Table.get_set]
  split <;> rfl

/-- What an access does to a slot: nothing, or it puts the fiber of a call there. -/
inductive SlotWrite (m : Mem) (p : PC) (m' : Mem) (c j : Nat) : Prop where
  | same : m'.slotWake c j = m.slotWake c j →
      (((m'.counters c).slot j).inUse = false → ((m.counters c).slot j).inUse = false) →
      SlotWrite m p m' c j
  | write (w : WaitCall) : p = .add w j .writeFiber → w.counter = c →
      m'.slotWake c j = { fiber := w.fiber, reg := w.call } →
      ((m'.counters c).slot j).inUse = ((m.counters c).slot j).inUse → SlotWrite m p m' c j
  | publish (w : WaitCall) : p = .add w j .publish → w.counter = c →
      m'.slotWake c j = m.slotWake c j → SlotWrite m p m' c j

/-- An access that changes nothing but counts, flags and `in_use` of the slots. -/
theorem slotWrite_of {d : Nat} {a : AtomicCounter}
    (hm : m'.counters = m.counters.set d a)
    (h : ∀ k, (a.slot k).wake = ((m.counters d).slot k).wake ∧
      ((a.slot k).inUse = false → ((m.counters d).slot k).inUse = false)) (c j : Nat) :
    SlotWrite m p m' c j := by
  refine .same ?_ ?_
  · show ((m'.counters c).slot j).wake = _
    rw [hm, Table.get_set]
    split
    · rename_i hc
      rw [(h j).1, hc]
      rfl
    · rfl
  · rw [hm, Table.get_set]
    split
    · rename_i hc
      rw [hc]
      exact (h j).2
    · exact id

theorem setSlot_same {a : AtomicCounter} {j : Nat} {g : WaitingFiber}
    (hwake : g.wake = (a.slot j).wake) (huse : g.inUse = false → (a.slot j).inUse = false) (k : Nat) :
    ((a.setSlot j g).slot k).wake = (a.slot k).wake ∧
      (((a.setSlot j g).slot k).inUse = false → (a.slot k).inUse = false) := by
  rw [AtomicCounter.slot_setSlot]
  split
  · rename_i hk
    rw [hk]
    exact ⟨hwake, huse⟩
  · exact ⟨rfl, id⟩

theorem slotWrite_add {w : WaitCall} {k : Nat} {pc : AddPC} {a : AtomicCounter} {r : AddNext}
    (hmove : AddMove (m.counters w.counter) w k pc a r)
    (hm : m'.counters = m.counters.set w.counter a) (c j : Nat) :
    SlotWrite m (.add w k pc) m' c j := by
  have hother : (c ≠ w.counter ∨ j ≠ k) → ∀ g, a = (m.counters w.counter).setSlot k g →
      SlotWrite m (.add w k pc) m' c j := by
    intro hne g ha
    have hslot : (m'.counters c).slot j = (m.counters c).slot j := by
      rw [hm, Table.get_set]
      split
      · rename_i hc
        rw [ha, AtomicCounter.slot_setSlot, hc]
        rcases hne with hne | hne
        · exact absurd hc hne
        · rw [if_neg hne]
      · rfl
    exact .same (by rw [Mem.slotWake, hslot]; rfl) (by rw [hslot]; exact id)
  cases hmove with
  | writeFiber =>
      by_cases hcj : c = w.counter ∧ j = k
      · obtain ⟨rfl, rfl⟩ := hcj
        have hslot : (m'.counters w.counter).slot j =
            { (m.counters w.counter).slot j with fiberIndex := w.fiber, reg := w.call } := by
          rw [hm, Table.get_set_self, AtomicCounter.slot_setSlot, if_pos rfl]
        exact .write w rfl rfl (by rw [Mem.slotWake, hslot]; rfl) (by rw [hslot])
      · exact hother (by tauto) _ rfl
  | publish =>
      by_cases hcj : c = w.counter ∧ j = k
      · obtain ⟨rfl, rfl⟩ := hcj
        have hslot : (m'.counters w.counter).slot j =
            { (m.counters w.counter).slot j with inUse := false } := by
          rw [hm, Table.get_set_self, AtomicCounter.slot_setSlot, if_pos rfl]
        exact .publish w rfl rfl (by rw [Mem.slotWake, hslot]; rfl)
      · exact hother (by tauto) _ rfl
  | writeTarget => exact slotWrite_of hm (setSlot_same rfl id) c j
  | writePinned => exact slotWrite_of hm (setSlot_same rfl id) c j
  | won _ => exact slotWrite_of hm (setSlot_same rfl (by simp)) c j
  | acquire _ => exact slotWrite_of hm (fun _ => ⟨rfl, id⟩) c j
  | free => exact slotWrite_of hm (fun _ => ⟨rfl, id⟩) c j
  | _ => exact slotWrite_of hm (fun _ => ⟨rfl, id⟩) c j

theorem slotWrite_scan {x : Scan} {k : Nat} {pc : ScanPC} {a : AtomicCounter} {r : ScanNext}
    (hmove : ScanMove (m.counters x.counter) x.value k pc a r)
    (hm : m'.counters = m.counters.set x.counter a) (c j : Nat) : SlotWrite m p m' c j := by
  cases hmove with
  | won _ => exact slotWrite_of hm (setSlot_same rfl (by simp)) c j
  | _ => exact slotWrite_of hm (fun _ => ⟨rfl, id⟩) c j

theorem exec_slots (hx : exec cfg m i f ch p = some (m', p')) (c j : Nat) :
    SlotWrite m p m' c j := by
  cases p with
  | add w k pc =>
      obtain ⟨a, r, hmove, rfl, rfl⟩ := exec_add hx
      exact slotWrite_add hmove (by cases r <;> rfl) c j
  | scan x k pc =>
      obtain ⟨a, r, hmove, rfl, rfl⟩ := exec_scan hx
      exact slotWrite_scan hmove rfl c j
  | increment inc =>
      simp only [exec, incrementStep] at hx
      split at hx <;> cases hx <;>
        exact slotWrite_of (d := inc.counter)
          (a := { m.counters inc.counter with
            count := (m.counters inc.counter).count + inc.amount }) rfl (fun _ => ⟨rfl, id⟩) c j
  | resetCount d k =>
      cases hx
      exact slotWrite_of (d := d) (a := { m.counters d with count := 0 }) rfl (fun _ => ⟨rfl, id⟩) c j
  | resetSlot d k q =>
      cases hx
      exact slotWrite_of (d := d) (a := (m.counters d).setFree k true) rfl (fun _ => ⟨rfl, id⟩) c j
  | _ =>
      simp only [exec, userStep, beginWait, afterWait, submitNext, afterRelease, cleanStep,
        pinStep, submitTasks, enqueueNext] at hx
      (repeat' split at hx) <;> cases hx <;> exact .same rfl id

/-- A slot that names a call goes on to name one. -/
theorem slot_registered (hc : CallInv cfg s) (hp : p = s.pc f)
    (hm : CallMove s.mem f p m' p') {c j : Nat} (hw : SlotWrite s.mem p m' c j)
    (hreg : Registered s.mem.hist (s.mem.slotWake c j)) : Registered m'.hist (m'.slotWake c j) := by
  cases hw with
  | same hsame _ => exact hsame ▸ hreg.mono hc hm
  | publish w _ _ hsame => exact hsame ▸ hreg.mono hc hm
  | write w hpc _ hwrite _ =>
      obtain ⟨-, hcall, -⟩ := hc.inside f w (by rw [← hp, hpc]; rfl)
      rw [hwrite]
      exact ⟨w, hc.call_mono hm hcall, rfl⟩

/-! ## The logs -/

theorem mem_log_resumable (hx : exec cfg m i f ch p = some (m', p')) {v : Wake}
    (hv : v ∈ m'.resumableFibers.log) :
    v ∈ m.resumableFibers.log ∨ ∃ k pc, p = .resEnq k v pc := by
  cases p with
  | resEnq k u pc =>
      have heffect := Mpmc.enqueueStep_effect m.resumableFibers u (ch = .spurious) pc
      have hlog : (m'.resumableFibers).log =
          (Mpmc.enqueueStep 0 u (ch = .spurious) m.resumableFibers pc).1.log := by
        simp only [exec] at hx
        split at hx <;> cases hx
        · rfl
        · split <;> rfl
      rw [hlog] at hv
      generalize hr : (Mpmc.enqueueStep 0 u (ch = .spurious) m.resumableFibers pc).2 = r at heffect
      cases heffect with
      | quiet _ hsame _ => exact Or.inl (hsame ▸ hv)
      | put _ _ happend _ =>
          rw [happend, List.mem_append, List.mem_singleton] at hv
          rcases hv with hv | rfl
          · exact Or.inl hv
          · exact Or.inr ⟨k, pc, rfl⟩
      | done _ hsame _ => exact Or.inl (hsame ▸ hv)
      | full _ _ hsame => exact Or.inl (hsame ▸ hv)
  | resDeq pc =>
      have heffect := Mpmc.dequeueStep_effect m.resumableFibers (ch = .spurious) pc
      have hlog : (m'.resumableFibers).log =
          (Mpmc.dequeueStep 0 (ch = .spurious) m.resumableFibers pc).1.log := by
        simp only [exec] at hx
        split at hx <;> cases hx <;> rfl
      rw [hlog] at hv
      generalize hr : (Mpmc.dequeueStep 0 (ch = .spurious) m.resumableFibers pc).2 = r at heffect
      cases heffect with
      | quiet _ hsame _ => exact Or.inl (hsame ▸ hv)
      | take _ _ hsame _ => exact Or.inl (hsame ▸ hv)
      | done _ hsame _ => exact Or.inl (hsame ▸ hv)
      | empty _ _ hsame => exact Or.inl (hsame ▸ hv)
  | _ =>
      simp only [exec, userStep, beginWait, afterWait, incrementStep, submitNext, afterRelease,
        cleanStep, pinStep, submitTasks, enqueueNext] at hx
      (repeat' split at hx) <;> cases hx <;> exact Or.inl hv

/-- What an access pushes to the queue of a thread. -/
theorem mem_log_pinned (hq : ∀ t, Fifo.Ok maxWaiting (m.threads t).pinnedResumableFibers)
    (hx : exec cfg m i f ch p = some (m', p')) {t : Nat} {v : Wake}
    (hv : v ∈ (m'.threads t).pinnedResumableFibers.log) :
    v ∈ (m.threads t).pinnedResumableFibers.log ∨ (t = i ∧ p = .rePush v) ∨
      ∃ x j reg, p = .pin x j reg t .push ∧ v = m.slotWake x.counter j := by
  have hset : ∀ (n : Mem) (k : Nat) (th : WorkerThread), n.threads = m.threads.set k th →
      th.pinnedResumableFibers.log = (m.threads k).pinnedResumableFibers.log →
      v ∈ (n.threads t).pinnedResumableFibers.log →
      v ∈ (m.threads t).pinnedResumableFibers.log := by
    intro n k th hn hth hmem
    rw [hn, Table.get_set] at hmem
    split at hmem
    · rename_i htk
      rw [htk, ← hth]
      exact hmem
    · exact hmem
  cases p with
  | getLock =>
      simp only [exec] at hx
      split at hx <;> cases hx
      · exact Or.inl hv
      · exact Or.inl (hset _ _ _ (by rfl) (by rfl) hv)
  | getPop =>
      cases hx
      refine Or.inl (hset _ i _ (by rfl) ?_ hv)
      rcases (hq i).dequeue maxWaiting_capacity with ⟨-, hd⟩ | ⟨-, -, -, hlog, -, -⟩
      · rw [hd]
      · exact hlog
  | getUnlock got =>
      cases hx
      exact Or.inl (hset _ _ _ (by rfl) (by rfl) hv)
  | reLock u =>
      simp only [exec] at hx
      split at hx <;> cases hx
      · exact Or.inl hv
      · exact Or.inl (hset _ _ _ (by rfl) (by rfl) hv)
  | reUnlock =>
      cases hx
      exact Or.inl (hset _ _ _ (by rfl) (by rfl) hv)
  | rePush u =>
      cases hx
      simp only [Table.get_set] at hv
      split at hv
      · rename_i hti
        rw [hti]
        rcases List.mem_append.1 hv with hv | hv
        · exact Or.inl hv
        · exact Or.inr (Or.inl ⟨rfl, by rw [List.mem_singleton.1 hv]⟩)
      · exact Or.inl hv
  | pin x j reg th pc =>
      cases pc with
      | lock =>
          simp only [exec, pinStep] at hx
          split at hx <;> cases hx
          · exact Or.inl hv
          · exact Or.inl (hset _ _ _ (by rfl) (by rfl) hv)
      | unlock =>
          cases hx
          exact Or.inl (hset _ _ _ (by rfl) (by rfl) hv)
      | push =>
          cases hx
          simp only [Table.get_set] at hv
          split at hv
          · rename_i hti
            subst hti
            rcases List.mem_append.1 hv with hv | hv
            · exact Or.inl hv
            · exact Or.inr (Or.inr ⟨x, j, reg, rfl, List.mem_singleton.1 hv⟩)
          · exact Or.inl hv
  | _ =>
      simp only [exec, userStep, beginWait, afterWait, incrementStep, submitNext, afterRelease,
        cleanStep, submitTasks, enqueueNext] at hx
      (repeat' split at hx) <;> cases hx <;> exact Or.inl hv

/-! ## What an agent comes to hold -/

theorem written_step (hx : exec cfg m i f ch p = some (m', p')) {c j : Nat}
    (hw : writtenSlot p' = some (c, j)) :
    writtenSlot p = some (c, j) ∨ ∃ w, p = .add w j .writeFiber ∧ w.counter = c := by
  cases p with
  | add w k pc =>
      obtain ⟨a, r, hmove, -, rfl⟩ := exec_add hx
      cases hmove <;> simp only [addNext, writtenSlot, reduceCtorEq] at hw ⊢ <;> first
        | exact Or.inl hw
        | simp only [Option.some.injEq, Prod.mk.injEq] at hw
          exact Or.inr ⟨w, by rw [hw.2], hw.1⟩
        | cases hw
  | scan x k pc =>
      obtain ⟨a, r, hmove, -, rfl⟩ := exec_scan hx
      cases hmove <;> simp only [scanNext, nextSlot] at hw <;> (try split at hw) <;> first
        | cases hw
        | (cases hk : x.k <;> rw [hk] at hw <;> cases hw)
  | clean k =>
      simp only [exec, cleanStep] at hx
      rcases k with _ | _ | (_ | _) <;> split at hx <;> cases hx <;> cases hw
  | idleEnq k v pc =>
      simp only [exec] at hx
      rcases k with _ | _ | (_ | _) <;> split at hx <;> cases hx <;> cases hw
  | resEnq k v pc =>
      simp only [exec] at hx
      cases k <;> split at hx <;> cases hx <;> cases hw
  | _ =>
      simp only [exec, userStep, beginWait, afterWait, incrementStep, submitNext, afterRelease,
        pinStep, submitTasks, enqueueNext] at hx
      (repeat' split at hx) <;> cases hx <;> cases hw

theorem claimed_step (hx : exec cfg m i f ch p = some (m', p')) {c j : Nat}
    (hw : claimedSlot p' = some (c, j)) :
    claimedSlot p = some (c, j) ∨ ((m.counters c).slot j).inUse = false := by
  cases p with
  | add w k pc =>
      obtain ⟨a, r, hmove, -, rfl⟩ := exec_add hx
      cases hmove <;> cases hw
  | scan x k pc =>
      obtain ⟨a, r, hmove, -, rfl⟩ := exec_scan hx
      cases hmove with
      | won hfree =>
          cases hw
          exact Or.inr hfree
      | unpinned _ => exact Or.inl hw
      | pinned _ => exact Or.inl hw
      | unused _ => cases hw
      | occupied _ => cases hw
      | onTarget _ => cases hw
      | fiber => cases hw
      | _ =>
          simp only [scanNext, nextSlot] at hw
          split at hw
          · cases hw
          · cases hk : x.k <;> rw [hk] at hw <;> cases hw
  | pin x k reg t pc =>
      cases pc with
      | lock =>
          simp only [exec, pinStep] at hx
          split at hx <;> cases hx <;> exact Or.inl hw
      | push =>
          cases hx
          cases hw
      | unlock =>
          cases hx
          cases hw
  | clean k =>
      simp only [exec, cleanStep] at hx
      rcases k with _ | _ | (_ | _) <;> split at hx <;> cases hx <;> cases hw
  | idleEnq k v pc =>
      simp only [exec] at hx
      rcases k with _ | _ | (_ | _) <;> split at hx <;> cases hx <;> cases hw
  | resEnq k v pc =>
      simp only [exec] at hx
      cases k <;> split at hx <;> cases hx <;> cases hw
  | _ =>
      simp only [exec, userStep, beginWait, afterWait, incrementStep, submitNext, afterRelease,
        submitTasks, enqueueNext] at hx
      (repeat' split at hx) <;> cases hx <;> cases hw

theorem held_step (hq : QueueInv s) (hx : exec cfg s.mem i f ch (s.pc f) = some (m', p')) {v : Wake}
    (hw : heldWake p' = some v) : heldWake (s.pc f) = some v ∨ v ∈ s.mem.resumableFibers.log ∨
      v ∈ (s.mem.threads i).pinnedResumableFibers.log ∨
      ∃ x j reg, s.pc f = .scan x j (.fiber reg) ∧ v = s.mem.slotWake x.counter j := by
  cases hp : s.pc f with
  | add w k pc =>
      rw [hp] at hx
      obtain ⟨a, r, hmove, -, rfl⟩ := exec_add hx
      cases hmove <;> cases hw
  | scan x k pc =>
      rw [hp] at hx
      obtain ⟨a, r, hmove, -, rfl⟩ := exec_scan hx
      cases hmove with
      | @fiber reg =>
          cases hw
          exact Or.inr (Or.inr (Or.inr ⟨x, k, reg, rfl, rfl⟩))
      | won _ => cases hw
      | unpinned _ => cases hw
      | pinned _ => cases hw
      | unused _ => cases hw
      | occupied _ => cases hw
      | onTarget _ => cases hw
      | _ =>
          simp only [scanNext, nextSlot] at hw
          split at hw
          · cases hw
          · cases hk : x.k <;> rw [hk] at hw <;> cases hw
  | getPop =>
      rw [hp] at hx
      cases hx
      rcases (hq.pinned i).dequeue maxWaiting_capacity with ⟨-, hd⟩ | ⟨u, hu, hout, -, -, -⟩
      · rw [hd] at hw
        cases hw
      · rw [hout] at hw
        cases hw
        exact Or.inr (Or.inr (Or.inl (List.mem_of_getElem? hu)))
  | getUnlock got =>
      rw [hp] at hx
      cases hx
      cases got with
      | none => cases hw
      | some u => exact Or.inl hw
  | tryResume src u =>
      rw [hp] at hx
      simp only [exec] at hx
      split at hx
      · cases hx
        cases hw
      · split at hx <;> cases hx <;> exact Or.inl hw
  | reLock u =>
      rw [hp] at hx
      simp only [exec] at hx
      split at hx <;> cases hx <;> exact Or.inl hw
  | resDeq pc =>
      rw [hp] at hx
      have heffect := Mpmc.dequeueStep_effect s.mem.resumableFibers (ch = .spurious) pc
      simp only [exec] at hx
      split at hx <;> rename_i hr <;> cases hx
      · cases hw
      · cases hw
      · cases hw
        rw [hr] at heffect
        cases heffect with
        | @done pos _ hpub _ _ =>
            have hok := hq.resumable.ok f
            simp only [roles, hp, resumableCaller, hpub, Mpmc.CallerOk] at hok
            refine Or.inr (Or.inl (List.mem_of_getElem? (i := pos) ?_))
            rw [hok.2.2.2.1, hok.2.2.2.2]
  | resEnq k u pc =>
      rw [hp] at hx
      simp only [exec] at hx
      split at hx <;> cases hx
      · exact Or.inl hw
      · cases k <;> cases hw
  | clean k =>
      rw [hp] at hx
      simp only [exec, cleanStep] at hx
      rcases k with _ | _ | (_ | _) <;> split at hx <;> cases hx <;> cases hw
  | idleEnq k v pc =>
      rw [hp] at hx
      simp only [exec] at hx
      rcases k with _ | _ | (_ | _) <;> split at hx <;> cases hx <;> cases hw
  | _ =>
      rw [hp] at hx
      simp only [exec, userStep, beginWait, afterWait, incrementStep, submitNext, afterRelease,
        pinStep, submitTasks, enqueueNext] at hx
      (repeat' split at hx) <;> cases hx <;> cases hw

/-! ## The invariant -/

theorem WakeInv.exec (h : WakeInv s) (hq : QueueInv s) (hc : CallInv cfg s)
    (hx : exec cfg s.mem i f ch (s.pc f) = some (m', p')) : WakeInv ⟨m', s.pc.set f p'⟩ := by
  have hmove := exec_call hx
  have hslot : ∀ c j, Registered s.mem.hist (s.mem.slotWake c j) →
      Registered m'.hist (m'.slotWake c j) :=
    fun c j => slot_registered hc rfl hmove (exec_slots hx c j)
  constructor
  · intro c j huse
    cases exec_slots hx c j with
    | same _ hback => exact hslot c j (h.unused c j (hback huse))
    | publish w hp hcounter _ => exact hslot c j (h.written f c j (by rw [hp, ← hcounter]; rfl))
    | write w _ _ _ hsame => exact hslot c j (h.unused c j (hsame ▸ huse))
  · intro a c j hw
    replace hw : writtenSlot ((s.pc.set f p') a) = some (c, j) := hw
    rw [Table.get_set] at hw
    split at hw
    · rcases written_step hx hw with hold | ⟨w, hp, hcounter⟩
      · exact hslot c j (h.written f c j hold)
      · -- the access has just written it
        obtain ⟨-, hcall, -⟩ := hc.inside f w (by rw [hp]; rfl)
        have hwrote := exec_slots hx c j
        cases hwrote with
        | write v hp' _ hwrite _ =>
            rw [hp] at hp'
            cases hp'
            show Registered m'.hist (m'.slotWake c j)
            rw [hwrite]
            exact ⟨w, hc.call_mono hmove hcall, rfl⟩
        | publish v hp' _ _ =>
            rw [hp] at hp'
            cases hp'
        | same hsame _ =>
            rw [hp] at hx
            obtain ⟨b, r, hadd, rfl, -⟩ := exec_add hx
            cases hadd with
            | writeFiber =>
                refine ⟨w, hc.call_mono hmove ?_, ?_⟩
                · simp [Mem.slotWake, addMem, hcounter, AtomicCounter.slot_setSlot,
                    WaitingFiber.wake, hcall]
                · simp [Mem.slotWake, addMem, hcounter, AtomicCounter.slot_setSlot,
                    WaitingFiber.wake]
    · exact hslot c j (h.written a c j hw)
  · intro a c j hw
    replace hw : claimedSlot ((s.pc.set f p') a) = some (c, j) := hw
    rw [Table.get_set] at hw
    split at hw
    · rcases claimed_step hx hw with hold | hfree
      · exact hslot c j (h.claimed f c j hold)
      · exact hslot c j (h.unused c j hfree)
    · exact hslot c j (h.claimed a c j hw)
  · intro a v hw
    replace hw : heldWake ((s.pc.set f p') a) = some v := hw
    rw [Table.get_set] at hw
    split at hw
    · rcases held_step hq hx hw with hold | hlog | hlog | ⟨x, j, reg, hp, rfl⟩
      · exact (h.held f v hold).mono hc hmove
      · exact (h.resumable v hlog).mono hc hmove
      · exact (h.pinned i v hlog).mono hc hmove
      · exact (h.claimed f x.counter j (by rw [hp]; rfl)).mono hc hmove
    · exact (h.held a v hw).mono hc hmove
  · intro v hv
    rcases mem_log_resumable hx hv with hold | ⟨k, pc, hp⟩
    · exact (h.resumable v hold).mono hc hmove
    · exact (h.held f v (by rw [hp]; rfl)).mono hc hmove
  · intro t v hv
    rcases mem_log_pinned hq.pinned hx hv with hold | ⟨-, hp⟩ | ⟨x, j, reg, hp, rfl⟩
    · exact (h.pinned t v hold).mono hc hmove
    · exact (h.held f v (by rw [hp]; rfl)).mono hc hmove
    · exact (h.claimed f x.counter j (by rw [hp]; rfl)).mono hc hmove

theorem WakeInv.start (cfg : Config) : WakeInv (start cfg) := by
  have hpc : ∀ a, writtenSlot ((Scheduler.start cfg).pc a) = none ∧
      claimedSlot ((Scheduler.start cfg).pc a) = none ∧ heldWake ((Scheduler.start cfg).pc a) = none := by
    intro a
    rw [start_pc]
    split
    · exact ⟨rfl, rfl, rfl⟩
    · split <;> exact ⟨rfl, rfl, rfl⟩
  constructor
  · intro c j huse
    cases huse
  · intro a c j hw
    rw [(hpc a).1] at hw
    cases hw
  · intro a c j hw
    rw [(hpc a).2.1] at hw
    cases hw
  · intro a v hw
    rw [(hpc a).2.2] at hw
    cases hw
  · intro v hv
    cases hv
  · intro t v hv
    cases hv

end Steps

/-- The invariants that hold whatever the programs do. -/
structure BaseInv (cfg : Config) (s : State) : Prop extends FibersInv cfg s where
  calls : CallInv cfg s
  wakes : WakeInv s

theorem BaseInv.start {cfg : Config} (hcfg : cfg.Ok) : BaseInv cfg (start cfg) :=
  ⟨.start hcfg, .start cfg, .start cfg⟩

theorem BaseInv.step {cfg : Config} {s s' : State} {l : Label} (h : BaseInv cfg s)
    (hs : step cfg s l = some s') : BaseInv cfg s' := by
  have hf := h.toFibersInv.step hs
  obtain ⟨-, hi, m', p', hx, rfl⟩ := step_eq_some.1 hs
  exact ⟨hf, h.calls.exec h.fibers hi hx, h.wakes.exec h.queues h.calls hx⟩

end TaskDispatcher.Scheduler
