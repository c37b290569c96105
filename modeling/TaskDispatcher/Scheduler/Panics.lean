import TaskDispatcher.Scheduler.Capacity

/-!
# What a failed assertion says

Three assertions report that something has run out.  Each is decided by
accesses made one after the other, so what it reports is compared with the
states that the failing call has been in.
-/

namespace TaskDispatcher.Scheduler

open TaskDispatcher.Library TaskDispatcher.Container

/-! ## What the assertions claim -/

/-- The counter index that a call of `acquireCounterHandle` has taken out. -/
def acquired (q : Mpmc Nat) : PC → Option Nat
  | .freeDeq _ pc => pc.claimed.bind (q.log[·]?)
  | .resetCount c _ => some c
  | .resetSlot c _ _ => some c
  | .acquireHandle c _ => some c
  | _ => none

/-- Every counter index has a live handle or is held by an acquisition of an agent
other than `a`. -/
def CountersTaken (cfg : Config) (s : State) (a : Nat) : Prop :=
  ∀ c, c < cfg.maxNumCounters → (∃ h x, s.mem.handles h = some x ∧ x.counterIndex = c) ∨
    ∃ b, b ≠ a ∧ acquired s.mem.freeCounters (s.pc b) = some c

/-- The positions claimed by enqueues and not by dequeues are as many as the queue has cells. -/
def TasksFull (cfg : Config) (s : State) : Prop :=
  s.mem.tasks.enqueuePos = s.mem.tasks.dequeuePos + cfg.maxNumTasks

def SlotsTaken (s : State) (c : Nat) : Prop :=
  ∀ j, j < maxWaiting → (s.mem.counters c).freeWaitingSlots j = false

/-- An access of `acquireCounterHandle`. -/
def acquires : PC → Bool
  | .freeDeq _ _ => true
  | .resetCount _ _ => true
  | .resetSlot _ _ _ => true
  | .acquireHandle _ _ => true
  | _ => false

/-- An access of the enqueues of `submitTasks`. -/
def submits : PC → Bool
  | .taskEnq _ _ _ => true
  | _ => false

/-- An access of `counterAddWaitingFiber` for the call `w`. -/
def adds (w : WaitCall) : PC → Bool
  | .add v _ _ => v = w
  | _ => false

/-- Agent `a` stays in one call from step `j` to step `k`. -/
def During (inCall : PC → Bool) (σ : Nat → State) (a j k : Nat) : Prop :=
  j ≤ k ∧ ∀ x, j ≤ x → x ≤ k → inCall ((σ x).pc a) = true

/-- What a failed assertion reports was so at some step of the call that fails. -/
structure Truthful (cfg : Config) (σ : Nat → State) (ℓ : Nat → Label) (n : Nat) : Prop where
  counters : ∀ k, k < n → (σ (k + 1)).mem.panic = some .noFreeCounter →
    ∃ j, During acquires σ ((σ k).mem.running (ℓ k).thread) j k ∧
      CountersTaken cfg (σ j) ((σ k).mem.running (ℓ k).thread)
  tasks : ∀ k, k < n → (σ (k + 1)).mem.panic = some .taskQueueFull →
    ∃ j, During submits σ ((σ k).mem.running (ℓ k).thread) j k ∧ TasksFull cfg (σ j)
  slots : ∀ k, k < n → (σ (k + 1)).mem.panic = some .waitingSlotsFull →
    ∃ w j, During (adds w) σ ((σ k).mem.running (ℓ k).thread) j k ∧ SlotsTaken (σ j) w.counter

/-- The slot whose flag an access sets free. -/
def setsFree : PC → Option (Nat × Nat)
  | .add w j .free => some (w.counter, j)
  | .scan x j (.release _) => some (x.counter, j)
  | .resetSlot c j _ => some (c, j)
  | _ => none

/-- The step does not take what is on its way for what is missing. -/
structure Settled (s : State) (l : Label) : Prop where
  /-- no release holds an index when an acquisition finds nothing in its cell -/
  released : ∀ k pos, s.pc (s.mem.running l.thread) = .freeDeq k (.sequence pos) →
    (s.mem.freeCounters.cell pos).sequence < pos + 1 → ∀ a k c pc, s.pc a ≠ .freeEnq k c pc
  /-- no dequeue still holds the cell that an enqueue one lap later looks at -/
  free : ∀ k c pos, s.pc (s.mem.running l.thread) = .freeEnq k c (.sequence pos) →
    ∀ a p, (freeCaller (s.pc a)).claimed = some (.inr p) → p + s.mem.freeCounters.size ≠ pos
  tasks : ∀ sub t pos, s.pc (s.mem.running l.thread) = .taskEnq sub t (.sequence pos) →
    ∀ a p, (taskCaller (s.pc a)).claimed = some (.inr p) → p + s.mem.tasks.size ≠ pos
  /-- no slot is set free behind a waiter that looks for one -/
  behind : ∀ c i, setsFree (s.pc (s.mem.running l.thread)) = some (c, i) →
    ∀ a w j, s.pc a = .add w j .acquire → w.counter = c → j ≤ i

/-- The submission that a scan is part of. -/
def ScanK.submission : ScanK → Option Submission
  | .submit sub => some sub
  | _ => none

section Steps

variable {cfg : Config} {s s' : State} {m m' : Mem} {i f : Nat} {ch : Choice} {p p' : PC} {l : Label}

/-! ## The accesses that fail -/

/-- The accesses at which an assertion fails. -/
inductive Fails (m : Mem) (ch : Choice) : PC → Panic → Prop where
  | noFreeCounter {k pos} : (m.freeCounters.cell pos).sequence < pos + 1 →
      Fails m ch (.freeDeq k (.sequence pos)) .noFreeCounter
  | taskQueueFull {sub t pc b} : (Mpmc.enqueueStep 0 t (ch = .spurious) m.tasks pc).2 = .inr b →
      (sub.success && b) = false → Fails m ch (.taskEnq sub t pc) .taskQueueFull
  | waitingSlotsFull {w j} : (m.counters w.counter).freeWaitingSlots j = false →
      maxWaiting ≤ j + 1 → Fails m ch (.add w j .acquire) .waitingSlotsFull

theorem exec_fails (hx : exec cfg m i f ch p = some (m', p')) (hm : m.panic = none) {e : Panic}
    (he : m'.panic = some e) : Fails m ch p e := by
  cases p with
  | add w j pc =>
      obtain ⟨a, r, hmove, rfl, -⟩ := exec_add hx
      cases hmove with
      | full hfree hle =>
          cases he
          exact .waitingSlotsFull hfree hle
      | _ => simp [addMem, hm] at he
  | freeDeq k pc =>
      have heffect := Mpmc.dequeueStep_effect m.freeCounters (ch = .spurious) pc
      simp only [exec] at hx
      split at hx <;> rename_i hr <;> cases hx <;> rw [hr] at heffect
      · rw [hm] at he
        cases he
      · cases he
        cases heffect with
        | empty hpc hneg _ =>
            rw [hpc]
            rw [Mpmc.diff_zero] at hneg
            exact .noFreeCounter (by omega)
      · rw [hm] at he
        cases he
  | taskEnq sub t pc =>
      simp only [exec, submitNext] at hx
      split at hx
      · cases hx
        rw [hm] at he
        cases he
      · rename_i b hr
        split at hx
        · split at hx
          · cases hx
            rw [hm] at he
            cases he
          · rename_i hsuccess
            cases hx
            cases he
            exact .taskQueueFull hr (by simpa using hsuccess)
        · cases hx
          rw [hm] at he
          cases he
  | _ =>
      simp only [exec, userStep, beginWait, afterWait, incrementStep, afterRelease, cleanStep,
        pinStep, submitTasks] at hx
      (repeat' split at hx) <;> cases hx <;> (rw [hm] at he; cases he)

/-! ## The invariant -/

structure PanicInv (cfg : Config) (s : State) : Prop where
  queues : QueueInv s
  free_size : s.mem.freeCounters.size = cfg.maxNumCounters
  tasks_size : s.mem.tasks.size = cfg.maxNumTasks
  counters : CounterInv cfg s
  total : Total (· < cfg.maxNumCounters) (counterAt s)
  /-- a waiter has found the slots it has passed taken -/
  passed : ∀ a w j, s.pc a = .add w j .acquire → ∀ i, i < j →
    (s.mem.counters w.counter).freeWaitingSlots i = false

/-- Only the accesses of `setsFree` set a slot free. -/
theorem freed_step (hx : exec cfg m i f ch p = some (m', p')) {c j : Nat}
    (hfree : (m'.counters c).freeWaitingSlots j = true) :
    (m.counters c).freeWaitingSlots j = true ∨ setsFree p = some (c, j) := by
  cases p with
  | add w k pc =>
      obtain ⟨a, r, hmove, rfl, -⟩ := exec_add hx
      have hcounters : (addMem m w a r).counters = m.counters.set w.counter a := by cases r <;> rfl
      rw [hcounters, Table.get_set] at hfree
      split at hfree
      · rename_i hc
        subst hc
        cases hmove with
        | acquire _ =>
            rw [AtomicCounter.free_setFree] at hfree
            split at hfree
            · cases hfree
            · exact Or.inl hfree
        | free =>
            rw [AtomicCounter.free_setFree] at hfree
            split at hfree
            · rename_i hj
              exact Or.inr (by rw [hj]; rfl)
            · exact Or.inl hfree
        | _ => exact Or.inl hfree
      · exact Or.inl hfree
  | scan x k pc =>
      obtain ⟨a, r, hmove, rfl, -⟩ := exec_scan hx
      simp only [Table.get_set] at hfree
      split at hfree
      · rename_i hc
        subst hc
        cases hmove with
        | release =>
            rw [AtomicCounter.free_setFree] at hfree
            split at hfree
            · rename_i hj
              exact Or.inr (by rw [hj]; rfl)
            · exact Or.inl hfree
        | _ => exact Or.inl hfree
      · exact Or.inl hfree
  | resetSlot c' k h =>
      cases hx
      simp only [Table.get_set] at hfree
      split at hfree
      · rename_i hc
        subst hc
        rw [AtomicCounter.free_setFree] at hfree
        split at hfree
        · rename_i hj
          exact Or.inr (by rw [hj]; rfl)
        · exact Or.inl hfree
      · exact Or.inl hfree
  | _ =>
      simp only [exec, userStep, beginWait, afterWait, incrementStep, submitNext, afterRelease,
        cleanStep, pinStep, submitTasks, enqueueNext] at hx
      (repeat' split at hx) <;> cases hx <;> first
        | exact Or.inl hfree
        | (simp only [Table.get_set] at hfree
           split at hfree
           · rename_i hc
             subst hc
             exact Or.inl hfree
           · exact Or.inl hfree)

/-- How a waiter comes to look at slot `j`. -/
theorem acquire_step (hx : exec cfg m i f ch p = some (m', p')) {w : WaitCall} {j : Nat}
    (hp' : p' = .add w j .acquire) : j = 0 ∨ p = .add w j .acquire ∨
      ∃ k, j = k + 1 ∧ p = .add w k .acquire ∧ (m.counters w.counter).freeWaitingSlots k = false := by
  cases p with
  | add v k pc =>
      obtain ⟨a, r, hmove, -, rfl⟩ := exec_add hx
      cases hmove with
      | occupied hfree _ =>
          cases hp'
          exact Or.inr (Or.inr ⟨k, rfl, rfl, hfree⟩)
      | full _ _ =>
          cases hp'
          exact Or.inr (Or.inl rfl)
      | _ => simp [addNext] at hp'
  | scan x k pc =>
      obtain ⟨a, r, -, -, rfl⟩ := exec_scan hx
      cases r with
      | skip =>
          simp only [scanNext, nextSlot] at hp'
          split at hp'
          · cases hp'
          · cases hk : x.k <;> rw [hk] at hp' <;> cases hp'
      | _ => cases hp'
  | waitStore v =>
      cases hx
      cases hp'
      exact Or.inl rfl
  | clean k =>
      simp only [exec, cleanStep] at hx
      rcases k with _ | _ | (_ | _) <;> split at hx <;> cases hx <;> cases hp'
  | idleEnq k v pc =>
      simp only [exec] at hx
      rcases k with _ | _ | (_ | _) <;> split at hx <;> cases hx <;> cases hp'
  | resEnq k v pc =>
      simp only [exec] at hx
      cases k <;> split at hx <;> cases hx <;> cases hp'
  | entry =>
      cases hx
      split at hp' <;> cases hp'
  | loop =>
      cases hx
      split at hp' <;> cases hp'
  | getUnlock got =>
      cases hx
      cases got <;> cases hp'
  | resetSlot c k h =>
      cases hx
      split at hp' <;> cases hp'
  | _ =>
      simp only [exec, userStep, beginWait, afterWait, incrementStep, submitNext, afterRelease,
        pinStep, submitTasks, enqueueNext] at hx
      (repeat' split at hx) <;> cases hx <;> cases hp'

theorem PanicInv.step (h : PanicInv cfg s) (hg : Settled s l) (hs : step cfg s l = some s') :
    PanicInv cfg s' := by
  have hcounters := h.counters.step h.queues hs
  have hqueues := h.queues.step hs
  obtain ⟨-, -, m', p', hx, rfl⟩ := step_eq_some.1 hs
  have hfree : ∀ k c pc, s.pc (s.mem.running l.thread) = .freeEnq k c pc →
      (Mpmc.enqueueStep 0 c false s.mem.freeCounters pc).2 ≠ .inr false :=
    fun k c pc hpc => free_succeeds h.queues h.free_size h.counters hpc
      fun pos hpos => hg.free k c pos (by rw [hpc, hpos])
  refine ⟨hqueues, (exec_free hx).size.trans h.free_size, (exec_tasks hx).size.trans h.tasks_size,
    hcounters, (exec_counters h.queues hx).total hfree h.total, ?_⟩
  intro a w j ha i hi
  -- what was passed stays taken, as no access of this step frees it
  have hkept : ∀ b k, s.pc b = .add w k .acquire → i < k →
      (m'.counters w.counter).freeWaitingSlots i = false := by
    intro b k hb hik
    by_contra hne
    rcases freed_step hx (Bool.eq_true_of_not_eq_false hne) with hold | hset
    · rw [h.passed b w k hb i hik] at hold
      cases hold
    · have := hg.behind _ _ hset b w k hb rfl
      omega
  simp only [Table.get_set] at ha
  split at ha
  · rcases acquire_step hx ha with rfl | hpc | ⟨k, rfl, hpc, htaken⟩
    · omega
    · exact hkept _ j hpc hi
    · rcases Nat.lt_or_ge i k with hlt | hge
      · exact hkept _ k hpc hlt
      · obtain rfl : i = k := by omega
        by_contra hne
        rcases freed_step hx (Bool.eq_true_of_not_eq_false hne) with hold | hset
        · rw [htaken] at hold
          cases hold
        · rw [hpc] at hset
          cases hset
  · exact hkept a j ha hi

theorem PanicInv.start (hcfg : cfg.Ok) : PanicInv cfg (start cfg) where
  queues := .start hcfg
  free_size := (SizeInv.start hcfg).free
  tasks_size := by
    obtain ⟨-, -, k, hk, htasks⟩ := hcfg
    show cfg.maxNumTasks - 1 + 1 = cfg.maxNumTasks
    have := Nat.two_pow_pos k
    omega
  counters := .start hcfg
  total := total_counters_start hcfg
  passed a w j ha := by
    rw [start_pc] at ha
    split at ha
    · cases ha
    · split at ha <;> cases ha

/-! ## Free counters -/

/-- An acquisition that finds nothing meets a pool from which everything is taken. -/
theorem PanicInv.countersTaken (h : PanicInv cfg s) (hg : Settled s l) {k : HandleK} {pos : Nat}
    (hpc : s.pc (s.mem.running l.thread) = .freeDeq k (.sequence pos))
    (hseq : (s.mem.freeCounters.cell pos).sequence < pos + 1) :
    CountersTaken cfg s (s.mem.running l.thread) := by
  have hnone := hg.released k pos hpc hseq
  have hpos : pos ≤ s.mem.freeCounters.dequeuePos := by
    have hok := h.queues.free.ok (s.mem.running l.thread)
    simp only [roles, hpc, freeCaller, Mpmc.CallerOk] at hok
    exact hok
  have hempty : s.mem.freeCounters.enqueuePos = s.mem.freeCounters.dequeuePos := by
    obtain ⟨-, he | ⟨a, ha⟩⟩ := h.queues.free.empty_or_stalled hpos hseq
    · exact he
    · simp only [roles] at ha
      cases hp : s.pc a with
      | freeEnq k c pc => exact absurd hp (hnone a k c pc)
      | freeDeq k pc =>
          rw [hp] at ha
          cases pc <;> cases ha
      | _ =>
          rw [hp] at ha
          cases ha
  intro c hc
  obtain ⟨P, hP⟩ := h.total c hc
  cases P with
  | free p =>
      have hlen := h.queues.free.log_length
      simp only [counterAt, Mpmc.entry] at hP
      split at hP
      · have hlt := (List.getElem?_eq_some_iff.1 hP).1
        omega
      · cases hP
  | handle x =>
      obtain ⟨y, hy, hindex⟩ := Option.map_eq_some_iff.1 hP
      exact Or.inl ⟨x, y, hy, hindex⟩
  | hand b =>
      refine Or.inr ⟨b, ?_, ?_⟩
      · rintro rfl
        simp only [counterAt, hpc, counterHand, DequeuePC.claimed, Option.bind_none] at hP
        cases hP
      · simp only [counterAt] at hP
        cases hp : s.pc b with
        | freeEnq k c pc => exact absurd hp (hnone b k c pc)
        | _ =>
            rw [hp] at hP
            exact hP

/-! ## The task queue -/

/-- The submission an agent is in, or returns to after a scan. -/
def submission : PC → Option Submission
  | .taskEnq sub _ _ => some sub
  | .scan x _ _ => x.k.submission
  | .pin x _ _ _ _ => x.k.submission
  | .resEnq (.scan x _) _ _ => x.k.submission
  | _ => none

/-- An enqueue of the submission has failed. -/
def failing (p : PC) : Prop := ∃ sub, submission p = some sub ∧ sub.success = false

theorem submission_nextSlot (x : Scan) (j : Nat) : submission (nextSlot x j) = x.k.submission := by
  unfold nextSlot
  split
  · rfl
  · cases h : x.k <;> rfl

theorem failing_step (hx : exec cfg m i f ch p = some (m', p')) (hp' : failing p') : failing p ∨
    ∃ sub t pc, p = .taskEnq sub t pc ∧
      (Mpmc.enqueueStep 0 t (ch = .spurious) m.tasks pc).2 = .inr false := by
  have hsame : submission p' = submission p → failing p := by
    intro heq
    obtain ⟨sub, hsub, hfalse⟩ := hp'
    exact ⟨sub, heq ▸ hsub, hfalse⟩
  cases p with
  | scan x j pc =>
      obtain ⟨a, r, -, -, rfl⟩ := exec_scan hx
      cases r with
      | skip => exact Or.inl (hsame (submission_nextSlot x j))
      | _ => exact Or.inl (hsame rfl)
  | pin x j reg t pc =>
      cases pc with
      | lock =>
          simp only [exec, pinStep] at hx
          split at hx <;> cases hx <;> exact Or.inl (hsame rfl)
      | push =>
          cases hx
          exact Or.inl (hsame rfl)
      | unlock =>
          cases hx
          exact Or.inl (hsame rfl)
  | resEnq k v pc =>
      simp only [exec] at hx
      split at hx <;> cases hx
      · exact Or.inl (hsame (by cases k <;> rfl))
      · exact Or.inl (hsame (by cases k <;> rfl))
  | taskEnq sub t pc =>
      simp only [exec, submitNext] at hx
      split at hx
      · cases hx
        exact Or.inl (hsame rfl)
      · rename_i b hr
        obtain ⟨sub', hsub', hfalse⟩ := hp'
        (repeat' split at hx) <;> cases hx <;> cases hsub'
        rcases Bool.and_eq_false_iff.1 hfalse with hfalse | rfl
        · exact Or.inl ⟨sub, rfl, hfalse⟩
        · exact Or.inr ⟨sub, t, pc, rfl, hr⟩
  | increment inc =>
      obtain ⟨sub, hsub, hfalse⟩ := hp'
      simp only [exec, incrementStep] at hx
      split at hx <;> cases hx <;> cases hsub
      cases hfalse
  | add w j pc =>
      obtain ⟨a, r, -, -, rfl⟩ := exec_add hx
      obtain ⟨sub, hsub, -⟩ := hp'
      rcases r with _ | (_ | _) | _ <;> cases hsub
  | clean k =>
      obtain ⟨sub, hsub, -⟩ := hp'
      simp only [exec, cleanStep] at hx
      rcases k with _ | _ | (_ | _) <;> split at hx <;> cases hx <;> cases hsub
  | idleEnq k v pc =>
      obtain ⟨sub, hsub, -⟩ := hp'
      simp only [exec] at hx
      rcases k with _ | _ | (_ | _) <;> split at hx <;> cases hx <;> cases hsub
  | entry =>
      obtain ⟨sub, hsub, -⟩ := hp'
      cases hx
      split at hsub <;> cases hsub
  | loop =>
      obtain ⟨sub, hsub, -⟩ := hp'
      cases hx
      split at hsub <;> cases hsub
  | getUnlock got =>
      obtain ⟨sub, hsub, -⟩ := hp'
      cases hx
      cases got <;> cases hsub
  | resetSlot c k h =>
      obtain ⟨sub, hsub, -⟩ := hp'
      cases hx
      split at hsub <;> cases hsub
  | _ =>
      obtain ⟨sub, hsub, -⟩ := hp'
      simp only [exec, userStep, beginWait, afterWait, afterRelease, submitTasks] at hx
      (repeat' split at hx) <;> cases hx <;> cases hsub

theorem submits_step {sub : Submission} {t : Task} {pc : EnqueuePC}
    (hx : exec cfg m i f ch (.taskEnq sub t pc) = some (m', p')) (hp' : failing p') :
    submits p' = true := by
  obtain ⟨sub', hsub', -⟩ := hp'
  simp only [exec, submitNext] at hx
  split at hx
  · cases hx
    rfl
  · (repeat' split at hx) <;> cases hx <;> first | rfl | cases hsub'

/-- A failing enqueue of a task meets a queue that is full. -/
theorem PanicInv.tasksFull (h : PanicInv cfg s) (hg : Settled s l) {sub : Submission} {t : Task}
    {pc : EnqueuePC} {b : Bool} (hpc : s.pc (s.mem.running l.thread) = .taskEnq sub t pc)
    (hfail : (Mpmc.enqueueStep 0 t b s.mem.tasks pc).2 = .inr false) : TasksFull cfg s := by
  obtain ⟨pos, rfl⟩ := sequence_of_fails hfail
  have hfull := full_of_fails h.queues.tasks (a := s.mem.running l.thread)
    (by simp only [roles, hpc, taskCaller]) (hg.tasks sub t pos hpc) hfail
  rwa [h.tasks_size] at hfull

end Steps

/-! ## Runs -/

section Runs

variable {cfg : Config} {σ : Nat → State} {ℓ : Nat → Label} {n : Nat}

theorem During.extend {inCall : PC → Bool} {a j k : Nat} (h : During inCall σ a j k)
    (hnext : inCall ((σ (k + 1)).pc a) = true) : During inCall σ a j (k + 1) := by
  refine ⟨Nat.le_succ_of_le h.1, fun x hj hk => ?_⟩
  rcases Nat.lt_or_ge x (k + 1) with hlt | hge
  · exact h.2 x hj (by omega)
  · obtain rfl : x = k + 1 := by omega
    exact hnext

theorem During.here {inCall : PC → Bool} {a k : Nat} (h : inCall ((σ k).pc a) = true) :
    During inCall σ a k k := by
  refine ⟨Nat.le_refl k, fun x hj hk => ?_⟩
  obtain rfl : x = k := by omega
  exact h

/-- A submission that is failing has met a full queue. -/
theorem failing_of_run (h : Run (step cfg) (start cfg) σ ℓ n)
    (hinv : ∀ k, k ≤ n → PanicInv cfg (σ k)) (hg : ∀ k, k < n → Settled (σ k) (ℓ k)) {k : Nat}
    (hk : k ≤ n) {a : Nat} (ha : failing ((σ k).pc a)) :
    ∃ j, During submits σ a j k ∧ TasksFull cfg (σ j) := by
  induction k generalizing a with
  | zero =>
      obtain ⟨sub, hsub, -⟩ := ha
      rw [h.start, start_pc] at hsub
      split at hsub
      · cases hsub
      · split at hsub <;> cases hsub
  | succ k ih =>
      obtain ⟨-, -, m', p', hx, hnext⟩ := step_eq_some.1 (h.next k (by omega))
      by_cases haf : a = (σ k).mem.running (ℓ k).thread
      · subst haf
        have hp' : (σ (k + 1)).pc ((σ k).mem.running (ℓ k).thread) = p' := by
          rw [hnext]
          simp
        rw [hp'] at ha
        have hfrom : ∃ j, During submits σ ((σ k).mem.running (ℓ k).thread) j k ∧
            TasksFull cfg (σ j) := by
          rcases failing_step hx ha with hold | ⟨sub, t, pc, hpc, hfail⟩
          · exact ih (by omega) hold
          · refine ⟨k, .here (by rw [hpc]; rfl), ?_⟩
            exact (hinv k (by omega)).tasksFull (hg k (by omega)) hpc hfail
        obtain ⟨j, hduring, hfull⟩ := hfrom
        refine ⟨j, hduring.extend ?_, hfull⟩
        rw [hp']
        have hsubmits := hduring.2 k hduring.1 (Nat.le_refl k)
        cases hpc : (σ k).pc ((σ k).mem.running (ℓ k).thread) with
        | taskEnq sub t pc =>
            rw [hpc] at hx
            exact submits_step hx ha
        | _ =>
            rw [hpc] at hsubmits
            cases hsubmits
      · have hsame : (σ (k + 1)).pc a = (σ k).pc a := by
          rw [hnext]
          simp [Table.get_set, haf]
        rw [hsame] at ha
        obtain ⟨j, hduring, hfull⟩ := ih (by omega) ha
        refine ⟨j, hduring.extend ?_, hfull⟩
        rw [hsame]
        exact hduring.2 k hduring.1 (Nat.le_refl k)

end Runs

/-- An assertion fails only when what it reports has been so. -/
theorem truthful_of_run {cfg : Config} (hcfg : cfg.Ok) {σ : Nat → State} {ℓ : Nat → Label}
    {n : Nat} (h : Run (step cfg) (start cfg) σ ℓ n) (hg : ∀ k, k < n → Settled (σ k) (ℓ k)) :
    Truthful cfg σ ℓ n := by
  have hinv : ∀ k, k ≤ n → PanicInv cfg (σ k) :=
    h.guarded (.start hcfg) (fun s l s' hI hG hs => hI.step hG hs) hg
  have hfails : ∀ k, k < n → ∀ e, (σ (k + 1)).mem.panic = some e →
      Fails (σ k).mem (ℓ k).choice ((σ k).pc ((σ k).mem.running (ℓ k).thread)) e := by
    intro k hk e he
    obtain ⟨hpanic, -, m', p', hx, hnext⟩ := step_eq_some.1 (h.next k hk)
    rw [hnext] at he
    exact exec_fails hx hpanic he
  refine ⟨fun k hk he => ?_, fun k hk he => ?_, fun k hk he => ?_⟩
  · have hfail := hfails k hk _ he
    cases hpc : (σ k).pc ((σ k).mem.running (ℓ k).thread) with
    | freeDeq x pc =>
        rw [hpc] at hfail
        cases hfail with
        | noFreeCounter hseq =>
            exact ⟨k, .here (by rw [hpc]; rfl),
              (hinv k (by omega)).countersTaken (hg k hk) hpc hseq⟩
    | _ =>
        rw [hpc] at hfail
        cases hfail
  · have hfail := hfails k hk _ he
    cases hpc : (σ k).pc ((σ k).mem.running (ℓ k).thread) with
    | taskEnq sub t pc =>
        rw [hpc] at hfail
        cases hfail with
        | taskQueueFull hr hfalse =>
            -- this enqueue has failed, or an earlier one of the same submission
            rcases Bool.and_eq_false_iff.1 hfalse with hfalse | rfl
            · exact failing_of_run h hinv hg (by omega) ⟨sub, by rw [hpc]; rfl, hfalse⟩
            · exact ⟨k, .here (by rw [hpc]; rfl), (hinv k (by omega)).tasksFull (hg k hk) hpc hr⟩
    | _ =>
        rw [hpc] at hfail
        cases hfail
  · have hfail := hfails k hk _ he
    cases hpc : (σ k).pc ((σ k).mem.running (ℓ k).thread) with
    | add w j pc =>
        rw [hpc] at hfail
        cases hfail with
        | waitingSlotsFull hfree hle =>
            refine ⟨w, k, .here (by rw [hpc]; simp [adds]), fun i hi => ?_⟩
            rcases Nat.lt_or_ge i j with hlt | hge
            · exact (hinv k (by omega)).passed _ w j hpc i hlt
            · obtain rfl : i = j := by omega
              exact hfree
    | _ =>
        rw [hpc] at hfail
        cases hfail

/-! ## The condition computed -/

/-- A release that has freed its handle and not yet put its index back. -/
def releases : PC → Bool
  | .freeEnq _ _ _ => true
  | _ => false

/-- A waiter on `c` that has passed slot `i` in its search for a free one. -/
def passes (c i : Nat) : PC → Bool
  | .add w j .acquire => w.counter = c && i < j
  | _ => false

def settled (s : State) (l : Label) : Bool :=
  match s.pc (s.mem.running l.thread) with
  | .freeDeq _ (.sequence pos) =>
      pos + 1 ≤ (s.mem.freeCounters.cell pos).sequence || !somePC releases s
  | .freeEnq _ _ (.sequence pos) => !stalls freeCaller s s.mem.freeCounters.size pos
  | .taskEnq _ _ (.sequence pos) => !stalls taskCaller s s.mem.tasks.size pos
  | p =>
      match setsFree p with
      | some (c, i) => !somePC (passes c i) s
      | none => true

theorem Settled.of_settled {s : State} {l : Label} (h : settled s l = true) : Settled s l where
  released k pos hpc hseq a k' c pc ha := by
    simp only [settled, hpc, Bool.or_eq_true, decide_eq_true_eq, Bool.not_eq_true'] at h
    rcases h with hle | hno
    · omega
    · have hfalse := not_of_somePC_false hno a
      rw [ha] at hfalse
      cases hfalse
  free k c pos hpc a p hp := by
    simp only [settled, hpc, Bool.not_eq_true'] at h
    exact ne_of_not_stalls h hp
  tasks sub t pos hpc a p hp := by
    simp only [settled, hpc, Bool.not_eq_true'] at h
    exact ne_of_not_stalls h hp
  behind c i hset a w j ha hc := by
    have hno : somePC (passes c i) s = false := by
      cases hpc : s.pc (s.mem.running l.thread) with
      | add w j pc =>
          rw [hpc] at hset
          cases pc <;> simp [setsFree] at hset
          simpa [settled, hpc, setsFree, hset] using h
      | scan x j pc =>
          rw [hpc] at hset
          cases pc <;> simp [setsFree] at hset
          simpa [settled, hpc, setsFree, hset] using h
      | resetSlot c' j k =>
          rw [hpc] at hset
          simp [setsFree] at hset
          simpa [settled, hpc, setsFree, hset] using h
      | _ =>
          rw [hpc] at hset
          cases hset
    have hfalse := not_of_somePC_false hno a
    simp only [ha, passes, hc, decide_true, Bool.true_and, decide_eq_false_iff_not] at hfalse
    omega

/-- The main task acquires both counters. -/
def bothLabels : List Label :=
  goes 0 7 ++ calls 0 .acquire 38 ++ [⟨0, .handle 0⟩] ++ calls 0 .acquire 38 ++ [⟨0, .handle 1⟩]

/-- It asks for a third one. -/
def exhaustedLabels : List Label := bothLabels ++ calls 0 .acquire 2

theorem truthful_exhausted :
    Truthful pairConfig (trace (step pairConfig) (start pairConfig) exhaustedLabels)
      (fun k => exhaustedLabels.getD k ⟨0, .go⟩) exhaustedLabels.length := by
  have hrun : follows (step pairConfig) settled (start pairConfig) exhaustedLabels = true := by
    decide +kernel
  exact truthful_of_run pairConfig_ok (Run.of_follows ⟨0, .go⟩ hrun)
    fun k hk => .of_settled (trace_ok ⟨0, .go⟩ hrun k hk)

/-- A task on thread `1` has released the second handle and not yet put the index
back when the main task asks for a counter. -/
def releasingLabels : List Label :=
  bothLabels ++ calls 0 (.submitOn 0 1) 38 ++ goes 1 19 ++ calls 1 (.release 1) 2 ++
    calls 0 .acquire 2

/-- An index on its way back to the pool is not taken. -/
theorem CounterInv.not_countersTaken {cfg : Config} {s : State} (h : CounterInv cfg s) {a b c : Nat}
    {k : ReleaseK} {pc : EnqueuePC} (hb : s.pc b = .freeEnq k c pc) (hpc : pc.claimed = false) :
    ¬ CountersTaken cfg s a := by
  intro htaken
  have hhand : counterAt s (.hand b) = some c := by
    simp [counterAt, hb, counterHand, hpc]
  rcases htaken c (h.range _ _ hhand) with ⟨x, y, hy, hc⟩ | ⟨d, -, hd⟩
  · have hhandle : counterAt s (.handle x) = some c := by simp [counterAt, hy, hc]
    cases h.linear _ _ _ hhand hhandle
  · have hother : counterAt s (.hand d) = some c := by
      simp only [counterAt]
      cases hp : s.pc d with
      | freeDeq _ _ => rwa [hp] at hd
      | resetCount _ _ => rwa [hp] at hd
      | resetSlot _ _ _ => rwa [hp] at hd
      | acquireHandle _ _ => rwa [hp] at hd
      | _ =>
          rw [hp] at hd
          cases hd
    obtain rfl : b = d := CounterPlace.hand.inj (h.linear _ _ _ hhand hother)
    rw [hb] at hd
    cases hd

theorem not_truthful :
    ¬ ∀ (cfg : Config), cfg.Ok → ∀ (σ : Nat → State) (ℓ : Nat → Label) (n : Nat),
      Run (step cfg) (start cfg) σ ℓ n → Truthful cfg σ ℓ n := by
  intro h
  have hfollows : follows (step pairConfig) (fun _ _ => true) (start pairConfig) releasingLabels =
      true := by decide +kernel
  have hrun := Run.of_follows ⟨0, .go⟩ hfollows
  obtain ⟨j, ⟨hj, hduring⟩, htaken⟩ :=
    (h pairConfig pairConfig_ok _ _ _ hrun).counters 150 (by decide +kernel) (by decide +kernel)
  -- the call begins after step 148
  have hbegin : 148 < j := by
    by_contra hle
    have hbody := hduring 148 (by omega) (by omega)
    revert hbody
    decide +kernel
  have hinv := hrun.invariant (I := fun s => QueueInv s ∧ CounterInv pairConfig s)
    ⟨.start pairConfig_ok, .start pairConfig_ok⟩ (fun s l s' hI hs => ⟨hI.1.step hs, hI.2.step hI.1 hs⟩)
  have hreleasing : (trace (step pairConfig) (start pairConfig) releasingLabels j).pc 1 =
      .freeEnq .user 1 .load := by
    obtain rfl | rfl : j = 149 ∨ j = 150 := by omega
    · decide +kernel
    · decide +kernel
  have hlen : releasingLabels.length = 151 := by decide +kernel
  exact (hinv j (by omega)).2.not_countersTaken hreleasing rfl htaken

end TaskDispatcher.Scheduler
