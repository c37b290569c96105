import TaskDispatcher.Scheduler.Raceless
import TaskDispatcher.Scheduler.Recycling

/-!
# A scheduler with one thread

With one thread every fiber but the running one stands right after its last
switch.  Nobody stands at a slot, holds a cell of a queue or walks a counter
while somebody else does, so none of the races of several threads can happen.
What is left to show is that a counter comes back to the pool without a waiter.
-/

namespace TaskDispatcher.Scheduler

open TaskDispatcher.Library TaskDispatcher.Container

section Steps

variable {own : Nat → Nat} {cfg : Config} {s s' : State} {m m' : Mem} {i f c : Nat} {ch : Choice}
  {p p' : PC} {l : Label}

/-- A scan begins with an increment of its counter, under the same handle. -/
theorem walk_begin (hx : exec cfg m i f ch p = some (m', p')) {x : Scan} (h : walk p' = some x) :
    walk p = some x ∨ ∃ inc, p = .increment inc ∧ inc.counter = x.counter ∧ inc.life = x.life := by
  by_cases hinc : ∃ inc, p = .increment inc
  · obtain ⟨inc, rfl⟩ := hinc
    right
    simp only [exec, incrementStep] at hx
    split at hx <;> cases hx <;> cases h <;> exact ⟨inc, rfl, rfl, rfl⟩
  · left
    rcases walk_step hx h with hold | ⟨hp', -⟩
    · exact hold
    · subst hp'
      cases p with
      | scan y j pc =>
          obtain ⟨a, r, -, -, hr⟩ := exec_scan hx
          cases r with
          | goto pc =>
              cases hr
              rfl
          | skip =>
              rw [show scanNext y j .skip = nextSlot y j from rfl] at hr
              rw [hr] at h
              rw [walk_nextSlot h]
              rfl
          | _ => cases hr
      | increment inc => exact absurd ⟨inc, rfl⟩ hinc
      | pin y j reg t pc =>
          cases pc <;> simp only [exec, pinStep] at hx <;> (try split at hx) <;> cases hx
      | resEnq k v pc =>
          simp only [exec] at hx
          cases k <;> split at hx <;> cases hx
      | add w j pc =>
          obtain ⟨a, r, -, -, hr⟩ := exec_add hx
          rcases r with _ | (_ | _) | _ <;> cases hr
      | clean k =>
          simp only [exec, cleanStep] at hx
          rcases k with _ | _ | (_ | _) <;> split at hx <;> cases hx
      | idleEnq k v q =>
          simp only [exec] at hx
          rcases k with _ | _ | (_ | _) <;> split at hx <;> cases hx
      | getUnlock got => cases got <;> cases hx
      | loop =>
          simp only [exec] at hx
          split at hx <;> cases hx
      | entry =>
          simp only [exec] at hx
          split at hx <;> cases hx
      | resetSlot d k q =>
          simp only [exec] at hx
          split at hx <;> cases hx
      | _ =>
          simp only [exec, userStep, beginWait, afterWait, submitNext, afterRelease, submitTasks,
            enqueueNext] at hx
          (repeat' split at hx) <;> cases hx

/-- A call of `counterIncrement` of a disciplined program goes by a live handle. -/
theorem live_of_increment (hl : LedgerInv s) (ht : TaskInv s) {inc : Increment}
    (hp : s.pc f = .increment inc) : Live s.mem inc.counter inc.life := by
  cases hk : inc.k with
  | user => exact absurd hk (hl.manual f inc hp)
  | submit num sync =>
      obtain ⟨h, x, hx, hcounter, hlife, -⟩ := hl.submits f inc num sync hp hk
      exact ⟨h, x, hx, hcounter, hlife⟩
  | taskDone n =>
      have hended : taskAt s (.ended f) = some ⟨inc.counter, n, inc.life⟩ := by
        show endedTask (s.pc f) = _
        rw [hp]
        exact endedTask_increment hk
      obtain ⟨hlt, hcounter, hlife⟩ := ht.known _ _ hended
      obtain ⟨h, x, hx, hx', hx'', -⟩ := hl.live n hlt (ht.ended f _ hended).2
      exact ⟨h, x, hx, hx'.trans hcounter, hx''.trans hlife⟩

/-! ## Every agent but one is parked -/

/-- An agent that does not run has not begun, stands right after a switch, or has ended. -/
def Parked (p : PC) : Prop := p = .entry ∨ (∃ k, p = .clean (.yielded k)) ∨ p = .done

namespace Parked

theorem stance (h : Parked p) : stance p = none := by
  rcases h with rfl | ⟨k, rfl⟩ | rfl <;> rfl

theorem walk (h : Parked p) : walk p = none := by
  rcases h with rfl | ⟨k, rfl⟩ | rfl <;> rfl

theorem callers (h : Parked p) : idleCaller p = .idle ∧ resumableCaller p = .idle ∧
    taskCaller p = .idle ∧ freeCaller p = .idle := by
  rcases h with rfl | ⟨k, rfl⟩ | rfl <;> exact ⟨rfl, rfl, rfl, rfl⟩

end Parked

theorem RunInv.parked (h : RunInv cfg s) (hone : cfg.numThreads = 1) {a : Nat}
    (ha : a ≠ s.mem.running 0) : Parked (s.pc a) := by
  rcases Nat.lt_trichotomy a cfg.numFibers with hlt | heq | hgt
  · apply h.fibers.parked a hlt
    intro j hj
    rw [hone] at hj
    rw [show j = 0 by omega]
    exact ha.symm
  · rw [heq] at ha ⊢
    rcases h.fibers.thread 0 (by omega) with ⟨-, hrun, -⟩ | hdone
    · exact absurd hrun.symm ha
    · exact Or.inr (Or.inr hdone)
  · exact Or.inr (Or.inr (h.outside a (by omega)))

/-- What holds of a disciplined program on one thread. -/
structure SoloInv (own : Nat → Nat) (cfg : Config) (s : State) : Prop where
  run : RunInv cfg s
  wait : WaitInv cfg s
  capacity : CapacityInv cfg s
  range : SlotRange s
  task : TaskState own cfg s
  life : LifeInv s
  calls : CallsHeld s
  cover : ∀ c, CoverInv c s
  scans : ∀ a x, walk (s.pc a) = some x → Live s.mem x.counter x.life
  pushes : PushInv s
  recoverable : Recoverable cfg s

namespace SoloInv

variable (h : SoloInv own cfg s) (hone : cfg.numThreads = 1)

include h hone

theorem vacant (hl : l.thread = 0) (c : Nat) : Vacant c s l := by
  intro w j hp hcounter hfree
  rw [hl] at hp
  constructor
  · by_contra hused
    have hflag := (h.cover c).taken j (Bool.eq_false_of_not_eq_true hused)
    rw [hfree] at hflag
    cases hflag
  · intro a q ha
    by_cases haf : a = s.mem.running 0
    · rw [haf, hp] at ha
      cases ha
    · rw [(h.run.parked hone haf).stance] at ha
      cases ha

theorem spaced (hl : l.thread = 0) : Spaced s l where
  idle k v pos hp a p hclaimed := by
    rw [hl] at hp
    by_cases haf : a = s.mem.running 0
    · rw [haf, hp] at hclaimed
      cases hclaimed
    · rw [(h.run.parked hone haf).callers.1] at hclaimed
      cases hclaimed
  resumable k v pos hp a p hclaimed := by
    rw [hl] at hp
    by_cases haf : a = s.mem.running 0
    · rw [haf, hp] at hclaimed
      cases hclaimed
    · rw [(h.run.parked hone haf).callers.2.1] at hclaimed
      cases hclaimed
  free k v pos hp a p hclaimed := by
    rw [hl] at hp
    by_cases haf : a = s.mem.running 0
    · rw [haf, hp] at hclaimed
      cases hclaimed
    · rw [(h.run.parked hone haf).callers.2.2.2] at hclaimed
      cases hclaimed

theorem noStaleScan (hl : l.thread = 0) : NoStaleScan s l := by
  intro u c t hp _ _
  rw [hl] at hp
  right
  intro a x ha
  by_cases haf : a = s.mem.running 0
  · rw [haf, hp] at ha
    cases ha
  · rw [(h.run.parked hone haf).walk] at ha
    cases ha

omit hone in
theorem current : Current s l := by
  intro x j hp _ _
  apply h.scans (s.mem.running l.thread) x
  rw [hp]
  rfl

theorem scans_step (hl : l.thread = 0) (hs : Scheduler.step cfg s l = some s') {a : Nat} {x : Scan}
    (ha : Scheduler.walk (s'.pc a) = some x) : Live s'.mem x.counter x.life := by
  obtain ⟨-, -, m', p', hx, rfl⟩ := step_eq_some.1 hs
  rw [hl] at hx
  have hstays : (∀ k j c, s.pc (s.mem.running 0) ≠ .releaseHandle j c k) →
      Live s.mem x.counter x.life → Live m' x.counter x.life := by
    intro hkept hlive
    obtain ⟨j, y, hy, hcounter, hlife⟩ := hlive
    exact ⟨j, y, handle_stays hx hy fun k => hkept k j _, hcounter, hlife⟩
  replace ha : Scheduler.walk ((s.pc.set (s.mem.running l.thread) p') a) = some x := ha
  rw [hl] at ha
  by_cases haf : a = s.mem.running 0
  · rw [haf, Table.get_set_self] at ha
    rcases walk_begin hx ha with hold | ⟨inc, hp, hcounter, hlife⟩
    · apply hstays ?_ (h.scans _ x hold)
      intro k j c hp
      rw [hp] at hold
      cases hold
    · rw [← hcounter, ← hlife] at hstays ⊢
      apply hstays ?_ (live_of_increment h.task.ledger h.task.task hp)
      intro k j c hp'
      rw [hp] at hp'
      cases hp'
  · rw [Table.get_set_ne _ _ haf, (h.run.parked hone haf).walk] at ha
    cases ha

omit hone in
theorem raceless : Raceless own cfg s where
  run := h.run
  wait := h.wait
  capacity := h.capacity
  range := h.range
  task := h.task
  calls := h.calls
  cover := h.cover
  pushes := h.pushes

theorem step (hd : Disciplined own s l) (hs : Scheduler.step cfg s l = some s') :
    SoloInv own cfg s' := by
  have hl : l.thread = 0 := by
    have hlt := (step_eq_some.1 hs).2.1
    omega
  have hspaced := h.spaced hone hl
  have honce : ReturnedOnce s l := fun k v pc hpc hclaimed pos u hu =>
    h.wait.not_queued hpc hclaimed hu
  have hrace := h.raceless.step (h.vacant hone hl)
    (fun c x j v pos hp _ => hspaced.resumable (.scan x j) v pos hp) hd hs
  have hlife : LifeInv s' := by
    obtain ⟨-, -, m', p', hx, rfl⟩ := step_eq_some.1 hs
    exact h.life.exec h.wait.slots h.wait.calls h.capacity.counters h.current hx
  exact
    { run := hrace.run
      wait := hrace.wait
      capacity := hrace.capacity
      range := hrace.range
      task := hrace.task
      life := hlife
      calls := hrace.calls
      cover := hrace.cover
      scans := fun a x ha => h.scans_step hone hl hs ha
      pushes := hrace.pushes
      recoverable := h.recoverable.step h.capacity hspaced honce hs }

omit h hone in
theorem start (hcfg : cfg.Ok) : SoloInv own cfg (start cfg) := by
  have hrace : Raceless own cfg (Scheduler.start cfg) := .start hcfg
  exact
    { run := hrace.run
      wait := hrace.wait
      capacity := hrace.capacity
      range := hrace.range
      task := hrace.task
      life := .start cfg
      calls := hrace.calls
      cover := hrace.cover
      scans := fun a x ha => by
        rw [start_pc] at ha
        split at ha
        · cases ha
        · split at ha <;> cases ha
      pushes := hrace.pushes
      recoverable := .start hcfg }

end SoloInv

end Steps

/-! ## Runs -/

/-- The main task submits a task and waits for it, and the other fiber of the thread
executes it. -/
def soloLabels : List Label :=
  goes 0 7 ++ calls 0 (.submit 0 1) 38 ++ [⟨0, .handle 0⟩] ++ goes 0 38 ++
    calls 0 (.waitFor 0 true) 28 ++ calls 0 .ret 61 ++ calls 0 .ret 2

end TaskDispatcher.Scheduler
