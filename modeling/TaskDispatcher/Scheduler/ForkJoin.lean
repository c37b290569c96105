import TaskDispatcher.Scheduler.Deadlock
import TaskDispatcher.Scheduler.Quiet

/-!
# Fork and join on a single thread

A program that waits for its syncs before its bodies end never leaves the thread without
work, and its main task ends last: everything it submitted has run, and every handle,
counter and fiber is back.
-/

namespace TaskDispatcher.Scheduler

open TaskDispatcher.Library TaskDispatcher.Container

/-- A thread that is told to end is on its way out. -/
def Leaves (s : State) : Prop :=
  s.mem.isShuttingDown = true →
    s.pc (s.mem.running 0) = .exitSwitch ∨ s.pc (s.mem.running 0) = .done

structure ForkInv (own : Nat → Nat) (cfg : Config) (s : State) : Prop where
  work : WorkInv own cfg s
  solo : SoloInv own cfg s
  quiet : QuietInv s
  leaves : Leaves s

section Steps

variable {own : Nat → Nat} {cfg : Config} {s s' : State} {m m' : Mem} {i f : Nat} {ch : Choice}
  {p p' : PC} {l : Label}

/-- The only thread sets the flag itself, and then goes back to its thread fiber. -/
theorem Leaves.step (h : Leaves s) (hf : FiberInv cfg s) (hone : cfg.numThreads = 1)
    (hs : Scheduler.step cfg s l = some s') : Leaves s' := by
  obtain ⟨-, hi, m', p', hx, rfl⟩ := step_eq_some.1 hs
  have hthread : l.thread = 0 := by omega
  rw [hthread] at hx ⊢
  intro hdown
  rcases exec_down hx with hsame | ⟨hp, -⟩
  · rw [show m'.isShuttingDown = true from hdown] at hsame
    rcases h hsame.symm with hp | hp
    · -- the thread fiber has made its only switch
      right
      rw [hp] at hx
      cases hx
      show (s.pc.set (s.mem.running 0) .done) (Mem.running _ 0) = .done
      have hat : Mem.running { s.mem with tls := s.mem.tls.set 0 { s.mem.tls 0 with
          running := cfg.numFibers + 0 } } 0 = cfg.numFibers + 0 := by
        show ((s.mem.tls.set 0 _) 0).running = _
        rw [Table.get_set_self]
      rw [hat, Table.get_set]
      split
      · rfl
      · rcases hf.thread 0 (by omega) with ⟨hthread', hrunning, -⟩ | hdone
        · rw [← hrunning, hp] at hthread'
          rcases hthread' with ⟨_, heq⟩ | ⟨_, heq⟩ <;> cases heq
        · exact hdone
    · rw [hp] at hx
      cases hx
  · left
    rw [running_frame hx (by rw [hp]; rfl) 0, Table.get_set_self]
    rw [hp] at hx
    cases hx
    rfl

namespace ForkInv

theorem delivers (h : ForkInv own cfg s) (hone : cfg.numThreads = 1) (hl : l.thread = 0) :
    Delivers s l where
  resumable := (h.solo.spaced hone hl).resumable
  pinned t ht := by
    have hsteady := h.quiet.steady
    rw [hl] at ht
    cases hp : s.pc (s.mem.running 0) with
    | pin x j reg t' pc =>
        rw [hp] at ht
        cases pc with
        | push =>
            cases ht
            obtain ⟨rfl, hfits⟩ := h.quiet.push_fits h.solo hp
            exact hfits
        | _ => cases ht
    | rePush v =>
        rw [hp] at hsteady
        exact hsteady.elim
    | _ =>
        rw [hp] at ht
        cases ht

theorem step (h : ForkInv own cfg s) (hone : cfg.numThreads = 1) (hd : Disciplined own s l)
    (hends : Joining own s l) (hs : Scheduler.step cfg s l = some s') : ForkInv own cfg s' := by
  have hthread : l.thread = 0 := by
    have hlt := (step_eq_some.1 hs).2.1
    omega
  exact
    { work := h.work.step hd hends ⟨h.solo.vacant hone hthread, h.solo.noStaleScan hone hthread⟩
        (h.delivers hone hthread) hs
      solo := h.solo.step hone hd hs
      quiet := h.quiet.step h.solo hone hd hs
      leaves := h.leaves.step h.solo.run.fibers hone hs }

theorem start (hcfg : cfg.Ok) (hone : cfg.numThreads = 1) : ForkInv own cfg (start cfg) where
  work := .start hcfg (by omega)
  solo := .start hcfg
  quiet := .start hone
  leaves := fun hdown => by cases hdown

variable (h : ForkInv own cfg s) (hone : cfg.numThreads = 1)

include h hone

/-! ## The thread has work until the main task ends -/

/-- The agent is about to find `mTasks` empty. -/
def Starved (s : State) : Prop :=
  ∃ pos, s.pc (s.mem.running 0) = .taskDeq (.sequence pos) ∧
    (s.mem.tasks.cell pos).sequence < pos + 1

theorem queues_empty (hp : Starved s) : (∀ pos, s.mem.tasks.entry pos = none) ∧
    ∀ v, ¬ Queued s.mem v := by
  obtain ⟨pos, hp, hseq⟩ := hp
  constructor
  · have hempty := empty_of_fails h.solo.run.queues.tasks (a := s.mem.running 0)
      (by simp only [roles, hp, taskCaller])
      (fun b hb => (h.solo.run.parked hone hb).callers.2.2.1) hseq
    intro pos'
    unfold Mpmc.entry
    split
    · exact List.getElem?_eq_none (by omega)
    · rfl
  · intro v hv
    have hlength := length_of_queued hv
    have hres := h.quiet.resumable (by rw [hp]; rfl)
    have hpin := h.quiet.pinned (by rw [hp]; rfl)
    omega

theorem stalled (hp : Starved s) (hpanic : s.mem.panic = none) : Stalled cfg s := by
  obtain ⟨htasks, hqueued⟩ := h.queues_empty hone hp
  obtain ⟨pos, hp, -⟩ := hp
  constructor
  · intro i hi
    obtain rfl : i = 0 := by omega
    rw [hp]
    rfl
  · exact htasks
  · intro pos
    exact Option.eq_none_iff_forall_not_mem.2 fun v hv => hqueued v (Or.inl ⟨pos, hv⟩)
  · intro t k
    refine Option.eq_none_iff_forall_not_mem.2 fun v hv => ?_
    obtain rfl : t = 0 := by
      have hlt := thread_of_entry h.work.affine h.work.home hv
      omega
    exact hqueued v (Or.inr ⟨k, hv⟩)
  · exact hpanic

theorem not_starved (hpanic : s.mem.panic = none) : ¬ Starved s := by
  intro hp
  have hleaves := h.leaves (h.work.down (h.stalled hone hp hpanic) (by omega))
  obtain ⟨pos, hp, -⟩ := hp
  rw [hp] at hleaves
  rcases hleaves with heq | heq <;> cases heq

end ForkInv

/-- A thread ends up without work only where it finds `mTasks` empty. -/
theorem idle_back (hx : exec cfg m i f ch p = some (m', p')) (hp' : p' = .noTask ∨ p' = .eventWait) :
    p = .noTask ∨ ∃ pos, p = .taskDeq (.sequence pos) ∧ (m.tasks.cell pos).sequence < pos + 1 := by
  have hnone : ∀ {q : PC}, q = .noTask ∨ q = .eventWait → q ≠ .noTask → q ≠ .eventWait → False := by
    intro q hq hne hne'
    exact hq.elim hne hne'
  cases p with
  | noTask => exact Or.inl rfl
  | taskDeq pc =>
      right
      have heffect := Mpmc.dequeueStep_effect m.tasks (ch = .spurious) pc
      simp only [exec] at hx
      split at hx <;> rename_i hout <;> cases hx <;> rw [hout] at heffect
      · rcases hp' with heq | heq <;> cases heq
      · cases heffect with
        | empty hpc hneg _ =>
            rw [Mpmc.diff_zero] at hneg
            exact ⟨_, by rw [hpc], by omega⟩
      · rcases hp' with heq | heq <;> cases heq
  | add w j pc =>
      obtain ⟨a, r, -, -, rfl⟩ := exec_add hx
      rcases r with _ | (_ | _) | _ <;> rcases hp' with heq | heq <;> cases heq
  | scan x j pc =>
      obtain ⟨a, r, -, -, rfl⟩ := exec_scan hx
      have hskip : nextSlot x j ≠ .noTask ∧ nextSlot x j ≠ .eventWait := by
        unfold nextSlot
        split
        · simp
        · cases x.k <;> simp [afterScan, enqueueNext]
      cases r with
      | skip => exact absurd hp' (not_or.2 hskip)
      | _ => rcases hp' with heq | heq <;> cases heq
  | clean k =>
      simp only [exec, cleanStep] at hx
      rcases k with _ | _ | (_ | _) <;> split at hx <;> cases hx <;>
        rcases hp' with heq | heq <;> cases heq
  | idleEnq k v pc =>
      simp only [exec] at hx
      rcases k with _ | _ | (_ | _) <;> split at hx <;> cases hx <;>
        rcases hp' with heq | heq <;> cases heq
  | resEnq k v pc =>
      simp only [exec] at hx
      split at hx <;> cases hx
      · rcases hp' with heq | heq <;> cases heq
      · cases k <;> rcases hp' with heq | heq <;> cases heq
  | getUnlock got =>
      cases hx
      cases got <;> rcases hp' with heq | heq <;> cases heq
  | pin x j reg t pc =>
      cases pc <;> simp only [exec, pinStep] at hx <;> (repeat' split at hx) <;> cases hx <;>
        rcases hp' with heq | heq <;> cases heq
  | increment inc =>
      simp only [exec, incrementStep] at hx
      split at hx <;> cases hx <;> rcases hp' with heq | heq <;> cases heq
  | waitDone w =>
      simp only [exec, afterWait, Option.map_eq_some_iff] at hx
      obtain ⟨q, hq, hm⟩ := hx
      cases hm
      (repeat' split at hq) <;> cases hq <;> rcases hp' with heq | heq <;> cases heq
  | _ =>
      simp only [exec, userStep, beginWait, submitNext, afterRelease, submitTasks, enqueueNext] at hx
      (repeat' split at hx) <;> cases hx <;> rcases hp' with heq | heq <;>
        cases heq

/-- The thread neither is without work nor sleeps until there is some. -/
structure Busy (s : State) : Prop where
  finds : s.pc (s.mem.running 0) ≠ .noTask
  awake : s.pc (s.mem.running 0) ≠ .eventWait

theorem ForkInv.busy_step (h : ForkInv own cfg s) (hone : cfg.numThreads = 1) (hbusy : Busy s)
    (hs : Scheduler.step cfg s l = some s') : Busy s' := by
  obtain ⟨hpanic, hi, m', p', hx, rfl⟩ := step_eq_some.1 hs
  have hthread : l.thread = 0 := by omega
  rw [hthread] at hx ⊢
  have hidle : ¬ ((s.pc.set (s.mem.running 0) p') (m'.running 0) = .noTask ∨
      (s.pc.set (s.mem.running 0) p') (m'.running 0) = .eventWait) := by
    intro hidle
    by_cases hsw : switches (s.pc (s.mem.running 0)) = true
    · rcases (running_switch h.solo.run.fibers (by omega) hx hsw).2 with (hout | ⟨_, hout⟩) | hout <;>
        rcases hidle with heq | heq <;> rw [hout] at heq <;> cases heq
    · rw [running_frame hx (eq_false_of_ne_true hsw) 0, Table.get_set_self] at hidle
      rcases idle_back hx hidle with hp | hstarved
      · exact hbusy.finds hp
      · exact h.not_starved hone hpanic hstarved
  exact ⟨fun heq => hidle (Or.inl heq), fun heq => hidle (Or.inr heq)⟩

/-! ## The end of the main task -/

/-- The main task ends: nothing is left of what it submitted. -/
structure Complete (cfg : Config) (s : State) : Prop where
  tasks : ∀ n, n < s.mem.hist.nextTask → s.mem.hist.started n = 1 ∧ s.mem.hist.returned n = 1 ∧
    s.mem.hist.decremented n = 1
  syncs : ∀ z, s.mem.syncs z = none
  handles : ∀ k, s.mem.handles k = none
  queues : (∀ pos, s.mem.tasks.entry pos = none) ∧ ∀ v, ¬ Queued s.mem v
  counters : ∀ c, c < cfg.maxNumCounters → ∃ pos, s.mem.freeCounters.entry pos = some c
  fibers : ∀ g, g < cfg.numFibers → g ≠ s.mem.running 0 → ∃ pos, s.mem.idleFibers.entry pos = some g

namespace ForkInv

variable (h : ForkInv own cfg s) (hone : cfg.numThreads = 1) (hp : s.pc (s.mem.running 0) = .body)

include h hone hp

/-- The only fiber that is not parked is in a body, and so no agent has anything in its hands. -/
theorem other_or_body {P : PC → Prop} (hbody : P .body) (hparked : ∀ q, Parked q → P q) (a : Nat) :
    P (s.pc a) := by
  by_cases ha : a = s.mem.running 0
  · rw [ha, hp]
    exact hbody
  · exact hparked _ (h.solo.run.parked hone ha)

/-- Without live handles every counter is free. -/
theorem counters_free (hhandles : ∀ k, s.mem.handles k = none) {c : Nat}
    (hc : c < cfg.maxNumCounters) : ∃ pos, s.mem.freeCounters.entry pos = some c := by
  obtain ⟨P, hP⟩ := h.solo.recoverable.counters c hc
  cases P with
  | free pos => exact ⟨pos, hP⟩
  | handle k =>
      rw [show counterAt s (.handle k) = (s.mem.handles k).map _ from rfl, hhandles k] at hP
      cases hP
  | hand a =>
      have hnone : counterHand s.mem.freeCounters (s.pc a) = none :=
        h.other_or_body hone hp (P := fun q => counterHand _ q = none) rfl
          (by rintro q (rfl | ⟨_, rfl⟩ | rfl) <;> rfl) a
      rw [show counterAt s (.hand a) = _ from hnone] at hP
      cases hP

/-- Where no other fiber is in a body, every other fiber is idle. -/
theorem fibers_idle (hothers : ∀ a, a ≠ s.mem.running 0 → inBody (s.pc a) = false) {g : Nat}
    (hg : g < cfg.numFibers) (hne : g ≠ s.mem.running 0) :
    ∃ pos, s.mem.idleFibers.entry pos = some g := by
  obtain ⟨P, hP⟩ := h.solo.recoverable.fibers g hg
  have hrest := h.solo.run.fibers.resting P g hP
  cases P with
  | idle pos => exact ⟨pos, hP⟩
  | hand a =>
      have hnone : fiberHand s.mem.idleFibers (s.pc a) = none :=
        h.other_or_body hone hp (P := fun q => fiberHand _ q = none) rfl
          (by rintro q (rfl | ⟨_, rfl⟩ | rfl) <;> rfl) a
      rw [show fiberAt cfg s (.hand a) = _ from hnone] at hP
      cases hP
  | current j =>
      have hj : j < cfg.numThreads := by
        by_contra hnot
        simp [fiberAt, hnot] at hP
      obtain rfl : j = 0 := by omega
      have hruns := h.solo.run.fibers.current_of_pc hj
        (by
          rw [hp]
          rintro (⟨_, heq⟩ | ⟨_, heq⟩) <;> cases heq)
        (by rw [hp]; simp)
      simp only [fiberAt, if_pos hj, hruns] at hP
      exact absurd (Option.some.inj hP).symm hne
  | previous j =>
      have hj : j < cfg.numThreads := by
        by_contra hnot
        simp [fiberAt, hnot] at hP
      obtain rfl : j = 0 := by omega
      rw [previous_eq_none h.solo.capacity.clean hj (by rw [hp]; rfl)] at hP
      cases hP
  | suspended a =>
      obtain ⟨w, hw⟩ : WaitPC (s.pc g) := hrest
      have hidle := hothers g hne
      rw [hw] at hidle
      cases hidle

/-- Where the body of the main task ends, nothing is left of what it submitted. -/
theorem complete (hmain : s.mem.task (s.mem.running 0) = none)
    (hends : ∀ z, own z = s.mem.running 0 → s.mem.hist.unwaited z = false) : Complete cfg s := by
  have hover := h.work.concluded hp hmain hends
  constructor
  · exact hover.tasks
  · exact hover.syncs
  · exact hover.handles
  · refine ⟨hover.queue, ?_⟩
    rintro v (⟨pos, hv⟩ | ⟨k, hv⟩)
    · have hnone := hover.waits (.resumable pos)
      rw [regAt, hv] at hnone
      cases hnone
    · have hnone := hover.waits (.pinned 0 k)
      rw [regAt, hv] at hnone
      cases hnone
  · intro c hc
    exact h.counters_free hone hp hover.handles hc
  · intro g hg hne
    exact h.fibers_idle hone hp (fun a ha => h.work.others_idle hp hmain hends ha) hg hne

end ForkInv

end Steps

/-! ## Every run -/

section Runs

variable {own : Nat → Nat} {cfg : Config}

theorem forkInv_of_run (hcfg : cfg.Ok) (hone : cfg.numThreads = 1) {σ : Nat → State}
    {ℓ : Nat → Label} {n : Nat} (h : Run (step cfg) (start cfg) σ ℓ n)
    (hd : ∀ k, k < n → Disciplined own (σ k) (ℓ k)) (hj : ∀ k, k < n → Joining own (σ k) (ℓ k)) :
    ∀ k, k ≤ n → ForkInv own cfg (σ k) :=
  h.guarded (G := fun s l => Disciplined own s l ∧ Joining own s l) (ForkInv.start hcfg hone)
    (fun _ _ _ hI hG hs => hI.step hone hG.1 hG.2 hs) fun k hk => ⟨hd k hk, hj k hk⟩

/-- On one thread, a disciplined program whose bodies wait for what they submit never
leaves the thread without work: it neither spins in the idle branch nor sleeps. -/
theorem busy_of_run (hcfg : cfg.Ok) (hone : cfg.numThreads = 1) {σ : Nat → State}
    {ℓ : Nat → Label} {n : Nat} (h : Run (step cfg) (start cfg) σ ℓ n)
    (hd : ∀ k, k < n → Disciplined own (σ k) (ℓ k)) (hj : ∀ k, k < n → Joining own (σ k) (ℓ k)) :
    ∀ k, k ≤ n → Busy (σ k) := by
  have hinv := forkInv_of_run hcfg hone h hd hj
  intro k
  induction k with
  | zero =>
      intro _
      have hpc : ∀ a, (start cfg).pc a ≠ .noTask ∧ (start cfg).pc a ≠ .eventWait := by
        intro a
        rw [start_pc]
        (repeat' split) <;> simp
      rw [h.start]
      exact ⟨(hpc _).1, (hpc _).2⟩
  | succ k ih =>
      intro hk
      exact (hinv k (by omega)).busy_step hone (ih (by omega)) (h.next k (by omega))

/-- When the main task ends, everything that was submitted has run exactly once, and no
handle, no queued index and no fiber is left outside its pool. -/
theorem complete_of_run (hcfg : cfg.Ok) (hone : cfg.numThreads = 1) {σ : Nat → State}
    {ℓ : Nat → Label} {n : Nat} (h : Run (step cfg) (start cfg) σ ℓ n)
    (hd : ∀ k, k < n → Disciplined own (σ k) (ℓ k)) (hj : ∀ k, k < n → Joining own (σ k) (ℓ k)) :
    ∀ k, k < n → (σ k).pc ((σ k).mem.running 0) = .body → (ℓ k).choice = .call .ret →
      (σ k).mem.task ((σ k).mem.running 0) = none → Complete cfg (σ k) := by
  intro k hk hp hret hmain
  have hthread : (ℓ k).thread = 0 := by
    have hlt := (step_eq_some.1 (h.next k hk)).2.1
    omega
  have hends := hj k hk
  unfold Joining at hends
  rw [hthread] at hends
  exact (forkInv_of_run hcfg hone h hd hj k (Nat.le_of_lt hk)).complete hone hp hmain
    (hends hp hret)

end Runs

theorem solo_follows : follows (step smallConfig)
    (fun s l => disciplined (fun _ => 0) s l && joining s l) (start smallConfig) soloLabels = true := by
  decide +kernel

theorem solo_disciplined : ∀ k, k < soloLabels.length →
    Disciplined (fun _ => 0) (trace (step smallConfig) (start smallConfig) soloLabels k)
      (soloLabels.getD k ⟨0, .go⟩) :=
  fun k hk => .of_disciplined (Bool.and_eq_true_iff.1 (trace_ok ⟨0, .go⟩ solo_follows k hk)).1

theorem solo_joining : ∀ k, k < soloLabels.length →
    Joining (fun _ => 0) (trace (step smallConfig) (start smallConfig) soloLabels k)
      (soloLabels.getD k ⟨0, .go⟩) :=
  fun k hk => .of_joining (Bool.and_eq_true_iff.1 (trace_ok ⟨0, .go⟩ solo_follows k hk)).2

/-- The other fiber looks for a task while the main task waits. -/
theorem busy_solo : Busy (trace (step smallConfig) (start smallConfig) soloLabels 110) :=
  busy_of_run smallConfig_ok rfl (Run.of_follows ⟨0, .go⟩ solo_follows) solo_disciplined solo_joining
    110 (by decide +kernel)

/-- After `wait_for` the body of the main task ends. -/
theorem complete_solo :
    Complete smallConfig (trace (step smallConfig) (start smallConfig) soloLabels 176) := by
  apply complete_of_run smallConfig_ok rfl (Run.of_follows ⟨0, .go⟩ solo_follows) solo_disciplined
    solo_joining
  · decide +kernel
  · decide +kernel
  · decide +kernel
  · decide +kernel

end TaskDispatcher.Scheduler
