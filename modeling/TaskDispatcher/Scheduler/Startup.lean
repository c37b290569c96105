import TaskDispatcher.Scheduler.Capacity

/-!
# Until the primary fiber is launched

Before the main task runs nothing is submitted: the worker threads acquire their
fibers and look for tasks, and nobody touches the free counters.
-/

namespace TaskDispatcher.Scheduler

open TaskDispatcher.Library TaskDispatcher.Container

/-- What every run keeps, whatever `start` found in the queues. -/
structure RunInv (cfg : Config) (s : State) : Prop where
  queues : QueueInv s
  fibers : FiberInv cfg s
  sizes : SizeInv cfg s
  outside : ∀ a, cfg.numFibers + cfg.numThreads ≤ a → s.pc a = .done

/-- Where an agent can stand before the main task runs. -/
def Starting : PC → Prop
  | .startSwitch _ => True
  | .done => True
  | .entry => True
  | .loop => True
  | .noTask => True
  | .eventWait => True
  | .clean k => k = .fiberFunc
  | .idleDeq k _ => k = .start
  | .getLock => True
  | .getPop => True
  | .getUnlock got => got = none
  | .resDeq pc => pc.claimed = none
  | .taskDeq pc => pc.claimed = none
  | _ => False

/-- The main task has not begun, and the free counters are `free`. -/
structure Unlaunched (cfg : Config) (free : Mpmc Nat) (s : State) : Prop where
  primary : s.mem.primary = none
  starting : ∀ a, Starting (s.pc a)
  tasks : s.mem.tasks.enqueuePos = s.mem.tasks.dequeuePos
  resumable : s.mem.resumableFibers.enqueuePos = s.mem.resumableFibers.dequeuePos
  pinned : ∀ t, (s.mem.threads t).pinnedResumableFibers.empty = true
  free : s.mem.freeCounters = free
  dest : ∀ i, (s.mem.tls i).previousFiberDest = .none
  waiting : ∀ g, s.mem.isWaitingCleanedUp g = false
  runs : s.mem.isShuttingDown = false
  total : Total (· < cfg.numFibers) (fiberAt cfg s)

section Steps

variable {cfg : Config} {s s' : State} {m' : Mem} {i : Nat} {ch : Choice} {p' : PC} {l : Label}

theorem RunInv.running_lt (h : RunInv cfg s) (hi : i < cfg.numThreads) :
    s.mem.running i < cfg.numFibers + cfg.numThreads := by
  rcases h.fibers.runs i hi with hr | hr
  · omega
  · have hlt := h.fibers.range (.current i) (s.mem.running i) (by simp only [fiberAt, if_pos hi, hr])
    omega

theorem RunInv.step (h : RunInv cfg s) (hs : step cfg s l = some s') : RunInv cfg s' := by
  have hqueues := h.queues.step hs
  have hfibers := h.fibers.step h.queues hs
  obtain ⟨-, hi, m', p', hx, rfl⟩ := step_eq_some.1 hs
  refine ⟨hqueues, hfibers, h.sizes.exec hx, fun a ha => ?_⟩
  have hne : a ≠ s.mem.running l.thread := by
    have := h.running_lt hi
    omega
  show (s.pc.set (s.mem.running l.thread) p') a = .done
  rw [Table.get_set_ne _ _ hne]
  exact h.outside a ha

/-- A dequeue takes nothing out of an empty queue. -/
theorem dequeue_nothing {T : Type} {q : Mpmc T} {b : Bool} {pc : DequeuePC T}
    (hpc : pc.claimed = none) (hempty : q.enqueuePos = q.dequeuePos)
    (hle : (Mpmc.dequeueStep 0 b q pc).1.dequeuePos ≤ (Mpmc.dequeueStep 0 b q pc).1.enqueuePos) :
    ((Mpmc.dequeueStep 0 b q pc).2 = .inr none ∨
        ∃ pc', (Mpmc.dequeueStep 0 b q pc).2 = .inl pc' ∧ pc'.claimed = none) ∧
      (Mpmc.dequeueStep 0 b q pc).1.enqueuePos = (Mpmc.dequeueStep 0 b q pc).1.dequeuePos := by
  cases pc with
  | load => exact ⟨Or.inr ⟨_, rfl, rfl⟩, hempty⟩
  | sequence pos =>
      simp only [Mpmc.dequeueStep]
      split
      · exact ⟨Or.inr ⟨_, rfl, rfl⟩, hempty⟩
      · split
        · exact ⟨Or.inl rfl, hempty⟩
        · exact ⟨Or.inr ⟨_, rfl, rfl⟩, hempty⟩
  | claim pos =>
      simp only [Mpmc.dequeueStep] at hle ⊢
      split
      · rename_i hc
        rw [if_pos hc] at hle
        simp only [Nat.mod_zero] at hle
        omega
      · exact ⟨Or.inr ⟨_, rfl, rfl⟩, hempty⟩
  | read pos => cases hpc
  | publish pos x => cases hpc

theorem starting_set {r : PC} (h : ∀ a, Starting (s.pc a)) (hr : Starting r) (f a : Nat) :
    Starting ((s.pc.set f r) a) := by
  rw [Table.get_set]
  split
  · exact hr
  · exact h a

/-- An access on which the fibers and the queues stay as they are. -/
theorem Unlaunched.frame {free : Mpmc Nat} (h : Unlaunched cfg free s) {f : Nat} {r : PC}
    (hplain : FiberInv.Plain (s.pc f)) (hr : Starting r) (hplain' : FiberInv.Plain r)
    (hprimary : m'.primary = s.mem.primary) (hidle : m'.idleFibers = s.mem.idleFibers)
    (htasks : m'.tasks.enqueuePos = m'.tasks.dequeuePos)
    (hres : m'.resumableFibers.enqueuePos = m'.resumableFibers.dequeuePos)
    (hpinned : ∀ t, (m'.threads t).pinnedResumableFibers.empty = true)
    (hfree : m'.freeCounters = s.mem.freeCounters) (htls : m'.tls = s.mem.tls)
    (hcl : m'.isWaitingCleanedUp = s.mem.isWaitingCleanedUp)
    (hruns : m'.isShuttingDown = s.mem.isShuttingDown) :
    Unlaunched cfg free ⟨m', s.pc.set f r⟩ where
  primary := hprimary.trans h.primary
  starting := starting_set h.starting hr f
  tasks := htasks
  resumable := hres
  pinned := hpinned
  free := hfree.trans h.free
  dest j := by
    show (m'.tls j).previousFiberDest = _
    rw [htls]
    exact h.dest j
  waiting g := by
    show m'.isWaitingCleanedUp g = _
    rw [hcl]
    exact h.waiting g
  runs := hruns.trans h.runs
  total := h.total.congr (FiberInv.fiberAt_frame (fun pos => by rw [hidle]) (by rw [hidle]) htls hcl
    (by rw [hplain.1, hplain'.1]) (by rw [hplain.2.1, hplain'.2.1]))

theorem plain_of_starting {p : PC} (h : Starting p) (hdeq : ∀ k pc, p ≠ .idleDeq k pc)
    (hswitch : ∀ g, p ≠ .startSwitch g) : FiberInv.Plain p := by
  cases p with
  | idleDeq k pc => exact absurd rfl (hdeq k pc)
  | startSwitch g => exact absurd rfl (hswitch g)
  | _ => first
    | exact absurd h id
    | simp [FiberInv.Plain, fiberHand, handedOn, resuming, ThreadPC]

theorem Unlaunched.idleDeq {free : Mpmc Nat} (h : Unlaunched cfg free s) (hq : QueueInv s)
    {pc : DequeuePC Nat} (hpc : s.pc (s.mem.running i) = .idleDeq .start pc)
    (hx : exec cfg s.mem i (s.mem.running i) ch (.idleDeq .start pc) = some (m', p')) :
    Unlaunched cfg free ⟨m', s.pc.set (s.mem.running i) p'⟩ := by
  have htotal := fibers_total_idleDeq hq hpc hx h.total
  have key : Starting p' ∧ m' = { s.mem with idleFibers := m'.idleFibers } := by
    simp only [exec] at hx
    split at hx <;> obtain ⟨rfl, rfl⟩ := Prod.mk.inj (Option.some.inj hx) <;>
      exact ⟨by simp [Starting], rfl⟩
  obtain ⟨hp, hm⟩ := key
  refine ⟨?_, starting_set h.starting hp _, ?_, ?_, ?_, ?_, ?_, ?_, ?_, htotal⟩ <;> rw [hm]
  · exact h.primary
  · exact h.tasks
  · exact h.resumable
  · exact h.pinned
  · exact h.free
  · exact h.dest
  · exact h.waiting
  · exact h.runs

theorem Unlaunched.startSwitch {free : Mpmc Nat} (h : Unlaunched cfg free s) (hf : FiberInv cfg s)
    (hi : i < cfg.numThreads) {g : Nat} (hpc : s.pc (s.mem.running i) = .startSwitch g)
    (hx : exec cfg s.mem i (s.mem.running i) ch (.startSwitch g) = some (m', p'))
    (hprimary : m'.primary = none) :
    Unlaunched cfg free ⟨m', s.pc.set (s.mem.running i) p'⟩ := by
  obtain ⟨hm, rfl⟩ := Prod.mk.inj (Option.some.inj hx)
  have htls : m'.tls = s.mem.tls.set i { s.mem.tls i with currentFiberIndex := some g, running := g } := by
    rw [← hm]
  have hcl : m'.isWaitingCleanedUp = s.mem.isWaitingCleanedUp := by rw [← hm]
  have htotal := (hf.startSwitch_moved hi hpc htls (by rw [← hm]) hcl).total h.total
  refine ⟨hprimary, starting_set (r := .done) h.starting trivial _, ?_, ?_, ?_, ?_, ?_, ?_, ?_, htotal⟩
  · rw [← hm]
    exact h.tasks
  · rw [← hm]
    exact h.resumable
  · rw [← hm]
    exact h.pinned
  · rw [← hm]
    exact h.free
  · intro j
    show (m'.tls j).previousFiberDest = _
    rw [htls, Table.get_set]
    split
    · exact h.dest i
    · exact h.dest j
  · intro g
    show m'.isWaitingCleanedUp g = _
    rw [hcl]
    exact h.waiting g
  · rw [← hm]
    exact h.runs

/-- Every step but the launch keeps the main task from beginning. -/
theorem Unlaunched.step {free : Mpmc Nat} (h : Unlaunched cfg free s) (hinv : RunInv cfg s)
    (hs : step cfg s l = some s') (hprimary : s'.mem.primary = none) : Unlaunched cfg free s' := by
  have hqueues' := hinv.queues.step hs
  obtain ⟨-, hi, m', p', hx, rfl⟩ := step_eq_some.1 hs
  have hstarting := h.starting (s.mem.running l.thread)
  have hplain := plain_of_starting hstarting
  cases hpc : s.pc (s.mem.running l.thread) with
  | idleDeq k pc =>
      rw [hpc] at hx hstarting
      obtain rfl : k = .start := hstarting
      exact h.idleDeq hinv.queues hpc hx
  | startSwitch g => exact h.startSwitch hinv.fibers hi hpc (hpc ▸ hx) hprimary
  | resDeq pc =>
      have hplain := hplain (by rw [hpc]; simp) (by rw [hpc]; simp)
      rw [hpc] at hx hstarting
      have hle : (Mpmc.dequeueStep 0 (l.choice = .spurious) s.mem.resumableFibers pc).1.dequeuePos ≤
          (Mpmc.dequeueStep 0 (l.choice = .spurious) s.mem.resumableFibers pc).1.enqueuePos := by
        have hle := hqueues'.resumable.deq_le
        simp only [exec] at hx
        split at hx <;> cases hx <;> exact hle
      obtain ⟨hr | ⟨pc', hr, hclaim⟩, hempty⟩ := dequeue_nothing hstarting h.resumable hle <;>
        simp only [exec, hr] at hx <;> cases hx
      · exact h.frame hplain (r := .taskDeq .load) rfl
          (plain_of_starting (p := .taskDeq .load) rfl (by simp) (by simp)) rfl rfl h.tasks hempty h.pinned
          rfl rfl rfl rfl
      · exact h.frame hplain (r := .resDeq pc') hclaim
          (plain_of_starting (p := .resDeq pc') hclaim (by simp) (by simp)) rfl rfl h.tasks hempty h.pinned
          rfl rfl rfl rfl
  | taskDeq pc =>
      have hplain := hplain (by rw [hpc]; simp) (by rw [hpc]; simp)
      rw [hpc] at hx hstarting
      have hle : (Mpmc.dequeueStep 0 (l.choice = .spurious) s.mem.tasks pc).1.dequeuePos ≤
          (Mpmc.dequeueStep 0 (l.choice = .spurious) s.mem.tasks pc).1.enqueuePos := by
        have hle := hqueues'.tasks.deq_le
        simp only [exec] at hx
        split at hx <;> cases hx <;> exact hle
      obtain ⟨hr | ⟨pc', hr, hclaim⟩, hempty⟩ := dequeue_nothing hstarting h.tasks hle <;>
        simp only [exec, hr] at hx <;> cases hx
      · exact h.frame hplain (r := .noTask) trivial
          (plain_of_starting (p := .noTask) trivial (by simp) (by simp)) rfl rfl hempty h.resumable h.pinned
          rfl rfl rfl rfl
      · exact h.frame hplain (r := .taskDeq pc') hclaim
          (plain_of_starting (p := .taskDeq pc') hclaim (by simp) (by simp)) rfl rfl hempty h.resumable
          h.pinned rfl rfl rfl rfl
  | entry =>
      have hplain := hplain (by rw [hpc]; simp) (by rw [hpc]; simp)
      rw [hpc] at hx
      simp only [exec, h.primary, reduceCtorEq, if_false] at hx
      cases hx
      exact h.frame hplain (r := .clean .fiberFunc) rfl
        (plain_of_starting (p := .clean .fiberFunc) rfl (by simp) (by simp)) rfl rfl h.tasks h.resumable
        h.pinned rfl rfl rfl rfl
  | clean k =>
      have hplain := hplain (by rw [hpc]; simp) (by rw [hpc]; simp)
      rw [hpc] at hx hstarting
      obtain rfl : k = .fiberFunc := hstarting
      simp only [exec, cleanStep, h.dest] at hx
      cases hx
      exact h.frame hplain (r := .loop) trivial (plain_of_starting (p := .loop) trivial (by simp) (by simp))
        rfl rfl h.tasks h.resumable h.pinned rfl rfl rfl rfl
  | loop =>
      have hplain := hplain (by rw [hpc]; simp) (by rw [hpc]; simp)
      rw [hpc] at hx
      simp only [exec, h.runs, Bool.false_eq_true, if_false] at hx
      cases hx
      exact h.frame hplain (r := .getLock) trivial
        (plain_of_starting (p := .getLock) trivial (by simp) (by simp)) rfl rfl h.tasks h.resumable h.pinned
        rfl rfl rfl rfl
  | noTask =>
      have hplain := hplain (by rw [hpc]; simp) (by rw [hpc]; simp)
      rw [hpc] at hx
      simp only [exec] at hx
      split at hx <;> cases hx
      · exact h.frame hplain (r := .eventWait) trivial
          (plain_of_starting (p := .eventWait) trivial (by simp) (by simp)) rfl rfl h.tasks h.resumable
          h.pinned rfl rfl rfl rfl
      · exact h.frame hplain (r := .loop) trivial
          (plain_of_starting (p := .loop) trivial (by simp) (by simp)) rfl rfl h.tasks h.resumable h.pinned
          rfl rfl rfl rfl
  | eventWait =>
      have hplain := hplain (by rw [hpc]; simp) (by rw [hpc]; simp)
      rw [hpc] at hx
      cases hx
      exact h.frame hplain (r := .loop) trivial (plain_of_starting (p := .loop) trivial (by simp) (by simp))
        rfl rfl h.tasks h.resumable h.pinned rfl rfl rfl rfl
  | getLock =>
      have hplain := hplain (by rw [hpc]; simp) (by rw [hpc]; simp)
      rw [hpc] at hx
      simp only [exec] at hx
      split at hx <;> cases hx
      · exact h.frame hplain (r := .getLock) trivial
          (plain_of_starting (p := .getLock) trivial (by simp) (by simp)) rfl rfl h.tasks h.resumable
          h.pinned rfl rfl rfl rfl
      · refine h.frame hplain (r := .getPop) trivial
          (plain_of_starting (p := .getPop) trivial (by simp) (by simp)) rfl rfl h.tasks h.resumable ?_
          rfl rfl rfl rfl
        intro t
        show ((s.mem.threads.set l.thread _) t).pinnedResumableFibers.empty = true
        rw [Table.get_set]
        split
        · exact h.pinned l.thread
        · exact h.pinned t
  | getPop =>
      have hplain := hplain (by rw [hpc]; simp) (by rw [hpc]; simp)
      rw [hpc] at hx
      simp only [exec, Fifo.dequeue, h.pinned l.thread, if_true] at hx
      cases hx
      refine h.frame hplain (r := .getUnlock none) rfl
        (plain_of_starting (p := .getUnlock none) rfl (by simp) (by simp)) rfl rfl h.tasks h.resumable ?_
        rfl rfl rfl rfl
      intro t
      show ((s.mem.threads.set l.thread _) t).pinnedResumableFibers.empty = true
      rw [Table.get_set]
      split
      · exact h.pinned l.thread
      · exact h.pinned t
  | getUnlock got =>
      have hplain := hplain (by rw [hpc]; simp) (by rw [hpc]; simp)
      rw [hpc] at hx hstarting
      obtain rfl : got = none := hstarting
      cases hx
      refine h.frame hplain (r := .resDeq .load) rfl
        (plain_of_starting (p := .resDeq .load) rfl (by simp) (by simp)) rfl rfl h.tasks h.resumable ?_
        rfl rfl rfl rfl
      intro t
      show ((s.mem.threads.set l.thread _) t).pinnedResumableFibers.empty = true
      rw [Table.get_set]
      split
      · exact h.pinned l.thread
      · exact h.pinned t
  | done =>
      rw [hpc] at hx
      cases hx
  | _ =>
      rw [hpc] at hstarting
      exact absurd hstarting id

/-- No step takes the launch back. -/
theorem primary_step (hs : step cfg s l = some s') (hprimary : s'.mem.primary = none) :
    s.mem.primary = none := by
  obtain ⟨-, -, m', p', hx, rfl⟩ := step_eq_some.1 hs
  replace hprimary : m'.primary = none := hprimary
  cases hpc : s.pc (s.mem.running l.thread) with
  | startSwitch g =>
      rw [hpc] at hx
      cases hx
      replace hprimary : (if l.thread = 0 then some g else s.mem.primary) = none := hprimary
      split at hprimary
      · cases hprimary
      · exact hprimary
  | _ =>
      rw [hpc] at hx
      simp only [exec, userStep, beginWait, afterWait, incrementStep, submitNext, afterRelease,
        cleanStep, pinStep, submitTasks, enqueueNext] at hx
      (repeat' split at hx) <;> cases hx <;> exact hprimary

end Steps

/-! ## Between two calls of `start` -/

/-- The queues are empty and no call is in progress. -/
structure Quiet (cfg : Config) (m : Mem) : Prop where
  idle : Mpmc.Inv m.idleFibers fun _ : Unit => .idle
  resumable : Mpmc.Inv m.resumableFibers fun _ : Unit => .idle
  free : Mpmc.Inv m.freeCounters fun _ : Unit => .idle
  tasks : Mpmc.Inv m.tasks fun _ : Unit => .idle
  idle_nil : m.idleFibers.contents = []
  resumable_nil : m.resumableFibers.contents = []
  free_nil : m.freeCounters.contents = []
  tasks_nil : m.tasks.contents = []
  idle_size : m.idleFibers.size = cfg.numFibers
  resumable_size : m.resumableFibers.size = cfg.numFibers
  free_size : m.freeCounters.size = cfg.maxNumCounters

namespace Quiet

variable {cfg : Config} {m : Mem}

theorem construct (hcfg : cfg.Ok) : Quiet cfg (construct cfg) := by
  obtain ⟨⟨k, hk, hfibers⟩, ⟨j, hj, hcounters⟩, ⟨n, hn, htasks⟩⟩ := hcfg
  have hsize : ∀ {T : Type} (N : Nat) (d : T), 0 < N → (Mpmc.new N d).size = N := by
    intro T N d hN
    show N - 1 + 1 = N
    omega
  have hpos : 0 < cfg.numFibers := hfibers ▸ Nat.two_pow_pos k
  have hpos' : 0 < cfg.maxNumCounters := hcounters ▸ Nat.two_pow_pos j
  refine ⟨?_, ?_, ?_, ?_, rfl, rfl, rfl, rfl, hsize _ _ hpos, hsize _ _ hpos, hsize _ _ hpos'⟩
  · have h := Mpmc.Inv.new (A := Unit) hk 0
    rwa [← hfibers] at h
  · have h := Mpmc.Inv.new (A := Unit) hk ({ fiber := 0, reg := 0 } : Wake)
    rwa [← hfibers] at h
  · have h := Mpmc.Inv.new (A := Unit) hj 0
    rwa [← hcounters] at h
  · have h := Mpmc.Inv.new (A := Unit) hn ({ metadata := 0, id := 0, life := 0 } : Task)
    rwa [← htasks] at h

theorem idle_refilled (h : Quiet cfg m) : Mpmc.Refilled m.idleFibers cfg.numFibers :=
  h.idle.refilled h.idle_nil h.idle_size.ge

theorem free_refilled (h : Quiet cfg m) : Mpmc.Refilled m.freeCounters cfg.maxNumCounters :=
  h.free.refilled h.free_nil h.free_size.ge

theorem idle_contents (h : Quiet cfg m) :
    (m.idleFibers.refill cfg.numFibers).contents = List.range cfg.numFibers :=
  h.idle_refilled.contents h.idle h.idle_nil

theorem runInv (h : Quiet cfg m) : RunInv cfg (startOn cfg m) where
  queues :=
    { idle := h.idle_refilled.inv.of_rest fun a => (start_atRest cfg a).1
      resumable := h.resumable.of_rest fun a => (start_atRest cfg a).2.1
      tasks := h.tasks.of_rest fun a => (start_atRest cfg a).2.2.1
      free := h.free_refilled.inv.of_rest fun a => (start_atRest cfg a).2.2.2
      pinned := fun _ => .new _ _ }
  fibers := .fresh rfl rfl (.of_contents h.idle_contents)
  sizes := ⟨h.idle_refilled.size.trans h.idle_size, h.resumable_size,
    h.free_refilled.size.trans h.free_size⟩
  outside a ha := by
    show (start cfg).pc a = .done
    rw [start_pc, if_neg (by omega), if_neg (by omega)]

theorem unlaunched (h : Quiet cfg m) :
    Unlaunched cfg (m.freeCounters.refill cfg.maxNumCounters) (startOn cfg m) where
  primary := rfl
  starting a := by
    show Starting ((start cfg).pc a)
    rw [start_pc]
    split
    · trivial
    · split
      · rfl
      · trivial
  tasks := by
    have hlen := h.tasks.contents_length
    have hle := h.tasks.deq_le
    rw [h.tasks_nil, List.length_nil] at hlen
    show m.tasks.enqueuePos = m.tasks.dequeuePos
    omega
  resumable := by
    have hlen := h.resumable.contents_length
    have hle := h.resumable.deq_le
    rw [h.resumable_nil, List.length_nil] at hlen
    show m.resumableFibers.enqueuePos = m.resumableFibers.dequeuePos
    omega
  pinned _ := rfl
  free := rfl
  dest i := (start_tls cfg i).2.1
  waiting _ := rfl
  runs := rfl
  total g hg := by
    refine ⟨.idle ((m.idleFibers.refill cfg.numFibers).dequeuePos + g), ?_⟩
    show (m.idleFibers.refill cfg.numFibers).entry _ = some g
    rw [Mpmc.entry_eq_contents, h.idle_contents]
    exact List.getElem?_range hg

end Quiet

/-- The invariants of every run that begins between two calls of `start`. -/
theorem Quiet.run {cfg : Config} {m : Mem} (hm : Quiet cfg m) {σ : Nat → State} {ℓ : Nat → Label}
    {n : Nat} (h : Run (step cfg) (startOn cfg m) σ ℓ n) {k : Nat} (hk : k ≤ n) :
    RunInv cfg (σ k) ∧ ((σ k).mem.primary = none →
      Unlaunched cfg (m.freeCounters.refill cfg.maxNumCounters) (σ k)) := by
  refine h.invariant (I := fun s => RunInv cfg s ∧ (s.mem.primary = none →
    Unlaunched cfg (m.freeCounters.refill cfg.maxNumCounters) s)) ⟨hm.runInv, fun _ => hm.unlaunched⟩
    ?_ k hk
  intro s l s' hI hs
  exact ⟨hI.1.step hs, fun hp => (hI.2 (primary_step hs hp)).step hI.1 hs hp⟩

end TaskDispatcher.Scheduler
