import TaskDispatcher.Scheduler.Startup

/-!
# What `scheduler_config::is_valid` is worth

`is_valid` asks for powers of two, and `start` needs more: rings of at least two
cells, and a fiber for every thread.
-/

namespace TaskDispatcher.Scheduler

open TaskDispatcher.Library TaskDispatcher.Container

def invalidCounter : Nat := 2 ^ 16 - 1

/-- No `wait` has begun to acquire a fiber. -/
def Gathering (s : State) : Prop := ∀ a w pc, s.pc a ≠ .idleDeq (.wait w) pc

/-- What the check says of a configuration. -/
structure Config.Checked (cfg : Config) : Prop where
  fibers : ∃ k, cfg.numFibers = 2 ^ k
  counters : ∃ k, cfg.maxNumCounters = 2 ^ k
  tasks : ∃ k, cfg.maxNumTasks = 2 ^ k
  threads_pos : 0 < cfg.numThreads
  fibers_lt : cfg.numFibers < invalidFiber
  counters_lt : cfg.maxNumCounters < invalidCounter

theorem Config.Checked.ok {cfg : Config} (h : cfg.Checked) (hf : 2 ≤ cfg.numFibers)
    (hc : 2 ≤ cfg.maxNumCounters) (ht : 2 ≤ cfg.maxNumTasks) : cfg.Ok := by
  have key : ∀ {n : Nat}, (∃ k, n = 2 ^ k) → 2 ≤ n → ∃ k, 1 ≤ k ∧ n = 2 ^ k := by
    rintro n ⟨k, rfl⟩ hn
    refine ⟨k, ?_, rfl⟩
    by_contra hlt
    obtain rfl : k = 0 := by omega
    omega
  exact ⟨key h.fibers hf, key h.counters hc, key h.tasks ht⟩

/-! ## The first fibers -/

/-- An access of a switch between fibers, or on the way to one. -/
def yields : PC → Bool
  | .yieldTo _ _ => true
  | .idleEnq _ _ _ => true
  | .idleDeq (.wait _) _ => true
  | _ => false

/-- No fiber has switched to another one. -/
structure Unswitched (cfg : Config) (s : State) : Prop extends RunInv cfg s where
  clean : CleanInv cfg s
  dest : ∀ i, (s.mem.tls i).previousFiberDest = .none
  waiting : ∀ g, s.mem.isWaitingCleanedUp g = false
  quiet : ∀ a, yields (s.pc a) = false
  total : Total (· < cfg.numFibers) (fiberAt cfg s)

section Steps

variable {cfg : Config} {s s' : State} {m' : Mem} {i f : Nat} {ch : Choice} {p p' : PC} {l : Label}

/-- An access on the way to a switch comes after a `wait` has begun to acquire a fiber. -/
theorem yields_step (hx : exec cfg s.mem i f ch p = some (m', p')) (hp : yields p = false)
    (hdest : (s.mem.tls i).previousFiberDest = .none)
    (hwait : ∀ g, s.mem.isWaitingCleanedUp g = false) (hnot : ∀ w pc, p' ≠ .idleDeq (.wait w) pc) :
    yields p' = false := by
  cases p with
  | yieldTo g k => cases hp
  | idleEnq k v pc => cases hp
  | idleDeq k pc =>
      cases k with
      | wait w => cases hp
      | start =>
          simp only [exec] at hx
          split at hx <;> cases hx <;> rfl
  | add w j pc =>
      obtain ⟨a, r, -, -, rfl⟩ := exec_add hx
      rcases r with _ | (_ | _) | _
      · rfl
      · exact absurd rfl (hnot w .load)
      · rfl
      · rfl
  | scan x j pc =>
      obtain ⟨a, r, -, -, rfl⟩ := exec_scan hx
      cases r with
      | skip =>
          simp only [scanNext, nextSlot]
          split
          · rfl
          · cases x.k <;> rfl
      | _ => rfl
  | clean k =>
      simp only [exec, cleanStep, hdest] at hx
      rcases k with _ | _ | (_ | _) <;> cases hx <;> rfl
  | tryResume src v =>
      simp only [exec, hwait, Bool.false_eq_true, if_false] at hx
      split at hx <;> cases hx <;> rfl
  | resEnq k v pc =>
      simp only [exec] at hx
      cases k <;> split at hx <;> cases hx <;> rfl
  | entry =>
      cases hx
      split <;> rfl
  | loop =>
      cases hx
      split <;> rfl
  | getUnlock got =>
      cases hx
      cases got <;> rfl
  | resetSlot c j k =>
      cases hx
      split <;> rfl
  | _ =>
      simp only [exec, userStep, beginWait, afterWait, incrementStep, submitNext, afterRelease,
        pinStep, submitTasks, enqueueNext] at hx
      (repeat' split at hx) <;> cases hx <;> rfl

/-- Nothing is left to clean up where nothing has switched. -/
theorem unswitched_step (hx : exec cfg s.mem i f ch p = some (m', p')) (hp : yields p = false)
    (hdest : ∀ j, (s.mem.tls j).previousFiberDest = .none)
    (hwait : ∀ g, s.mem.isWaitingCleanedUp g = false) :
    (∀ j, (m'.tls j).previousFiberDest = .none) ∧ ∀ g, m'.isWaitingCleanedUp g = false := by
  cases p with
  | yieldTo g k => cases hp
  | idleEnq k v pc => cases hp
  | startSwitch g =>
      cases hx
      refine ⟨fun j => ?_, hwait⟩
      simp only [Table.get_set]
      split
      · exact hdest i
      · exact hdest j
  | exitSwitch =>
      cases hx
      refine ⟨fun j => ?_, hwait⟩
      simp only [Table.get_set]
      split
      · exact hdest i
      · exact hdest j
  | clean k =>
      simp only [exec, cleanStep, hdest i] at hx
      cases hx
      exact ⟨hdest, hwait⟩
  | tryResume src v =>
      simp only [exec, hwait, Bool.false_eq_true, if_false] at hx
      split at hx <;> cases hx <;> exact ⟨hdest, hwait⟩
  | waitStore w =>
      cases hx
      refine ⟨hdest, fun g => ?_⟩
      simp only [Table.get_set]
      split
      · rfl
      · exact hwait g
  | _ =>
      simp only [exec, userStep, beginWait, afterWait, incrementStep, submitNext, afterRelease,
        pinStep, submitTasks, enqueueNext] at hx
      (repeat' split at hx) <;> cases hx <;> exact ⟨hdest, hwait⟩

theorem Unswitched.step (h : Unswitched cfg s) (hs : step cfg s l = some s') (hg : Gathering s') :
    Unswitched cfg s' := by
  have hrun := h.toRunInv.step hs
  obtain ⟨-, hi, m', p', hx, rfl⟩ := step_eq_some.1 hs
  obtain ⟨hdest, hwait⟩ := unswitched_step hx (h.quiet _) h.dest h.waiting
  have hclean := h.clean.exec h.fibers hi hx
  refine ⟨hrun, hclean, hdest, hwait, fun a => ?_, ?_⟩
  · show yields ((s.pc.set (s.mem.running l.thread) p') a) = false
    rw [Table.get_set]
    split
    · refine yields_step hx (h.quiet _) (h.dest _) h.waiting fun w pc heq => ?_
      refine hg (s.mem.running l.thread) w pc ?_
      show (s.pc.set (s.mem.running l.thread) p') _ = _
      rw [Table.get_set_self, heq]
    · exact h.quiet a
  · refine fibers_total h.fibers h.queues h.clean hi hx (fun k v pc hpc => ?_) h.total
    have hq := h.quiet (s.mem.running l.thread)
    rw [hpc] at hq
    cases hq

theorem Unswitched.start (hcfg : cfg.Ok) : Unswitched cfg (start cfg) := by
  have hquiet := Quiet.construct hcfg
  refine ⟨hquiet.runInv, .start cfg, fun i => (start_tls cfg i).2.1, fun _ => rfl, fun a => ?_,
    hquiet.unlaunched.total⟩
  rw [start_pc]
  split
  · rfl
  · split <;> rfl

/-- Where thread `j` keeps the fiber it has received. -/
theorem holder (h : Unswitched cfg s) {P : FiberPlace} {g : Nat} (hP : fiberAt cfg s P = some g)
    (hidle : ∀ pos, P ≠ .idle pos) :
    ∃ j, j < cfg.numThreads ∧ (P = .hand (cfg.numFibers + j) ∨ P = .current j) := by
  cases P with
  | idle pos => exact absurd rfl (hidle pos)
  | current j =>
      refine ⟨j, ?_, Or.inr rfl⟩
      by_contra hj
      simp only [fiberAt, if_neg hj] at hP
      cases hP
  | previous j => simp [fiberAt, previousFiber, h.dest j] at hP
  | suspended f => simp [fiberAt, h.waiting f] at hP
  | hand a =>
      have hthread : ThreadPC (s.pc a) := by
        have hquiet := h.quiet a
        replace hP : fiberHand s.mem.idleFibers (s.pc a) = some g := hP
        revert hP hquiet
        cases s.pc a with
        | idleDeq k pc =>
            cases k with
            | start => exact fun _ _ => Or.inl ⟨pc, rfl⟩
            | wait w => simp [yields]
        | startSwitch g => exact fun _ _ => Or.inr ⟨g, rfl⟩
        | yieldTo g k => simp [yields]
        | _ => simp [fiberHand]
      have hge : cfg.numFibers ≤ a := by
        by_contra hlt
        exact h.fibers.fiber a (by omega) hthread
      have hlt : a < cfg.numFibers + cfg.numThreads := by
        by_contra hge'
        rw [h.outside a (by omega)] at hthread
        rcases hthread with ⟨_, he⟩ | ⟨_, he⟩ <;> cases he
      refine ⟨a - cfg.numFibers, by omega, Or.inl ?_⟩
      rw [show cfg.numFibers + (a - cfg.numFibers) = a by omega]

/-- A thread holds one fiber. -/
theorem holder_unique (h : Unswitched cfg s) {P Q : FiberPlace} {g x j : Nat}
    (hj : j < cfg.numThreads) (hP : fiberAt cfg s P = some g) (hQ : fiberAt cfg s Q = some x)
    (hp : P = .hand (cfg.numFibers + j) ∨ P = .current j)
    (hq : Q = .hand (cfg.numFibers + j) ∨ Q = .current j) : P = Q := by
  have key : fiberAt cfg s (.hand (cfg.numFibers + j)) = some g ∨
      fiberAt cfg s (.hand (cfg.numFibers + j)) = some x → fiberAt cfg s (.current j) = none := by
    intro hor
    rcases h.fibers.thread j hj with ⟨-, -, hcur⟩ | hdone
    · simp only [fiberAt, if_pos hj, hcur]
    · have hnone : fiberAt cfg s (.hand (cfg.numFibers + j)) = none := by
        simp only [fiberAt, hdone, fiberHand]
      rw [hnone] at hor
      rcases hor with he | he <;> cases he
  rcases hp with rfl | rfl <;> rcases hq with rfl | rfl
  · rfl
  · rw [key (Or.inl hP)] at hQ
    cases hQ
  · rw [key (Or.inr hQ)] at hP
    cases hP
  · rfl

end Steps

/-! ## One thread after the other -/

section Acquire

variable {cfg : Config} {σ : Nat → State} {ℓ : Nat → Label} {n i : Nat}

/-- The access of a first `acquireFreeFiber`. -/
def acquireNext : DequeuePC Nat ⊕ Option Nat → PC
  | .inl pc => .idleDeq .start pc
  | .inr none => .idleDeq .start .load
  | .inr (some g) => .startSwitch g

theorem step_acquire {s : State} (hpanic : s.mem.panic = none) (hi : i < cfg.numThreads)
    {pc : DequeuePC Nat} (hpc : s.pc (s.mem.running i) = .idleDeq .start pc) :
    step cfg s ⟨i, .go⟩ = some
      ⟨{ s.mem with idleFibers := (Mpmc.dequeueStep 0 false s.mem.idleFibers pc).1 },
        s.pc.set (s.mem.running i) (acquireNext (Mpmc.dequeueStep 0 false s.mem.idleFibers pc).2)⟩ := by
  refine step_eq_some.2 ⟨hpanic, hi, _, _, ?_, rfl⟩
  show exec cfg s.mem i (s.mem.running i) .go (s.pc (s.mem.running i)) = _
  rw [hpc]
  have hgo : decide (Choice.go = Choice.spurious) = false := rfl
  simp only [exec, hgo]
  split <;> rename_i hr <;> rw [hr] <;> rfl

theorem gathering_set {s : State} (h : Gathering s) (m : Mem) (a : Nat)
    (r : DequeuePC Nat ⊕ Option Nat) : Gathering ⟨m, s.pc.set a (acquireNext r)⟩ := by
  intro b w pc
  show (s.pc.set a _) b ≠ _
  rw [Table.get_set]
  split
  · rcases r with _ | (_ | _) <;> simp [acquireNext]
  · exact h b w pc

/-- A run whose states are all before the first `wait` that acquires a fiber. -/
structure Gathers (cfg : Config) (σ : Nat → State) (ℓ : Nat → Label) (n : Nat) : Prop where
  run : Run (step cfg) (start cfg) σ ℓ n
  all : ∀ k, k ≤ n → Gathering (σ k)

theorem Gathers.extend (h : Gathers cfg σ ℓ n) (hpanic : (σ n).mem.panic = none)
    (hi : i < cfg.numThreads) {pc : DequeuePC Nat}
    (hpc : (σ n).pc ((σ n).mem.running i) = .idleDeq .start pc) :
    ∃ σ' ℓ', Gathers cfg σ' ℓ' (n + 1) ∧ σ' n = σ n ∧ ℓ' n = ⟨i, .go⟩ ∧
      σ' (n + 1) = ⟨{ (σ n).mem with
        idleFibers := (Mpmc.dequeueStep 0 false (σ n).mem.idleFibers pc).1 },
        (σ n).pc.set ((σ n).mem.running i)
          (acquireNext (Mpmc.dequeueStep 0 false (σ n).mem.idleFibers pc).2)⟩ := by
  obtain ⟨σ', ℓ', hrun, hold, hnew, hlabel⟩ := h.run.extend (step_acquire hpanic hi hpc)
  refine ⟨σ', ℓ', ⟨hrun, fun k hk => ?_⟩, hold n (le_refl n), hlabel, hnew⟩
  rcases Nat.lt_or_ge n k with hlt | hge
  · obtain rfl : k = n + 1 := by omega
    rw [hnew]
    exact gathering_set (h.all n (le_refl n)) _ _ _
  · rw [hold k hge]
    exact h.all k hge

/-- A thread acquires its fiber without being interrupted. -/
theorem Gathers.acquire {fuel : Nat} (h : Gathers cfg σ ℓ n) (hpanic : (σ n).mem.panic = none)
    (hi : i < cfg.numThreads) {pc : DequeuePC Nat}
    (hpc : (σ n).pc ((σ n).mem.running i) = .idleDeq .start pc) {q : Mpmc Nat} {v : Nat}
    (hd : Mpmc.dequeueAlone 0 fuel pc (σ n).mem.idleFibers = (q, some v)) :
    ∃ σ' ℓ' k, Gathers cfg σ' ℓ' k ∧ (σ' k).mem = { (σ n).mem with idleFibers := q } ∧
      ∀ b, b ≠ (σ n).mem.running i → (σ' k).pc b = (σ n).pc b := by
  induction fuel generalizing σ ℓ n pc with
  | zero => cases hd
  | succ fuel ih =>
      obtain ⟨σ', ℓ', hg, -, -, hnew⟩ := h.extend hpanic hi hpc
      rw [Mpmc.dequeueAlone] at hd
      cases hr : Mpmc.dequeueStep 0 false (σ n).mem.idleFibers pc with
      | mk q' r =>
          rw [hr] at hd hnew
          cases r with
          | inl pc' =>
              have hpc' : (σ' (n + 1)).pc ((σ' (n + 1)).mem.running i) = .idleDeq .start pc' := by
                rw [hnew]
                exact Table.get_set_self _ _ _
              have hq' : (σ' (n + 1)).mem.idleFibers = q' := by rw [hnew]
              obtain ⟨τ, κ, k, hτ, hmem, hpcs⟩ := ih hg (by rw [hnew]; exact hpanic) hpc'
                (by rw [hq']; exact hd)
              refine ⟨τ, κ, k, hτ, by rw [hmem, hnew], fun b hb => ?_⟩
              have hrun : (σ' (n + 1)).mem.running i = (σ n).mem.running i := by
                rw [hnew]
                rfl
              rw [hpcs b (by rw [hrun]; exact hb), hnew]
              exact Table.get_set_ne _ _ hb
          | inr x =>
              obtain ⟨rfl, rfl⟩ := Prod.mk.inj hd
              refine ⟨σ', ℓ', n + 1, hg, by rw [hnew], fun b hb => ?_⟩
              rw [hnew]
              exact Table.get_set_ne _ _ hb

end Acquire

/-! ## What a valid configuration still needs -/

end TaskDispatcher.Scheduler
