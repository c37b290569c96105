import TaskDispatcher.Scheduler.Joins

/-!
# Shutting down

The end of the main task sets `mIsShuttingDown`, and each worker leaves at the top of its
loop.  Nobody leaves earlier, and a fiber that is looking for a task at that moment executes
one more at most.
-/

namespace TaskDispatcher.Scheduler

open TaskDispatcher.Library TaskDispatcher.Container

variable {cfg : Config} {s s' : State} {m m' : Mem} {i f : Nat} {ch : Choice} {p p' : PC}
  {l : Label}

/-! ## How the accesses of the end go on -/

/-- The flag is only set, and only by the main task. -/
theorem exec_down (hx : exec cfg m i f ch p = some (m', p')) :
    m'.isShuttingDown = m.isShuttingDown ∨ p = .shutDown ∧ m'.isShuttingDown = true := by
  cases exec_body hx with
  | stay _ _ _ _ hmain => exact Or.inl (congrArg Prod.snd hmain)
  | main _ _ _ _ hmain => exact Or.inl (congrArg Prod.snd hmain)
  | worker _ _ _ _ hmain => exact Or.inl (congrArg Prod.snd hmain)
  | begun _ _ _ _ _ hmain => exact Or.inl (congrArg Prod.snd hmain)
  | ended _ _ _ _ _ _ hmain => exact Or.inl (congrArg Prod.snd hmain)
  | launch _ _ _ _ _ hdown => exact Or.inl hdown
  | shut hp _ _ _ hdown => exact Or.inr ⟨hp, hdown⟩

theorem exec_down_mono (hx : exec cfg m i f ch p = some (m', p')) (h : m.isShuttingDown = true) :
    m'.isShuttingDown = true := by
  rcases exec_down hx with hsame | ⟨-, hdown⟩
  · rw [hsame]
    exact h
  · exact hdown

/-- Thread `0` makes the fiber of the main task when it launches it. -/
theorem exec_primary (hx : exec cfg m i f ch p = some (m', p')) :
    m'.primary = m.primary ∨ i = 0 ∧ ∃ g, p = .startSwitch g ∧ m'.primary = some g := by
  cases exec_body hx with
  | stay _ _ _ _ hmain => exact Or.inl (congrArg Prod.fst hmain)
  | main _ _ _ _ hmain => exact Or.inl (congrArg Prod.fst hmain)
  | worker _ _ _ _ hmain => exact Or.inl (congrArg Prod.fst hmain)
  | begun _ _ _ _ _ hmain => exact Or.inl (congrArg Prod.fst hmain)
  | ended _ _ _ _ _ _ hmain => exact Or.inl (congrArg Prod.fst hmain)
  | shut _ _ _ hprimary _ => exact Or.inl hprimary
  | launch g hp _ _ hprimary _ =>
      by_cases hi : i = 0
      · rw [if_pos hi] at hprimary
        exact Or.inr ⟨hi, g, hp, hprimary⟩
      · rw [if_neg hi] at hprimary
        exact Or.inl hprimary

/-- Between the loop test of `fiber_func` and the task that `getNextTask` finds. -/
def getting : PC → Bool
  | .getLock => true
  | .getPop => true
  | .getUnlock _ => true
  | .tryResume _ _ => true
  | .reLock _ => true
  | .rePush _ => true
  | .reUnlock => true
  | .resDeq _ => true
  | .resEnq .getNextTask _ _ => true
  | .taskDeq _ => true
  | .yieldTo _ (.resume _) => true
  | .clean (.yielded (.resume _)) => true
  | .idleEnq (.yielded (.resume _)) _ _ => true
  | _ => false

/-- What ends a thread, and what ends the main task. -/
def ending : PC → Bool
  | .shutDown => true
  | .exitSwitch => true
  | .done => true
  | _ => false

/-- How an access goes on to look for a task or to end. -/
inductive PhaseMove (m : Mem) (f : Nat) (p p' : PC) : Prop where
  | works : getting p' = false → ending p' = false → PhaseMove m f p p'
  | goes : getting p = true → ending p' = false → PhaseMove m f p p'
  | looks : p = .loop → m.isShuttingDown = false → ending p' = false → PhaseMove m f p p'
  | leaves : p = .loop → m.isShuttingDown = true → p' = .exitSwitch → PhaseMove m f p p'
  | ends : p = .body → m.task f = none → p' = .shutDown → PhaseMove m f p p'
  | shuts : p = .shutDown → p' = .exitSwitch → PhaseMove m f p p'
  | stops : (p = .exitSwitch ∨ ∃ g, p = .startSwitch g) → p' = .done → PhaseMove m f p p'

theorem PhaseMove.nextSlot (x : Scan) (j : Nat) : PhaseMove m f p (nextSlot x j) := by
  unfold Scheduler.nextSlot
  split
  · exact .works rfl rfl
  · cases x.k <;> exact .works rfl rfl

theorem exec_phase (hx : exec cfg m i f ch p = some (m', p')) : PhaseMove m f p p' := by
  cases p with
  | startSwitch g =>
      cases hx
      exact .stops (Or.inr ⟨g, rfl⟩) rfl
  | exitSwitch =>
      cases hx
      exact .stops (Or.inl rfl) rfl
  | shutDown =>
      cases hx
      exact .shuts rfl rfl
  | loop =>
      simp only [exec, Option.some.injEq, Prod.mk.injEq] at hx
      obtain ⟨rfl, rfl⟩ := hx
      split
      · exact .leaves rfl ‹_› rfl
      · exact .looks rfl (Bool.eq_false_of_not_eq_true ‹_›) rfl
  | entry =>
      simp only [exec, Option.some.injEq, Prod.mk.injEq] at hx
      obtain ⟨rfl, rfl⟩ := hx
      split <;> exact .works rfl rfl
  | body =>
      simp only [exec] at hx
      split at hx
      · rename_i u
        cases u with
        | ret =>
            simp only [userStep] at hx
            split at hx <;> cases hx
            · exact .ends rfl ‹_› rfl
            · exact .works rfl rfl
        | _ =>
            simp only [userStep, beginWait, submitTasks] at hx
            (repeat' split at hx) <;> cases hx <;> exact .works rfl rfl
      · cases hx
  | clean k =>
      simp only [exec, cleanStep] at hx
      rcases k with _ | _ | (_ | _) <;> split at hx <;> cases hx <;>
        first | exact .works rfl rfl | exact .goes rfl rfl
  | idleEnq k v pc =>
      simp only [exec] at hx
      rcases k with _ | _ | (_ | _) <;> split at hx <;> cases hx <;>
        first | exact .works rfl rfl | exact .goes rfl rfl
  | yieldTo g k =>
      cases hx
      cases k with
      | wait w => exact .works rfl rfl
      | resume src => exact .goes rfl rfl
  | getUnlock got =>
      cases hx
      cases got <;> exact .goes rfl rfl
  | resEnq k v pc =>
      simp only [exec] at hx
      cases k <;> split at hx <;> cases hx <;> first | exact .works rfl rfl | exact .goes rfl rfl
  | scan x j pc =>
      obtain ⟨a, r, -, -, rfl⟩ := exec_scan hx
      cases r with
      | skip => exact .nextSlot x j
      | _ => exact .works rfl rfl
  | pin x j reg t pc =>
      cases pc with
      | lock =>
          simp only [exec, pinStep] at hx
          split at hx <;> cases hx <;> exact .works rfl rfl
      | push =>
          cases hx
          exact .works rfl rfl
      | unlock =>
          cases hx
          exact .works rfl rfl
  | add w j pc =>
      obtain ⟨a, r, -, -, rfl⟩ := exec_add hx
      rcases r with _ | (_ | _) | _ <;> exact .works rfl rfl
  | waitDone w =>
      simp only [exec, Option.map_eq_some_iff] at hx
      obtain ⟨q, hq, hm⟩ := hx
      cases hm
      unfold afterWait at hq
      split at hq
      · cases hq
        exact .works rfl rfl
      · split at hq <;> cases hq
        exact .works rfl rfl
  | resetSlot c j k =>
      cases hx
      split <;> exact .works rfl rfl
  | _ =>
      simp only [exec, incrementStep, submitNext, afterRelease, submitTasks] at hx
      (repeat' split at hx) <;> cases hx <;> first | exact .works rfl rfl | exact .goes rfl rfl

/-! ## Nobody leaves before the main task has ended -/

structure Orderly (cfg : Config) (s : State) : Prop where
  /-- the main task is launched once -/
  launch : s.mem.primary ≠ none → s.pc cfg.numFibers = .done
  /-- whoever runs a body without a task runs the main task -/
  taskless : ∀ a, inBody (s.pc a) = true → s.mem.task a = none → s.mem.primary = some a
  shuts : ∀ a, s.pc a = .shutDown → s.mem.primary = some a
  leaves : ∀ a, s.pc a = .exitSwitch → s.mem.isShuttingDown = true
  main : s.mem.isShuttingDown = true →
    ∃ g, s.mem.primary = some g ∧ (s.pc g = .exitSwitch ∨ s.pc g = .done)
  stopped : ∀ j, j < cfg.numThreads → s.pc (s.mem.running j) = .done →
    s.mem.isShuttingDown = true

/-- A fiber in the hands of a thread has switched out. -/
theorem switchedOut_of_hand (hf : FiberInv cfg s) {a g : Nat}
    (hhand : fiberAt cfg s (.hand a) = some g) : SwitchedOut (s.pc g) := by
  have hrest := hf.resting _ g hhand
  simp only [Resting] at hrest
  split at hrest
  · obtain ⟨w, hw⟩ := hrest
    exact Or.inr ⟨_, hw⟩
  · rcases hrest with hentry | ⟨src, hclean⟩
    · exact Or.inl hentry
    · exact Or.inr ⟨_, hclean⟩

/-- What a thread switches to has switched out, unless the thread ends. -/
theorem switches_to (hf : FiberInv cfg s) (hi : i < cfg.numThreads)
    (hx : exec cfg s.mem i (s.mem.running i) ch (s.pc (s.mem.running i)) = some (m', p'))
    (hsw : switches (s.pc (s.mem.running i)) = true) :
    SwitchedOut ((s.pc.set (s.mem.running i) p') (m'.running i)) ∨
      s.pc (s.mem.running i) = .exitSwitch := by
  have hout : ∀ g, fiberAt cfg s (.hand (s.mem.running i)) = some g → m'.running i = g →
      SwitchedOut ((s.pc.set (s.mem.running i) p') (m'.running i)) := by
    intro g hhand hrun
    rw [hrun, Table.get_set_ne _ _ (hf.ne_running hi hhand (by simp))]
    exact switchedOut_of_hand hf hhand
  cases hp : s.pc (s.mem.running i) with
  | exitSwitch => exact Or.inr rfl
  | startSwitch g =>
      left
      apply hout g
      · simp only [fiberAt, hp, fiberHand]
      · rw [hp] at hx
        cases hx
        exact congrArg Tls.running (Table.get_set_self _ _ _)
  | yieldTo g k =>
      left
      apply hout g
      · simp only [fiberAt, hp, fiberHand]
      · rw [hp] at hx
        cases hx
        exact congrArg Tls.running (Table.get_set_self _ _ _)
  | _ =>
      rw [hp] at hsw
      cases hsw

section Step

variable (h : Orderly cfg s) (hf : FiberInv cfg s) (hi : i < cfg.numThreads)
  (hx : exec cfg s.mem i (s.mem.running i) ch (s.pc (s.mem.running i)) = some (m', p'))

include h hf hi hx

/-- Once there is a main task nothing changes that. -/
theorem Orderly.primary_step {g : Nat} (hg : s.mem.primary = some g) : m'.primary = some g := by
  rcases exec_primary hx with hsame | ⟨rfl, x, hp, -⟩
  · rw [hsame]
    exact hg
  · -- a thread fiber that has yet to launch the main task
    have hrun := hf.running_of_startSwitch hi hp
    have hdone := h.launch (by rw [hg]; exact fun heq => nomatch heq)
    rw [hrun, Nat.add_zero, hdone] at hp
    cases hp

theorem Orderly.launch_step (hnew : m'.primary ≠ none) :
    (s.pc.set (s.mem.running i) p') cfg.numFibers = .done := by
  rcases exec_primary hx with hsame | ⟨rfl, x, hp, -⟩
  · rw [hsame] at hnew
    have hdone := h.launch hnew
    rw [Table.get_set]
    split
    · rename_i heq
      rw [← heq, hdone] at hx
      cases hx
    · exact hdone
  · have hrun := hf.running_of_startSwitch hi hp
    rw [hp] at hx
    cases hx
    rw [hrun, Nat.add_zero]
    exact Table.get_set_self _ _ _

theorem Orderly.taskless_step {a : Nat}
    (ha : inBody ((s.pc.set (s.mem.running i) p') a) = true) (hnone : m'.task a = none) :
    m'.primary = some a := by
  by_cases haf : a = s.mem.running i
  · rw [haf, Table.get_set_self] at ha
    rw [haf] at hnone ⊢
    cases exec_body hx with
    | stay hbody _ _ htask _ => exact h.primary_step hf hi hx (h.taskless _ (hbody ▸ ha) (htask ▸ hnone))
    | main _ hmain _ _ _ => exact h.primary_step hf hi hx hmain
    | worker _ _ hp' _ _ =>
        rw [hp'] at ha
        cases ha
    | begun _ t _ _ htask _ =>
        rw [htask, Table.get_set_self] at hnone
        cases hnone
    | ended _ _ hbody _ _ _ _ =>
        rw [hbody] at ha
        cases ha
    | launch _ _ hp' _ _ _ =>
        rw [hp'] at ha
        cases ha
    | shut _ hp' _ _ _ =>
        rw [hp'] at ha
        cases ha
  · rw [Table.get_set_ne _ _ haf] at ha
    rw [exec_task hx haf] at hnone
    exact h.primary_step hf hi hx (h.taskless a ha hnone)

theorem Orderly.shuts_step {a : Nat} (ha : (s.pc.set (s.mem.running i) p') a = .shutDown) :
    m'.primary = some a := by
  apply h.primary_step hf hi hx
  by_cases haf : a = s.mem.running i
  · rw [haf, Table.get_set_self] at ha
    subst ha
    rw [haf]
    cases exec_phase hx with
    | ends hp hnone _ =>
        apply h.taskless _ _ hnone
        rw [hp]
        rfl
    | works _ hend => cases hend
    | goes _ hend => cases hend
    | looks _ _ hend => cases hend
    | leaves _ _ hp' => cases hp'
    | shuts _ hp' => cases hp'
    | stops _ hp' => cases hp'
  · rw [Table.get_set_ne _ _ haf] at ha
    exact h.shuts a ha

omit hf hi in
theorem Orderly.leaves_step {a : Nat} (ha : (s.pc.set (s.mem.running i) p') a = .exitSwitch) :
    m'.isShuttingDown = true := by
  by_cases haf : a = s.mem.running i
  · rw [haf, Table.get_set_self] at ha
    subst ha
    cases exec_phase hx with
    | leaves _ hdown _ => exact exec_down_mono hx hdown
    | shuts hp _ =>
        rw [hp] at hx
        cases hx
        rfl
    | works _ hend => cases hend
    | goes _ hend => cases hend
    | looks _ _ hend => cases hend
    | ends _ _ hp' => cases hp'
    | stops _ hp' => cases hp'
  · rw [Table.get_set_ne _ _ haf] at ha
    exact exec_down_mono hx (h.leaves a ha)

theorem Orderly.main_step (hdown : m'.isShuttingDown = true) :
    ∃ g, m'.primary = some g ∧ ((s.pc.set (s.mem.running i) p') g = .exitSwitch ∨
      (s.pc.set (s.mem.running i) p') g = .done) := by
  rcases exec_down hx with hsame | ⟨hp, -⟩
  · rw [hsame] at hdown
    obtain ⟨g, hg, hpc⟩ := h.main hdown
    refine ⟨g, h.primary_step hf hi hx hg, ?_⟩
    by_cases hgf : g = s.mem.running i
    · rw [hgf] at hpc ⊢
      rw [Table.get_set_self]
      rcases hpc with hp | hp
      · rw [hp] at hx
        cases hx
        exact Or.inr rfl
      · rw [hp] at hx
        cases hx
    · rw [Table.get_set_ne _ _ hgf]
      exact hpc
  · refine ⟨s.mem.running i, h.primary_step hf hi hx (h.shuts _ hp), ?_⟩
    rw [hp] at hx
    cases hx
    left
    exact Table.get_set_self _ _ _

theorem Orderly.stopped_step {j : Nat} (hj : j < cfg.numThreads)
    (hdone : (s.pc.set (s.mem.running i) p') (m'.running j) = .done) : m'.isShuttingDown = true := by
  by_cases hji : j = i
  · subst hji
    cases hsw : switches (s.pc (s.mem.running j)) with
    | false =>
        rw [running_frame hx hsw j, Table.get_set_self] at hdone
        subst hdone
        cases exec_phase hx with
        | stops hp _ => rcases hp with hp | ⟨g, hp⟩ <;> rw [hp] at hsw <;> cases hsw
        | works _ hend => cases hend
        | goes _ hend => cases hend
        | looks _ _ hend => cases hend
        | leaves _ _ hp' => cases hp'
        | ends _ _ hp' => cases hp'
        | shuts _ hp' => cases hp'
    | true =>
        -- what a thread switches to has not stopped, except for its own fiber
        rcases switches_to hf hi hx hsw with hout | hp
        · rcases hout with hout | ⟨k, hout⟩ <;> rw [hout] at hdone <;> cases hdone
        · exact exec_down_mono hx (h.leaves _ hp)
  · have hrun : m'.running j = s.mem.running j := by
      cases hsw : switches (s.pc (s.mem.running i)) with
      | false => exact running_frame hx hsw j
      | true => exact (running_switch hf hi hx hsw).1 j hji
    have hne : s.mem.running j ≠ s.mem.running i := fun heq => hji (hf.running_inj hj hi heq)
    rw [hrun, Table.get_set_ne _ _ hne] at hdone
    exact exec_down_mono hx (h.stopped j hj hdone)

end Step

theorem Orderly.step (h : Orderly cfg s) (hf : FiberInv cfg s) (hs : step cfg s l = some s') :
    Orderly cfg s' := by
  obtain ⟨-, hi, m', p', hx, rfl⟩ := step_eq_some.1 hs
  constructor
  · exact h.launch_step hf hi hx
  · intro a ha hnone
    exact h.taskless_step hf hi hx ha hnone
  · intro a ha
    exact h.shuts_step hf hi hx ha
  · intro a ha
    exact h.leaves_step hx ha
  · exact h.main_step hf hi hx
  · intro j hj hdone
    exact h.stopped_step hf hi hx hj hdone

theorem Orderly.start : Orderly cfg (start cfg) := by
  have hpc : ∀ a, (Scheduler.start cfg).pc a = .entry ∨
      (Scheduler.start cfg).pc a = .idleDeq .start .load ∨ (Scheduler.start cfg).pc a = .done := by
    intro a
    rw [start_pc]
    split
    · exact Or.inl rfl
    · split
      · exact Or.inr (Or.inl rfl)
      · exact Or.inr (Or.inr rfl)
  constructor
  · intro hprimary
    exact absurd rfl hprimary
  · intro a ha
    rcases hpc a with hp | hp | hp <;> rw [hp] at ha <;> cases ha
  · intro a ha
    rcases hpc a with hp | hp | hp <;> rw [hp] at ha <;> cases ha
  · intro a ha
    rcases hpc a with hp | hp | hp <;> rw [hp] at ha <;> cases ha
  · intro hdown
    cases hdown
  · intro j hj hdone
    rw [(start_tls cfg j).2.2 hj, start_pc, if_neg (by omega), if_pos (by omega)] at hdone
    cases hdone

/-- What a user of `start` relies on. -/
structure InOrder (cfg : Config) (s : State) : Prop where
  main : s.mem.isShuttingDown = true →
    ∃ g, s.mem.primary = some g ∧ (s.pc g = .exitSwitch ∨ s.pc g = .done)
  leaves : ∀ j, j < cfg.numThreads →
    s.pc (s.mem.running j) = .exitSwitch ∨ s.pc (s.mem.running j) = .done →
    s.mem.isShuttingDown = true

/-- In every run no thread leaves the scheduler before the main task has ended. -/
theorem inOrder_of_run (hcfg : cfg.Ok) {σ : Nat → State} {ℓ : Nat → Label} {n : Nat}
    (hrun : Run (step cfg) (start cfg) σ ℓ n) {k : Nat} (hk : k ≤ n) : InOrder cfg (σ k) := by
  have hfibers := FibersInv.run hcfg hrun
  have horderly : ∀ k, k ≤ n → Orderly cfg (σ k) := by
    intro k
    induction k with
    | zero =>
        intro _
        rw [hrun.start]
        exact Orderly.start
    | succ k ih =>
        intro hk
        exact (ih (by omega)).step (hfibers k (by omega)).fibers (hrun.next k hk)
  have h := horderly k hk
  refine ⟨h.main, fun j hj hpc => ?_⟩
  rcases hpc with hleaves | hdone
  · exact h.leaves _ hleaves
  · exact h.stopped j hj hdone

/-- The main task submits a task and ends while thread `1` is looking for one, and thread `1`
begins it. -/
def endLabels : List Label :=
  goes 0 7 ++ calls 0 (.submit 0 1) 38 ++ [⟨0, .handle 0⟩] ++ goes 0 38 ++ goes 1 12 ++
    calls 0 .ret 2 ++ goes 1 7

theorem inOrder_end :
    InOrder pairConfig (trace (step pairConfig) (start pairConfig) endLabels 107) := by
  have hfollows : follows (step pairConfig) (fun _ _ => true) (start pairConfig) endLabels =
      true := by decide +kernel
  exact inOrder_of_run pairConfig_ok (Run.of_follows ⟨0, .go⟩ hfollows) (by decide +kernel)

/-! ## What is still executed -/

/-- The fibers that are looking for a task. -/
def looking (cfg : Config) (s : State) : Finset Nat :=
  (Finset.range cfg.numFibers).filter fun a => getting (s.pc a) = true

/-- A thread takes a task out of the queue and begins it. -/
def beginsTask (s : State) (l : Label) (s' : State) : Bool :=
  match s.pc (s.mem.running l.thread) with
  | .taskDeq _ => s'.pc (s.mem.running l.thread) = .body
  | _ => false

/-- The tasks begun in the `n` steps from `j` on. -/
def tasksBegun (σ : Nat → State) (ℓ : Nat → Label) (j : Nat) : Nat → Nat
  | 0 => 0
  | n + 1 =>
      tasksBegun σ ℓ j n + if beginsTask (σ (j + n)) (ℓ (j + n)) (σ (j + n + 1)) then 1 else 0

theorem getting_step (hx : exec cfg m i f ch p = some (m', p')) (hdown : m.isShuttingDown = true)
    (h : getting p' = true) : getting p = true := by
  cases exec_phase hx with
  | works hp' _ =>
      rw [hp'] at h
      cases h
  | goes hp _ => exact hp
  | looks _ hup _ =>
      rw [hup] at hdown
      cases hdown
  | leaves _ _ hp' =>
      rw [hp'] at h
      cases h
  | ends _ _ hp' =>
      rw [hp'] at h
      cases h
  | shuts _ hp' =>
      rw [hp'] at h
      cases h
  | stops _ hp' =>
      rw [hp'] at h
      cases h

/-- A step after the end of the main task: a fiber that begins a task stops looking for
one, and none starts to look. -/
theorem looking_step (hf : FiberInv cfg s) (hdown : s.mem.isShuttingDown = true)
    (hs : step cfg s l = some s') :
    (looking cfg s').card + (if beginsTask s l s' then 1 else 0) ≤ (looking cfg s).card := by
  obtain ⟨-, hi, m', p', hx, rfl⟩ := step_eq_some.1 hs
  have hsub : looking cfg ⟨m', s.pc.set (s.mem.running l.thread) p'⟩ ⊆ looking cfg s := by
    intro a ha
    simp only [looking, Finset.mem_filter] at ha ⊢
    refine ⟨ha.1, ?_⟩
    by_cases haf : a = s.mem.running l.thread
    · rw [haf, Table.get_set_self] at ha
      rw [haf]
      exact getting_step hx hdown ha.2
    · rw [Table.get_set_ne _ _ haf] at ha
      exact ha.2
  split
  · rename_i hbegins
    unfold beginsTask at hbegins
    split at hbegins
    · rename_i pc hp
      have hbody : p' = .body := by simpa using hbegins
      apply Finset.card_lt_card
      rw [Finset.ssubset_iff_of_subset hsub]
      refine ⟨s.mem.running l.thread, ?_, ?_⟩
      · -- a thread fiber takes no tasks
        have hfiber : s.mem.running l.thread < cfg.numFibers := by
          rcases hf.runs l.thread hi with hrun | hrun
          · rw [hrun] at hp
            rcases hf.thread l.thread hi with ⟨hthread, -⟩ | hdone
            · rw [hp] at hthread
              rcases hthread with ⟨_, heq⟩ | ⟨_, heq⟩ <;> cases heq
            · rw [hdone] at hp
              cases hp
          · apply hf.range (.current l.thread)
            simp only [fiberAt, if_pos hi, hrun]
        simp only [looking, Finset.mem_filter, Finset.mem_range, hp]
        exact ⟨hfiber, rfl⟩
      · simp only [looking, Finset.mem_filter, not_and]
        intro _
        rw [Table.get_set_self, hbody]
        exact Bool.false_ne_true
    · cases hbegins
  · exact Finset.card_le_card hsub

/-- In every run, the tasks begun from some step after the end of the main task on are no
more than the fibers that were looking for one then. -/
theorem lastTasks_of_run (hcfg : cfg.Ok) {σ : Nat → State} {ℓ : Nat → Label} {n : Nat}
    (hrun : Run (step cfg) (start cfg) σ ℓ n) {j m : Nat} (hjm : j + m ≤ n)
    (hdown : (σ j).mem.isShuttingDown = true) :
    tasksBegun σ ℓ j m + (looking cfg (σ (j + m))).card ≤ (looking cfg (σ j)).card := by
  have hfibers := FibersInv.run hcfg hrun
  have hstays : ∀ i, i ≤ m → (σ (j + i)).mem.isShuttingDown = true := by
    intro i
    induction i with
    | zero => exact fun _ => hdown
    | succ i ih =>
        intro hi
        obtain ⟨-, -, m', p', hx, heq⟩ := step_eq_some.1 (hrun.next (j + i) (by omega))
        show (σ (j + i + 1)).mem.isShuttingDown = true
        rw [heq]
        exact exec_down_mono hx (ih (by omega))
  have hcount : ∀ i, i ≤ m →
      tasksBegun σ ℓ j i + (looking cfg (σ (j + i))).card ≤ (looking cfg (σ j)).card := by
    intro i
    induction i with
    | zero =>
        intro _
        rw [tasksBegun, Nat.zero_add]
        exact le_refl _
    | succ i ih =>
        intro hi
        have hprev := ih (by omega)
        have hnext := looking_step (hfibers (j + i) (by omega)).fibers (hstays i (by omega))
          (hrun.next (j + i) (by omega))
        rw [tasksBegun, ← Nat.add_assoc]
        omega
  exact hcount m (le_refl m)

theorem lastTasks_end :
    tasksBegun (trace (step pairConfig) (start pairConfig) endLabels)
          (fun k => endLabels.getD k ⟨0, .go⟩) 99 8 +
        (looking pairConfig (trace (step pairConfig) (start pairConfig) endLabels (99 + 8))).card ≤
      (looking pairConfig (trace (step pairConfig) (start pairConfig) endLabels 99)).card := by
  have hfollows : follows (step pairConfig) (fun _ _ => true) (start pairConfig) endLabels =
      true := by decide +kernel
  have hlength : 99 + 8 ≤ endLabels.length := by decide +kernel
  exact lastTasks_of_run pairConfig_ok (Run.of_follows ⟨0, .go⟩ hfollows) hlength (by decide +kernel)

example : tasksBegun (trace (step pairConfig) (start pairConfig) endLabels)
    (fun k => endLabels.getD k ⟨0, .go⟩) 99 8 = 1 := by decide +kernel

end TaskDispatcher.Scheduler
