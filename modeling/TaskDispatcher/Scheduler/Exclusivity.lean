import TaskDispatcher.Scheduler.Fibers

/-!
# No fiber runs twice

The initial state holds every fiber in the idle queue, so `FiberInv` holds along
every run.  Counting the switches into and out of a suspension in `wait` shows
that each suspension is resumed at most once.
-/

namespace TaskDispatcher.Scheduler

open TaskDispatcher.Library TaskDispatcher.Container

/-! ## The initial state -/

theorem start_tls (cfg : Config) (i : Nat) :
    ((start cfg).mem.tls i).currentFiberIndex = none ∧
      ((start cfg).mem.tls i).previousFiberDest = .none ∧
      (i < cfg.numThreads → (start cfg).mem.running i = cfg.numFibers + i) := by
  have hget : (start cfg).mem.tls i =
      ((((List.range cfg.numThreads).map fun i => ({
        currentFiberIndex := none
        previousFiberIndex := none
        previousFiberDest := .none
        running := cfg.numFibers + i } : Tls))[i]?).getD {
          currentFiberIndex := none
          previousFiberIndex := none
          previousFiberDest := .none
          running := cfg.numFibers }) := Table.lookup_eq_getD _ _ _
  rw [Mem.running, hget]
  by_cases hi : i < cfg.numThreads
  · simp [hi]
  · simp [hi]

/-- The idle queue holds the fibers in ascending order. -/
def FreshQueue (cfg : Config) (q : Mpmc Nat) : Prop :=
  ∀ pos g, q.entry pos = some g → pos = q.dequeuePos + g ∧ g < cfg.numFibers

theorem FreshQueue.of_contents {cfg : Config} {q : Mpmc Nat}
    (h : q.contents = List.range cfg.numFibers) : FreshQueue cfg q := by
  intro pos g hg
  have hle : q.dequeuePos ≤ pos := by
    by_contra hlt
    rw [Mpmc.entry, if_neg hlt] at hg
    cases hg
  obtain ⟨k, rfl⟩ := Nat.exists_eq_add_of_le hle
  rw [Mpmc.entry_eq_contents, h] at hg
  obtain ⟨hlt, heq⟩ := List.getElem?_eq_some_iff.1 hg
  rw [List.getElem_range] at heq
  rw [List.length_range] at hlt
  omega

/-- Every thread is about to acquire its first fiber, and all of them are idle. -/
theorem FiberInv.fresh {cfg : Config} {m : Mem} (htls : m.tls = (Scheduler.start cfg).mem.tls)
    (hcl : m.isWaitingCleanedUp = .const false) (hq : FreshQueue cfg m.idleFibers) :
    FiberInv cfg ⟨m, (Scheduler.start cfg).pc⟩ := by
  have hplace : ∀ P g, fiberAt cfg ⟨m, (Scheduler.start cfg).pc⟩ P = some g →
      ∃ pos, P = .idle pos := by
    intro P g hP
    cases P with
    | idle pos => exact ⟨pos, rfl⟩
    | hand a =>
        simp only [fiberAt, start_pc] at hP
        split at hP
        · cases hP
        · split at hP <;> cases hP
    | current i =>
        simp only [fiberAt, htls, (start_tls cfg i).1, ite_self] at hP
        cases hP
    | previous i =>
        simp [fiberAt, previousFiber, htls, (start_tls cfg i).2.1] at hP
    | suspended f =>
        simp [fiberAt, hcl] at hP
  have hentry : ∀ pos g, fiberAt cfg ⟨m, (Scheduler.start cfg).pc⟩ (.idle pos) = some g →
      pos = m.idleFibers.dequeuePos + g ∧ g < cfg.numFibers := hq
  have hentryPc : ∀ g, g < cfg.numFibers → (Scheduler.start cfg).pc g = .entry := by
    intro g hg
    rw [start_pc, if_pos hg]
  have hthreadPc : ∀ i, i < cfg.numThreads →
      (Scheduler.start cfg).pc (cfg.numFibers + i) = .idleDeq .start .load := by
    intro i hi
    rw [start_pc, if_neg (by omega), if_pos (by omega)]
  have htlsAt : ∀ i, m.tls i = (Scheduler.start cfg).mem.tls i := fun i => by rw [htls]
  have hrunning : ∀ i, i < cfg.numThreads → m.running i = cfg.numFibers + i := by
    intro i hi
    rw [Mem.running, htlsAt]
    exact (start_tls cfg i).2.2 hi
  refine ⟨?_, ?_, ?_, ?_, ?_, ?_, ?_, ?_, ?_⟩
  · intro P Q g hP hQ
    obtain ⟨p, rfl⟩ := hplace P g hP
    obtain ⟨q, rfl⟩ := hplace Q g hQ
    rw [(hentry p g hP).1, (hentry q g hQ).1]
  · intro P g hP
    obtain ⟨p, rfl⟩ := hplace P g hP
    exact (hentry p g hP).2
  · intro P g hP
    obtain ⟨p, rfl⟩ := hplace P g hP
    exact Or.inl (hentryPc g (hentry p g hP).2)
  · exact fun i hi => Or.inl (hrunning i hi)
  · intro i hi
    refine Or.inl ⟨Or.inl ⟨_, hthreadPc i hi⟩, hrunning i hi, ?_⟩
    show (m.tls i).currentFiberIndex = none
    rw [htlsAt]
    exact (start_tls cfg i).1
  · intro a ha
    rw [hentryPc a ha]
    simp [ThreadPC]
  · exact fun a ha _ => Or.inl (hentryPc a ha)
  · intro i hi k v pc heq
    replace heq : (Scheduler.start cfg).pc (m.running i) = .idleEnq k v pc := heq
    rw [hrunning i hi, hthreadPc i hi] at heq
    cases heq
  · intro i _ hne
    replace hne : (m.tls i).previousFiberDest ≠ .none := hne
    rw [htlsAt] at hne
    exact absurd (start_tls cfg i).2.1 hne

theorem FiberInv.start {cfg : Config} (hcfg : cfg.Ok) : FiberInv cfg (start cfg) := by
  obtain ⟨k, hk, hfibers⟩ := hcfg.fibers
  have hpop := (Mpmc.Inv.populate (A := Unit) hk 0 (le_refl (2 ^ k))).2
  rw [← hfibers] at hpop
  obtain ⟨hlog, -, hdeq, -⟩ := hpop
  refine .fresh rfl rfl (.of_contents ?_)
  show (populate cfg.numFibers cfg.numFibers).contents = _
  have hlog' : (populate cfg.numFibers cfg.numFibers).log = List.range cfg.numFibers := hlog
  have hdeq' : (populate cfg.numFibers cfg.numFibers).dequeuePos = 0 := hdeq
  rw [Mpmc.contents, hlog', hdeq', List.drop_zero]

/-! ## Suspensions -/

/-- Fiber `g` is suspended in `wait`. -/
def Suspended (cfg : Config) (s : State) (g : Nat) : Prop :=
  WaitPC (s.pc g) ∧ ∀ i, i < cfg.numThreads → s.mem.running i ≠ g

/-- How often a fiber was resumed, against how often it was suspended. -/
structure Balanced (cfg : Config) (s : State) (g : Nat) : Prop where
  out : Suspended cfg s g → s.mem.hist.suspends g = s.mem.hist.resumes g + 1
  back : ¬ Suspended cfg s g → s.mem.hist.suspends g = s.mem.hist.resumes g

namespace Balanced

variable {cfg : Config} {s : State} {i g : Nat} {m' : Mem} {p' : PC}

theorem congr (h : Balanced cfg s g) {s' : State}
    (hsus : Suspended cfg s' g ↔ Suspended cfg s g)
    (hsuspends : s'.mem.hist.suspends g = s.mem.hist.suspends g)
    (hresumes : s'.mem.hist.resumes g = s.mem.hist.resumes g) : Balanced cfg s' g where
  out hs := by
    rw [hsuspends, hresumes]
    exact h.out (hsus.1 hs)
  back hs := by
    rw [hsuspends, hresumes]
    exact h.back fun hold => hs (hsus.2 hold)

/-- A step that switches no fiber. -/
theorem frame (h : Balanced cfg s g) (hi : i < cfg.numThreads)
    (hrun : ∀ j, m'.running j = s.mem.running j)
    (hsuspends : m'.hist.suspends = s.mem.hist.suspends)
    (hresumes : m'.hist.resumes = s.mem.hist.resumes) :
    Balanced cfg ⟨m', s.pc.set (s.mem.running i) p'⟩ g := by
  refine h.congr ?_ (by rw [hsuspends]) (by rw [hresumes])
  by_cases hg : g = s.mem.running i
  · subst hg
    exact ⟨fun hs => absurd (hrun i) (hs.2 i hi), fun hs => absurd rfl (hs.2 i hi)⟩
  · constructor
    · rintro ⟨hw, hnot⟩
      replace hw : WaitPC ((s.pc.set (s.mem.running i) p') g) := hw
      rw [Table.get_set_ne _ _ hg] at hw
      exact ⟨hw, fun j hj => hrun j ▸ hnot j hj⟩
    · rintro ⟨hw, hnot⟩
      refine ⟨?_, fun j hj => ?_⟩
      · show WaitPC ((s.pc.set (s.mem.running i) p') g)
        rwa [Table.get_set_ne _ _ hg]
      · show m'.running j ≠ g
        exact hrun j ▸ hnot j hj

/-- A switch of thread `i` suspends at most its own fiber `f` and resumes at
most the fiber `x` it goes to. -/
theorem switched (h : Balanced cfg s g) {t' : Tls}
    (htls : m'.tls = s.mem.tls.set i t') (hne : g ≠ s.mem.running i) (hto : g ≠ t'.running)
    (hsuspends : m'.hist.suspends g = s.mem.hist.suspends g)
    (hresumes : m'.hist.resumes g = s.mem.hist.resumes g) :
    Balanced cfg ⟨m', s.pc.set (s.mem.running i) p'⟩ g := by
  refine h.congr ?_ hsuspends hresumes
  have hpc : (s.pc.set (s.mem.running i) p') g = s.pc g := Table.get_set_ne _ _ hne
  have hother : ∀ j, m'.running j ≠ g ↔ s.mem.running j ≠ g := by
    intro j
    by_cases hji : j = i
    · rw [hji, Mem.running, htls, Table.get_set_self]
      exact ⟨fun _ => hne.symm, fun _ => hto.symm⟩
    · rw [Mem.running, Mem.running, htls, Table.get_set_ne _ _ hji]
  constructor
  · rintro ⟨hw, hnot⟩
    exact ⟨hpc ▸ hw, fun j hj => (hother j).1 (hnot j hj)⟩
  · rintro ⟨hw, hnot⟩
    exact ⟨hpc.symm ▸ hw, fun j hj => (hother j).2 (hnot j hj)⟩

end Balanced

section Steps

variable {cfg : Config} {s s' : State} {i : Nat} {ch : Choice} {m' : Mem} {p' : PC} {l : Label}

theorem not_suspended_running (hi : i < cfg.numThreads) : ¬ Suspended cfg s (s.mem.running i) :=
  fun h => h.2 i hi rfl

theorem count_self (t : Table Nat) (i : Nat) : Hist.count t i i = t i + 1 := Table.get_set_self t i _

theorem count_ne (t : Table Nat) {i j : Nat} (h : j ≠ i) : Hist.count t i j = t j :=
  Table.get_set_ne t _ h

/-- A switch in `yieldToFiber`. -/
theorem Balanced.yieldTo (h : ∀ g, Balanced cfg s g) (hf : FiberInv cfg s) (hi : i < cfg.numThreads)
    {x : Nat} {k : YieldK} (hpc : s.pc (s.mem.running i) = .yieldTo x k)
    (hx : exec cfg s.mem i (s.mem.running i) ch (.yieldTo x k) = some (m', p')) (g : Nat) :
    Balanced cfg ⟨m', s.pc.set (s.mem.running i) p'⟩ g := by
  have hhand : fiberAt cfg s (.hand (s.mem.running i)) = some x := by
    simp only [fiberAt, hpc, fiberHand]
  have hnex : x ≠ s.mem.running i := hf.ne_running hi hhand (by simp)
  have hnot : ∀ j, j < cfg.numThreads → s.mem.running j ≠ x := by
    intro j hj heq
    exact hf.ne_running hj hhand (by simp) heq.symm
  have hrest := hf.resting _ x hhand
  cases hx
  by_cases hg : g = s.mem.running i
  · -- the fiber that yields
    subst hg
    have hold := (h (s.mem.running i)).back (not_suspended_running hi)
    have hnot' : ∀ j, j < cfg.numThreads → (s.mem.tls.set i
        { currentFiberIndex := some x
          previousFiberIndex := (s.mem.tls i).currentFiberIndex
          previousFiberDest := destination k
          running := x } j).running ≠ s.mem.running i := by
      intro j hj
      by_cases hji : j = i
      · rw [hji, Table.get_set_self]
        exact hnex
      · rw [Table.get_set_ne _ _ hji]
        exact fun heq => hji (hf.running_inj hj hi heq)
    cases k with
    | wait w =>
        refine ⟨fun _ => ?_, fun hs => absurd ⟨?_, hnot'⟩ hs⟩
        · show Hist.count s.mem.hist.suspends (s.mem.running i) (s.mem.running i) = _
          rw [count_self, hold]
        · show WaitPC ((s.pc.set _ _) _)
          rw [Table.get_set_self]
          exact ⟨w, rfl⟩
    | resume src =>
        refine ⟨fun hs => ?_, fun _ => ?_⟩
        · obtain ⟨w, hw⟩ : WaitPC ((s.pc.set _ _) _) := hs.1
          rw [Table.get_set_self] at hw
          cases hw
        · show s.mem.hist.suspends _ = Hist.count s.mem.hist.resumes x _
          rw [count_ne _ hnex.symm, hold]
  · by_cases hgx : g = x
    · -- the fiber it switches to
      subst hgx
      refine ⟨fun hs => absurd ?_ (hs.2 i hi), fun _ => ?_⟩
      · show (s.mem.tls.set i _ i).running = g
        rw [Table.get_set_self]
      simp only [Resting, hpc] at hrest
      cases k with
      | wait w =>
          have hnone : ¬ Suspended cfg s g := by
            rintro ⟨⟨w', hw⟩, -⟩
            simp only [resuming, Bool.false_eq_true, if_false] at hrest
            rcases hrest with he | ⟨src, he⟩ <;> rw [hw] at he <;> cases he
          show Hist.count s.mem.hist.suspends (s.mem.running i) g = _
          rw [count_ne _ hg]
          exact (h g).back hnone
      | resume src =>
          show s.mem.hist.suspends g = Hist.count s.mem.hist.resumes g g
          rw [count_self]
          exact (h g).out ⟨by simpa [resuming] using hrest, hnot⟩
    · refine (h g).switched rfl hg hgx ?_ ?_
      · cases k with
        | wait w => exact count_ne _ hg
        | resume src => rfl
      · cases k with
        | wait w => rfl
        | resume src => exact count_ne _ hgx

theorem Balanced.exec (h : ∀ g, Balanced cfg s g) (hf : FiberInv cfg s) (hi : i < cfg.numThreads)
    (hx : exec cfg s.mem i (s.mem.running i) ch (s.pc (s.mem.running i)) = some (m', p')) (g : Nat) :
    Balanced cfg ⟨m', s.pc.set (s.mem.running i) p'⟩ g := by
  cases hp : s.pc (s.mem.running i) with
  | yieldTo x k => exact Balanced.yieldTo h hf hi hp (hp ▸ hx) g
  | startSwitch x =>
      have hhand : fiberAt cfg s (.hand (s.mem.running i)) = some x := by
        simp only [fiberAt, hp, fiberHand]
      have hrest := hf.resting _ x hhand
      rw [hp] at hx
      cases hx
      by_cases hg : g = s.mem.running i
      · subst hg
        have hold := (h (s.mem.running i)).back (not_suspended_running hi)
        refine ⟨fun hs => ?_, fun _ => hold⟩
        obtain ⟨w, hw⟩ : WaitPC ((s.pc.set _ _) _) := hs.1
        rw [Table.get_set_self] at hw
        cases hw
      · by_cases hgx : g = x
        · subst hgx
          have hnone : ¬ Suspended cfg s g := by
            rintro ⟨⟨w', hw⟩, -⟩
            simp only [Resting, hp, resuming, Bool.false_eq_true, if_false] at hrest
            rcases hrest with he | ⟨src, he⟩ <;> rw [hw] at he <;> cases he
          refine ⟨fun hs => absurd ?_ (hs.2 i hi), fun _ => (h g).back hnone⟩
          show (s.mem.tls.set i _ i).running = g
          rw [Table.get_set_self]
        · exact (h g).switched rfl hg hgx rfl rfl
  | exitSwitch =>
      rw [hp] at hx
      cases hx
      by_cases hg : g = s.mem.running i
      · subst hg
        have hold := (h (s.mem.running i)).back (not_suspended_running hi)
        refine ⟨fun hs => ?_, fun _ => hold⟩
        obtain ⟨w, hw⟩ : WaitPC ((s.pc.set _ _) _) := hs.1
        rw [Table.get_set_self] at hw
        cases hw
      · by_cases hgx : g = cfg.numFibers + i
        · subst hgx
          have hdone : s.pc (cfg.numFibers + i) = .done := by
            rcases hf.thread i hi with ⟨-, hrun, -⟩ | hd
            · exact absurd hrun.symm hg
            · exact hd
          have hnone : ¬ Suspended cfg s (cfg.numFibers + i) := by
            rintro ⟨⟨w', hw⟩, -⟩
            rw [hdone] at hw
            cases hw
          refine ⟨fun hs => absurd ?_ (hs.2 i hi), fun _ => (h _).back hnone⟩
          show (s.mem.tls.set i _ i).running = _
          rw [Table.get_set_self]
        · exact (h g).switched rfl hg hgx rfl rfl
  | clean k =>
      rw [hp] at hx
      simp only [Scheduler.exec, cleanStep] at hx
      split at hx <;> cases hx
      · exact (h g).frame hi (fun _ => rfl) rfl rfl
      · exact (h g).frame hi (fun _ => rfl) rfl rfl
      · refine (h g).frame hi (fun j => ?_) rfl rfl
        simp only [Mem.running, Table.get_set]
        split
        · rename_i hji
          rw [hji]
        · rfl
  | idleEnq k v pc =>
      rw [hp] at hx
      simp only [Scheduler.exec] at hx
      split at hx <;> cases hx
      · exact (h g).frame hi (fun _ => rfl) rfl rfl
      · refine (h g).frame hi (fun j => ?_) rfl rfl
        simp only [Mem.running, Table.get_set]
        split
        · rename_i hji
          rw [hji]
        · rfl
  | increment inc =>
      rw [hp] at hx
      simp only [Scheduler.exec, incrementStep] at hx
      split at hx <;> cases hx
      · exact (h g).frame hi (fun _ => rfl) rfl rfl
      · exact (h g).frame hi (fun _ => rfl) rfl rfl
      · exact (h g).frame hi (fun _ => rfl) (by rw [Hist.announce_eq]) (by rw [Hist.announce_eq])
  | _ =>
      rw [hp] at hx
      simp only [Scheduler.exec, userStep, beginWait, afterWait, submitNext, afterRelease,
        pinStep] at hx
      (repeat' split at hx) <;> cases hx <;> exact (h g).frame hi (fun _ => rfl) rfl rfl

end Steps

theorem Balanced.start (cfg : Config) (g : Nat) : Balanced cfg (start cfg) g where
  out hs := by
    obtain ⟨⟨w, hw⟩, -⟩ := hs
    rw [start_pc] at hw
    split at hw
    · cases hw
    · split at hw <;> cases hw
  back _ := rfl

/-! ## Runs -/

/-- The invariants of the fibers. -/
structure FibersInv (cfg : Config) (s : State) : Prop where
  queues : QueueInv s
  fibers : FiberInv cfg s
  balanced : ∀ g, Balanced cfg s g

theorem FibersInv.start {cfg : Config} (hcfg : cfg.Ok) : FibersInv cfg (start cfg) :=
  ⟨.start hcfg, .start hcfg, .start cfg⟩

theorem FibersInv.step {cfg : Config} {s s' : State} {l : Label} (h : FibersInv cfg s)
    (hs : step cfg s l = some s') : FibersInv cfg s' := by
  refine ⟨h.queues.step hs, h.fibers.step h.queues hs, ?_⟩
  obtain ⟨-, hi, m', p', hx, rfl⟩ := step_eq_some.1 hs
  exact Balanced.exec h.balanced h.fibers hi hx

/-- A fiber that has completely switched out: it stands behind
`switch_to_fiber` in `yieldToFiber` or has not run yet. -/
def SwitchedOut (p : PC) : Prop := p = .entry ∨ ∃ k, p = .clean (.yielded k)

/-! ## Which agent runs on a thread -/

/-- The accesses that switch to another fiber. -/
def switches : PC → Bool
  | .startSwitch _ => true
  | .exitSwitch => true
  | .yieldTo _ _ => true
  | _ => false

theorem running_frame {cfg : Config} {m m' : Mem} {i f : Nat} {ch : Choice} {p p' : PC}
    (hx : exec cfg m i f ch p = some (m', p')) (hp : switches p = false) (j : Nat) :
    m'.running j = m.running j := by
  have hset : ∀ (t : Tls), t.running = m.running i → (m.tls.set i t j).running = m.running j := by
    intro t ht
    rw [Table.get_set]
    split
    · rename_i hji
      rw [ht, hji]
    · rfl
  cases p with
  | clean k =>
      simp only [exec, cleanStep] at hx
      split at hx <;> cases hx <;> first
        | rfl
        | exact hset _ rfl
  | idleEnq k v pc =>
      simp only [exec] at hx
      split at hx <;> cases hx <;> first
        | rfl
        | exact hset _ rfl
  | startSwitch g => cases hp
  | exitSwitch => cases hp
  | yieldTo g k => cases hp
  | _ =>
      simp only [exec, userStep, beginWait, afterWait, incrementStep, submitNext, afterRelease,
        pinStep] at hx
      (repeat' split at hx) <;> cases hx <;> rfl

/-- A switch changes what its own thread runs, to an agent that has switched
out or to the thread fiber. -/
theorem running_switch {cfg : Config} {s : State} {m' : Mem} {i : Nat} {ch : Choice} {p' : PC}
    (h : FiberInv cfg s) (hi : i < cfg.numThreads)
    (hx : exec cfg s.mem i (s.mem.running i) ch (s.pc (s.mem.running i)) = some (m', p'))
    (hp : switches (s.pc (s.mem.running i)) = true) :
    (∀ j, j ≠ i → m'.running j = s.mem.running j) ∧
      (SwitchedOut ((s.pc.set (s.mem.running i) p') (m'.running i)) ∨
        (s.pc.set (s.mem.running i) p') (m'.running i) = .done) := by
  have hout : ∀ g, fiberAt cfg s (.hand (s.mem.running i)) = some g →
      SwitchedOut ((s.pc.set (s.mem.running i) p') g) := by
    intro g hhand
    rw [Table.get_set_ne _ _ (h.ne_running hi hhand (by simp))]
    have hrest := h.resting _ g hhand
    simp only [Resting] at hrest
    split at hrest
    · obtain ⟨w, hw⟩ := hrest
      exact Or.inr ⟨_, hw⟩
    · rcases hrest with he | ⟨src, he⟩
      · exact Or.inl he
      · exact Or.inr ⟨_, he⟩
  have hother : ∀ (t : Tls) (j : Nat), j ≠ i → (s.mem.tls.set i t j).running = s.mem.running j := by
    intro t j hji
    rw [Table.get_set_ne _ _ hji]
    rfl
  cases hpc : s.pc (s.mem.running i) with
  | startSwitch g =>
      have hhand : fiberAt cfg s (.hand (s.mem.running i)) = some g := by
        simp only [fiberAt, hpc, fiberHand]
      rw [hpc] at hx
      cases hx
      refine ⟨hother _, Or.inl ?_⟩
      show SwitchedOut ((s.pc.set _ _) (s.mem.tls.set i _ i).running)
      rw [Table.get_set_self]
      exact hout g hhand
  | yieldTo g k =>
      have hhand : fiberAt cfg s (.hand (s.mem.running i)) = some g := by
        simp only [fiberAt, hpc, fiberHand]
      rw [hpc] at hx
      cases hx
      refine ⟨hother _, Or.inl ?_⟩
      show SwitchedOut ((s.pc.set _ _) (s.mem.tls.set i _ i).running)
      rw [Table.get_set_self]
      exact hout g hhand
  | exitSwitch =>
      rw [hpc] at hx
      cases hx
      refine ⟨hother _, Or.inr ?_⟩
      show (s.pc.set (s.mem.running i) .done) (s.mem.tls.set i _ i).running = _
      rw [Table.get_set_self, Table.get_set]
      split
      · rfl
      · rcases h.thread i hi with ⟨-, hrun, -⟩ | hd
        · exact absurd hrun.symm ‹_›
        · exact hd
  | _ =>
      rw [hpc] at hp
      cases hp

/-! ## The guarantees of the switches -/

/-- The guarantees of the switches between fibers. -/
structure Exclusive (cfg : Config) (s : State) : Prop where
  /-- every fiber is in at most one place, and every place holds fibers only -/
  places : Linear (fiberAt cfg s)
  fibers : ∀ P g, fiberAt cfg s P = some g → g < cfg.numFibers
  /-- the fiber that runs on a thread is its current fiber -/
  current : ∀ i, i < cfg.numThreads → s.mem.running i < cfg.numFibers →
    (s.mem.tls i).currentFiberIndex = some (s.mem.running i)
  /-- no fiber runs on two threads -/
  threads : ∀ i j, i < cfg.numThreads → j < cfg.numThreads →
    s.mem.running i = s.mem.running j → i = j
  /-- the target of a switch has switched out and runs on no thread -/
  target : ∀ i g, i < cfg.numThreads →
    (s.pc (s.mem.running i) = .startSwitch g ∨ ∃ k, s.pc (s.mem.running i) = .yieldTo g k) →
    SwitchedOut (s.pc g) ∧ ∀ j, j < cfg.numThreads →
      s.mem.running j ≠ g ∧ (s.mem.tls j).currentFiberIndex ≠ some g ∧ previousFiber s j ≠ some g
  /-- each suspension is resumed at most once -/
  once : ∀ g, s.mem.hist.resumes g ≤ s.mem.hist.suspends g ∧
    s.mem.hist.suspends g ≤ s.mem.hist.resumes g + 1
  /-- a switch that resumes a fiber ends a suspension that was not ended before -/
  resumed : ∀ i g src, i < cfg.numThreads → s.pc (s.mem.running i) = .yieldTo g (.resume src) →
    s.mem.hist.suspends g = s.mem.hist.resumes g + 1

theorem FibersInv.exclusive {cfg : Config} {s : State} (h : FibersInv cfg s) : Exclusive cfg s where
  places := h.fibers.linear
  fibers := h.fibers.range
  current i hi hf := by
    rcases h.fibers.runs i hi with hr | hr
    · omega
    · exact hr
  threads _ _ hi hj hij := h.fibers.running_inj hi hj hij
  target i g hi hpc := by
    have hhand : fiberAt cfg s (.hand (s.mem.running i)) = some g := by
      rcases hpc with hpc | ⟨k, hpc⟩ <;> simp only [fiberAt, hpc, fiberHand]
    refine ⟨?_, fun j hj => ⟨?_, ?_, ?_⟩⟩
    · have hrest := h.fibers.resting _ g hhand
      simp only [Resting] at hrest
      split at hrest
      · obtain ⟨w, hw⟩ := hrest
        exact Or.inr ⟨_, hw⟩
      · rcases hrest with he | ⟨src, he⟩
        · exact Or.inl he
        · exact Or.inr ⟨_, he⟩
    · exact fun heq => h.fibers.ne_running hj hhand (by simp) heq.symm
    · intro hcur
      have := h.fibers.linear (.current j) _ g (by simp only [fiberAt, if_pos hj, hcur]) hhand
      cases this
    · intro hprev
      have := h.fibers.linear (.previous j) _ g (by simp only [fiberAt, if_pos hj, hprev]) hhand
      cases this
  once g := by
    by_cases hs : Suspended cfg s g
    · have := (h.balanced g).out hs
      omega
    · have := (h.balanced g).back hs
      omega
  resumed i g src hi hpc := by
    have hhand : fiberAt cfg s (.hand (s.mem.running i)) = some g := by
      simp only [fiberAt, hpc, fiberHand]
    have hrest := h.fibers.resting _ g hhand
    simp only [Resting, hpc, resuming, if_true] at hrest
    exact (h.balanced g).out ⟨hrest, fun j hj heq => h.fibers.ne_running hj hhand (by simp) heq.symm⟩

theorem FibersInv.run {cfg : Config} (hcfg : cfg.Ok) {σ : Nat → State} {ℓ : Nat → Label} {n : Nat}
    (h : Run (Scheduler.step cfg) (Scheduler.start cfg) σ ℓ n) : ∀ k, k ≤ n → FibersInv cfg (σ k) :=
  h.invariant (.start hcfg) fun _ _ _ hI hs => hI.step hs

/-- Fiber exclusivity in every state of every run. -/
theorem exclusive_of_run {cfg : Config} (hcfg : cfg.Ok) {σ : Nat → State} {ℓ : Nat → Label} {n : Nat}
    (h : Run (step cfg) (start cfg) σ ℓ n) {k : Nat} (hk : k ≤ n) : Exclusive cfg (σ k) :=
  (FibersInv.run hcfg h k hk).exclusive

theorem exclusive_start :
    Exclusive smallConfig
      (trace (step smallConfig) (start smallConfig) (List.replicate 7 ⟨0, .go⟩) 7) :=
  exclusive_of_run smallConfig_ok
    (Run.of_follows (G := fun _ _ => true) ⟨0, .go⟩ (by decide +kernel)) (by decide)

end TaskDispatcher.Scheduler
