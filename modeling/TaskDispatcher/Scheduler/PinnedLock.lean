import TaskDispatcher.Scheduler.Deliveries

/-!
# The lock of the pinned queues

`pinned_resumable_fibers` is not synchronized at all: whoever touches the queue of a thread
stands between `lock` and `unlock` of that thread's `pinned_resumable_fibers_lock`.
-/

namespace TaskDispatcher.Scheduler

open TaskDispatcher.Library TaskDispatcher.Container

/-- Between `lock` and `unlock` of the queue of thread `t`, for an agent that runs on thread
`i`. -/
def insideLock (t i : Nat) : PC → Prop
  | .getPop => t = i
  | .getUnlock _ => t = i
  | .rePush _ => t = i
  | .reUnlock => t = i
  | .pin _ _ _ u .push => t = u
  | .pin _ _ _ u .unlock => t = u
  | _ => False

/-- The accesses to the queue of thread `t`. -/
def touchesQueue (t i : Nat) : PC → Prop
  | .getPop => t = i
  | .rePush _ => t = i
  | .pin _ _ _ u .push => t = u
  | _ => False

/-- Thread `i` holds the lock of thread `t`. -/
def HoldsLock (cfg : Config) (s : State) (t i : Nat) : Prop :=
  i < cfg.numThreads ∧ insideLock t i (s.pc (s.mem.running i))

/-- Thread `i` is about to touch the queue of thread `t`. -/
def Touches (cfg : Config) (s : State) (t i : Nat) : Prop :=
  i < cfg.numThreads ∧ touchesQueue t i (s.pc (s.mem.running i))

theorem inside_of_touches {t i : Nat} {p : PC} (h : touchesQueue t i p) : insideLock t i p := by
  cases p with
  | getPop => exact h
  | rePush v => exact h
  | pin x j reg u pc =>
      cases pc with
      | push => exact h
      | lock => exact h.elim
      | unlock => exact h.elim
  | _ => exact h.elim

/-- The flags say which locks are held, and each by one thread. -/
structure LockInv (cfg : Config) (s : State) : Prop where
  held : ∀ t, (s.mem.threads t).locked = true ↔ ∃ i, HoldsLock cfg s t i
  one : ∀ t i j, HoldsLock cfg s t i → HoldsLock cfg s t j → i = j

/-! ## What an access does to the locks -/

variable {cfg : Config} {m m' : Mem} {i f : Nat} {ch : Choice} {p p' : PC}

inductive LockMove (m : Mem) (i : Nat) (p : PC) (m' : Mem) (p' : PC) : Prop where
  | keep : (∀ t, (m'.threads t).locked = (m.threads t).locked) →
      (∀ t, insideLock t i p' ↔ insideLock t i p) → LockMove m i p m' p'
  | take (u : Nat) : (m.threads u).locked = false →
      (∀ t, (m'.threads t).locked = if t = u then true else (m.threads t).locked) →
      (∀ t, ¬ insideLock t i p) → (∀ t, insideLock t i p' ↔ t = u) → LockMove m i p m' p'
  | release (u : Nat) :
      (∀ t, (m'.threads t).locked = if t = u then false else (m.threads t).locked) →
      (∀ t, insideLock t i p ↔ t = u) → (∀ t, ¬ insideLock t i p') → LockMove m i p m' p'

theorem locked_set {u : Nat} {th : WorkerThread} {b : Bool} (hb : th.locked = b) (t : Nat) :
    ((m.threads.set u th) t).locked = if t = u then b else (m.threads t).locked := by
  rw [Table.get_set]
  split
  · exact hb
  · rfl

/-- A write under the lock leaves the flag. -/
theorem locked_set_same {u : Nat} {th : WorkerThread} (hb : th.locked = (m.threads u).locked)
    (t : Nat) : ((m.threads.set u th) t).locked = (m.threads t).locked := by
  rw [locked_set hb]
  split
  · rename_i heq
    rw [heq]
  · rfl

/-- An access away from the locks. -/
theorem LockMove.away (hthreads : m'.threads = m.threads) (hp : ∀ t, ¬ insideLock t i p)
    (hp' : ∀ t, ¬ insideLock t i p') : LockMove m i p m' p' := by
  apply LockMove.keep
  · intro t
    rw [hthreads]
  · intro t
    exact iff_of_false (hp' t) (hp t)

theorem pinStep_lock {x : Scan} {j reg u : Nat} {pc : PinPC} :
    LockMove m i (.pin x j reg u pc) (pinStep m x j reg u pc).1 (pinStep m x j reg u pc).2 := by
  cases pc with
  | lock =>
      simp only [pinStep]
      split
      · exact .away rfl (fun _ => id) fun _ => id
      · rename_i hfree
        apply LockMove.take u (Bool.eq_false_of_not_eq_true hfree)
        · exact locked_set rfl
        · exact fun _ => id
        · exact fun _ => Iff.rfl
  | push =>
      apply LockMove.keep
      · exact locked_set_same rfl
      · exact fun _ => Iff.rfl
  | unlock =>
      apply LockMove.release u
      · exact locked_set rfl
      · exact fun _ => Iff.rfl
      · exact fun _ => id

theorem inside_nextSlot (x : Scan) (j t : Nat) : ¬ insideLock t i (nextSlot x j) := by
  unfold nextSlot
  split
  · exact id
  · cases x.k <;> exact id

theorem inside_afterClean (k : CleanK) (t : Nat) : ¬ insideLock t i (afterClean k) := by
  rcases k with _ | _ | (_ | _) <;> exact id

theorem exec_lock (hx : exec cfg m i f ch p = some (m', p')) : LockMove m i p m' p' := by
  have htake : ∀ {m' : Mem} {th : WorkerThread}, ¬ (m.threads i).locked = true →
      m'.threads = m.threads.set i th → th.locked = true → (∀ t, ¬ insideLock t i p) →
      (∀ t, insideLock t i p' ↔ t = i) → LockMove m i p m' p' := by
    intro m' th hfree hthreads hth hp hp'
    apply LockMove.take i (Bool.eq_false_of_not_eq_true hfree) _ hp hp'
    intro t
    rw [hthreads]
    exact locked_set hth t
  have haway : ∀ {m' : Mem}, m'.threads = m.threads → (∀ t, ¬ insideLock t i p) →
      (∀ t, ¬ insideLock t i p') → LockMove m i p m' p' := fun h => LockMove.away h
  cases p with
  | getLock =>
      simp only [exec] at hx
      split at hx <;> cases hx
      · exact .away rfl (fun _ => id) fun _ => id
      · exact htake ‹_› rfl rfl (fun _ => id) fun _ => Iff.rfl
  | getPop =>
      cases hx
      exact .keep (locked_set_same rfl) fun _ => Iff.rfl
  | getUnlock got =>
      cases hx
      apply LockMove.release i (locked_set rfl) fun _ => Iff.rfl
      intro t
      cases got <;> exact id
  | reLock v =>
      simp only [exec] at hx
      split at hx <;> cases hx
      · exact .away rfl (fun _ => id) fun _ => id
      · exact htake ‹_› rfl rfl (fun _ => id) fun _ => Iff.rfl
  | rePush v =>
      cases hx
      exact .keep (locked_set_same rfl) fun _ => Iff.rfl
  | reUnlock =>
      cases hx
      exact .release i (locked_set rfl) (fun _ => Iff.rfl) fun _ => id
  | pin x j reg u pc =>
      simp only [exec, Option.some.injEq] at hx
      have hmove : LockMove m i (.pin x j reg u pc) (pinStep m x j reg u pc).1
          (pinStep m x j reg u pc).2 := pinStep_lock
      rwa [hx] at hmove
  | scan x j pc =>
      obtain ⟨a, r, -, rfl, rfl⟩ := exec_scan hx
      refine haway rfl (fun _ => id) fun t => ?_
      cases r with
      | skip => exact inside_nextSlot x j t
      | _ => exact id
  | add w j pc =>
      obtain ⟨a, r, -, rfl, rfl⟩ := exec_add hx
      refine haway ?_ (fun _ => id) fun t => ?_
      · rcases r with _ | (_ | _) | _ <;> rfl
      · rcases r with _ | (_ | _) | _ <;> exact id
  | increment inc =>
      simp only [exec, incrementStep] at hx
      split at hx <;> cases hx <;> exact haway rfl (fun _ => id) fun _ => id
  | waitDone w =>
      simp only [exec, Option.map_eq_some_iff] at hx
      obtain ⟨q, hq, hm⟩ := hx
      cases hm
      refine haway rfl (fun _ => id) fun t => ?_
      unfold afterWait at hq
      split at hq
      · cases hq
        exact id
      · split at hq <;> cases hq
        exact id
  | loop =>
      simp only [exec, Option.some.injEq, Prod.mk.injEq] at hx
      obtain ⟨rfl, rfl⟩ := hx
      refine haway rfl (fun _ => id) fun t => ?_
      split <;> exact id
  | entry =>
      simp only [exec, Option.some.injEq, Prod.mk.injEq] at hx
      obtain ⟨rfl, rfl⟩ := hx
      refine haway rfl (fun _ => id) fun t => ?_
      split <;> exact id
  | clean k =>
      simp only [exec, cleanStep] at hx
      split at hx <;> cases hx <;> refine haway rfl (fun _ => id) fun t => ?_
      · exact inside_afterClean k t
      · exact id
      · exact inside_afterClean k t
  | idleEnq k v pc =>
      simp only [exec] at hx
      split at hx <;> cases hx <;> refine haway rfl (fun _ => id) fun t => ?_
      · exact id
      · exact inside_afterClean k t
  | resEnq k v pc =>
      simp only [exec] at hx
      split at hx
      · cases hx
        exact haway rfl (fun _ => id) fun _ => id
      · split at hx <;> cases hx <;> refine haway rfl (fun _ => id) fun t => ?_ <;>
          cases k <;> exact id
  | resetSlot c j k =>
      cases hx
      refine haway rfl (fun _ => id) fun t => ?_
      split <;> exact id
  | _ =>
      simp only [exec, userStep, beginWait, submitNext, afterRelease, submitTasks] at hx
      (repeat' split at hx) <;> cases hx <;> exact haway rfl (fun _ => id) fun _ => id

/-! ## Who holds the locks -/

theorem not_inside_of_switch (hx : exec cfg m i f ch p = some (m', p')) (h : switches p = true)
    (t : Nat) : ¬ insideLock t i p' := by
  cases p with
  | startSwitch g =>
      cases hx
      exact id
  | exitSwitch =>
      cases hx
      exact id
  | yieldTo g k =>
      cases hx
      exact id
  | _ => cases h

theorem not_inside_switchedOut (h : SwitchedOut p ∨ p = .done) (t : Nat) : ¬ insideLock t i p := by
  rcases h with (rfl | ⟨k, rfl⟩) | rfl <;> exact id

section Step

variable {s s' : State} {l : Label}

/-- The other threads hold what they held. -/
theorem holdsLock_other (h : FiberInv cfg s) (hi : i < cfg.numThreads)
    (hx : exec cfg s.mem i (s.mem.running i) ch (s.pc (s.mem.running i)) = some (m', p')) {j : Nat}
    (hji : j ≠ i) (t : Nat) :
    HoldsLock cfg ⟨m', s.pc.set (s.mem.running i) p'⟩ t j ↔ HoldsLock cfg s t j := by
  have hrun : m'.running j = s.mem.running j := by
    cases hsw : switches (s.pc (s.mem.running i)) with
    | false => exact running_frame hx hsw j
    | true => exact (running_switch h hi hx hsw).1 j hji
  unfold HoldsLock
  apply and_congr_right
  intro hj
  have hne : s.mem.running j ≠ s.mem.running i := fun heq => hji (h.running_inj hj hi heq)
  show insideLock t j ((s.pc.set (s.mem.running i) p') (m'.running j)) ↔ _
  rw [hrun, Table.get_set_ne _ _ hne]

/-- The thread that steps holds what it goes on with. -/
theorem holdsLock_self (h : FiberInv cfg s) (hi : i < cfg.numThreads)
    (hx : exec cfg s.mem i (s.mem.running i) ch (s.pc (s.mem.running i)) = some (m', p'))
    (t : Nat) :
    HoldsLock cfg ⟨m', s.pc.set (s.mem.running i) p'⟩ t i ↔ insideLock t i p' := by
  unfold HoldsLock
  rw [and_iff_right hi]
  show insideLock t i ((s.pc.set (s.mem.running i) p') (m'.running i)) ↔ _
  cases hsw : switches (s.pc (s.mem.running i)) with
  | false =>
      rw [running_frame hx hsw i]
      rw [Table.get_set_self]
  | true =>
      -- what is switched to has switched out, and holds nothing
      have hout := (running_switch h hi hx hsw).2
      exact iff_of_false (not_inside_switchedOut hout t) (not_inside_of_switch hx hsw t)

theorem LockInv.step (h : LockInv cfg s) (hf : FiberInv cfg s) (hs : step cfg s l = some s') :
    LockInv cfg s' := by
  obtain ⟨-, hi, m', p', hx, rfl⟩ := step_eq_some.1 hs
  have hself : ∀ t, HoldsLock cfg s t l.thread ↔
      insideLock t l.thread (s.pc (s.mem.running l.thread)) := fun t => and_iff_right hi
  have hself' := holdsLock_self hf hi hx
  have hother := fun {j : Nat} (hj : j ≠ l.thread) => holdsLock_other hf hi hx hj
  -- it is enough to follow who holds the lock of `t`
  have hfollow : ∀ t, ((m'.threads t).locked = (s.mem.threads t).locked ∧
      (insideLock t l.thread p' ↔ HoldsLock cfg s t l.thread)) ∨
      (s.mem.threads t).locked = false ∧ (m'.threads t).locked = true ∧
        insideLock t l.thread p' ∨
      (m'.threads t).locked = false ∧ HoldsLock cfg s t l.thread ∧ ¬ insideLock t l.thread p' := by
    intro t
    cases exec_lock hx with
    | keep hlocked hinside =>
        left
        exact ⟨hlocked t, (hinside t).trans (hself t).symm⟩
    | take u hfree hlocked hnot hinside =>
        by_cases htu : t = u
        · right
          left
          rw [hlocked t, if_pos htu]
          refine ⟨?_, rfl, (hinside t).2 htu⟩
          rw [htu]
          exact hfree
        · left
          rw [hlocked t, if_neg htu]
          refine ⟨rfl, iff_of_false (fun hin => htu ((hinside t).1 hin)) ?_⟩
          rw [hself t]
          exact hnot t
    | release u hlocked hinside hnot =>
        by_cases htu : t = u
        · right
          right
          rw [hlocked t, if_pos htu, hself t]
          exact ⟨rfl, (hinside t).2 htu, hnot t⟩
        · left
          rw [hlocked t, if_neg htu]
          refine ⟨rfl, iff_of_false (hnot t) ?_⟩
          rw [hself t]
          exact fun hin => htu ((hinside t).1 hin)
  have hone : ∀ t j, HoldsLock cfg ⟨m', s.pc.set (s.mem.running l.thread) p'⟩ t j →
      insideLock t l.thread p' → j = l.thread := by
    intro t j hj hin
    by_contra hne
    rw [hother hne] at hj
    rcases hfollow t with ⟨-, hsame⟩ | ⟨hfree, -⟩ | ⟨-, -, hnot⟩
    · exact hne (h.one t j l.thread hj (hsame.1 hin))
    · have hheld := (h.held t).2 ⟨j, hj⟩
      rw [hfree] at hheld
      cases hheld
    · exact hnot hin
  constructor
  · intro t
    show (m'.threads t).locked = true ↔ _
    rcases hfollow t with ⟨hlocked, hsame⟩ | ⟨-, hlocked, hin⟩ | ⟨hlocked, hheld, hnot⟩
    · rw [hlocked, h.held t]
      apply exists_congr
      intro j
      by_cases hj : j = l.thread
      · rw [hj, hself' t, hsame]
      · rw [hother hj]
    · exact iff_of_true hlocked ⟨l.thread, (hself' t).2 hin⟩
    · apply iff_of_false
      · rw [hlocked]
        exact Bool.false_ne_true
      · rintro ⟨j, hj⟩
        by_cases hjl : j = l.thread
        · rw [hjl, hself' t] at hj
          exact hnot hj
        · rw [hother hjl] at hj
          exact hjl (h.one t j l.thread hj hheld)
  · intro t j k hj hk
    by_cases hjl : j = l.thread
    · rw [hjl, hself' t] at hj
      rw [hjl]
      exact (hone t k hk hj).symm
    · by_cases hkl : k = l.thread
      · rw [hkl, hself' t] at hk
        exact absurd (hone t j hj hk) hjl
      · rw [hother hjl] at hj
        rw [hother hkl] at hk
        exact h.one t j k hj hk

end Step

/-- Only the accesses to a queue change it. -/
theorem exec_pinnedQueue (hx : exec cfg m i f ch p = some (m', p')) {t : Nat} (ht : ¬ touchesQueue t i p) :
    (m'.threads t).pinnedResumableFibers = (m.threads t).pinnedResumableFibers := by
  by_cases hp : handles p = false
  · exact (exec_still hx hp).pinned t
  · cases p with
    | resEnq k v pc => rw [(exec_resEnq hx).2]
    | resDeq pc => rw [(exec_resDeq hx).2.1]
    | getPop =>
        cases hx
        exact congrArg _ (Table.get_set_ne _ _ ht)
    | rePush v =>
        cases hx
        exact congrArg _ (Table.get_set_ne _ _ ht)
    | pin x j reg u pc =>
        cases pc with
        | push =>
            cases hx
            exact congrArg _ (Table.get_set_ne _ _ ht)
        | _ => exact absurd rfl hp
    | _ => exact absurd rfl hp

/-! ## Whole runs -/

theorem LockInv.start : LockInv cfg (start cfg) := by
  have hnot : ∀ t i, ¬ HoldsLock cfg (Scheduler.start cfg) t i := by
    rintro t i ⟨-, hin⟩
    rw [start_pc] at hin
    split at hin
    · exact hin
    · split at hin <;> exact hin
  constructor
  · intro t
    apply iff_of_false
    · exact Bool.false_ne_true
    · rintro ⟨i, hi⟩
      exact hnot t i hi
  · intro t i j hi
    exact absurd hi (hnot t i)

/-- In every run the lock of a pinned queue is held by the one thread that stands between
its `lock` and `unlock`, and nobody else touches the queue. -/
theorem locked_of_run (hcfg : cfg.Ok) {σ : Nat → State} {ℓ : Nat → Label} {n : Nat}
    (hrun : Run (step cfg) (start cfg) σ ℓ n) :
    (∀ k, k ≤ n → LockInv cfg (σ k)) ∧
      ∀ k, k < n → ∀ t, ((σ (k + 1)).mem.threads t).pinnedResumableFibers ≠
          ((σ k).mem.threads t).pinnedResumableFibers →
        Touches cfg (σ k) t (ℓ k).thread ∧
          ∀ j, HoldsLock cfg (σ k) t j → j = (ℓ k).thread := by
  have hfibers := FibersInv.run hcfg hrun
  have hlocks : ∀ k, k ≤ n → LockInv cfg (σ k) := by
    intro k
    induction k with
    | zero =>
        intro _
        rw [hrun.start]
        exact LockInv.start
    | succ k ih =>
        intro hk
        exact (ih (by omega)).step (hfibers k (by omega)).fibers (hrun.next k hk)
  refine ⟨hlocks, ?_⟩
  intro k hk t hchanged
  obtain ⟨-, hi, m', p', hx, heq⟩ := step_eq_some.1 (hrun.next k hk)
  rw [heq] at hchanged
  have htouches : Touches cfg (σ k) t (ℓ k).thread := by
    refine ⟨hi, ?_⟩
    by_contra hnot
    exact hchanged (exec_pinnedQueue hx hnot)
  refine ⟨htouches, ?_⟩
  intro j hj
  exact (hlocks k (Nat.le_of_lt hk)).one t j _ hj ⟨hi, inside_of_touches htouches.2⟩

/-- Thread `1` goes on to enqueue the fiber of the main task and unlock. -/
def pushLabels : List Label := wakeLabels ++ goes 1 2

theorem locked_push :
    (∀ k, k ≤ pushLabels.length →
      LockInv pairConfig (trace (step pairConfig) (start pairConfig) pushLabels k)) ∧
    ∀ k, k < pushLabels.length → ∀ t,
      ((trace (step pairConfig) (start pairConfig) pushLabels (k + 1)).mem.threads
          t).pinnedResumableFibers ≠
        ((trace (step pairConfig) (start pairConfig) pushLabels k).mem.threads
          t).pinnedResumableFibers →
      Touches pairConfig (trace (step pairConfig) (start pairConfig) pushLabels k) t
          (pushLabels.getD k ⟨0, .go⟩).thread ∧
        ∀ j, HoldsLock pairConfig (trace (step pairConfig) (start pairConfig) pushLabels k) t j →
          j = (pushLabels.getD k ⟨0, .go⟩).thread := by
  have hfollows : follows (step pairConfig) (fun _ _ => true) (start pairConfig) pushLabels =
      true := by decide +kernel
  exact locked_of_run pairConfig_ok (Run.of_follows ⟨0, .go⟩ hfollows)

end TaskDispatcher.Scheduler
