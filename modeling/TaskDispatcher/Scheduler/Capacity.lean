import TaskDispatcher.Scheduler.Counters
import TaskDispatcher.Scheduler.Wakes

/-!
# Enqueues that cannot fail

The pools are as large as the number of indices, so an enqueue finds its cell
behind only while a dequeue that has claimed the cell has not handed it back.
Where no enqueue meets such a dequeue, every enqueue succeeds and every index
stays in one of its places.
-/

namespace TaskDispatcher.Scheduler

open TaskDispatcher.Library TaskDispatcher.Container

/-! ## The sizes of the queues -/

structure SizeInv (cfg : Config) (s : State) : Prop where
  idle : s.mem.idleFibers.size = cfg.numFibers
  resumable : s.mem.resumableFibers.size = cfg.numFibers
  free : s.mem.freeCounters.size = cfg.maxNumCounters

section Steps

variable {cfg : Config} {s s' : State} {m m' : Mem} {i f : Nat} {ch : Choice} {p p' : PC} {l : Label}

theorem exec_sizes (hx : exec cfg m i f ch p = some (m', p')) :
    m'.idleFibers.size = m.idleFibers.size ∧ m'.resumableFibers.size = m.resumableFibers.size ∧
      m'.freeCounters.size = m.freeCounters.size :=
  ⟨(exec_idle hx).size, (exec_resumable hx).size, (exec_free hx).size⟩

theorem SizeInv.exec (h : SizeInv cfg s) (hx : exec cfg s.mem i f ch p = some (m', p')) {pc : Table PC} :
    SizeInv cfg ⟨m', pc⟩ := by
  obtain ⟨h1, h2, h3⟩ := exec_sizes hx
  exact ⟨h1.trans h.idle, h2.trans h.resumable, h3.trans h.free⟩

theorem SizeInv.start (hcfg : cfg.Ok) : SizeInv cfg (start cfg) := by
  obtain ⟨⟨k, hk, hfibers⟩, ⟨j, hj, hcounters⟩, -⟩ := hcfg
  have hidle := (Mpmc.Inv.populate (A := Unit) hk 0 (le_refl (2 ^ k))).2.2.2.2
  have hfree := (Mpmc.Inv.populate (A := Unit) hj 0 (le_refl (2 ^ j))).2.2.2.2
  rw [← hfibers] at hidle
  rw [← hcounters] at hfree
  refine ⟨hidle, ?_, hfree⟩
  show cfg.numFibers - 1 + 1 = cfg.numFibers
  have := Nat.two_pow_pos k
  omega

/-! ## Previous fibers are cleaned up before anything else -/

/-- The accesses that come before the previous fiber is cleaned up. -/
def needsClean : PC → Bool
  | .entry => true
  | .clean _ => true
  | .idleEnq _ _ _ => true
  | _ => false

theorem not_needsClean {p : PC} (h : switches p = true) : needsClean p = false := by
  cases p <;> first
    | rfl
    | cases h

structure CleanInv (cfg : Config) (s : State) : Prop where
  dest : ∀ i, i < cfg.numThreads → (s.mem.tls i).previousFiberDest ≠ .none →
    needsClean (s.pc (s.mem.running i)) = true
  /-- the primary fiber starts on the first thread with nothing to clean up -/
  primary : ∀ g, s.mem.primary = some g → s.pc g = .entry →
    s.mem.running 0 = g ∧ (s.mem.tls 0).previousFiberDest = .none

theorem exec_tls (hx : exec cfg m i f ch p = some (m', p')) {j : Nat} (hj : j ≠ i) :
    m'.tls j = m.tls j := by
  cases p with
  | startSwitch g =>
      cases hx
      exact Table.get_set_ne _ _ hj
  | exitSwitch =>
      cases hx
      exact Table.get_set_ne _ _ hj
  | yieldTo g k =>
      cases hx
      exact Table.get_set_ne _ _ hj
  | clean k =>
      simp only [exec, cleanStep] at hx
      split at hx <;> cases hx
      · rfl
      · rfl
      · exact Table.get_set_ne _ _ hj
  | idleEnq k v pc =>
      simp only [exec] at hx
      split at hx <;> cases hx
      · rfl
      · exact Table.get_set_ne _ _ hj
  | _ =>
      simp only [exec, userStep, beginWait, afterWait, incrementStep, submitNext, afterRelease,
        pinStep, submitTasks, enqueueNext] at hx
      (repeat' split at hx) <;> cases hx <;> rfl

theorem exec_ne_entry (hx : exec cfg m i f ch p = some (m', p')) : p' ≠ .entry := by
  cases p with
  | add w j pc =>
      obtain ⟨a, r, -, -, rfl⟩ := exec_add hx
      rcases r with _ | (_ | _) | _ <;> simp [addNext]
  | scan x j pc =>
      obtain ⟨a, r, -, -, rfl⟩ := exec_scan hx
      cases r with
      | skip =>
          simp only [scanNext, nextSlot]
          split
          · simp
          · cases x.k <;> simp [afterScan, enqueueNext]
      | _ => simp [scanNext]
  | clean k =>
      simp only [exec, cleanStep] at hx
      rcases k with _ | _ | (_ | _) <;> split at hx <;> cases hx <;> simp [afterClean]
  | idleEnq k v pc =>
      simp only [exec] at hx
      rcases k with _ | _ | (_ | _) <;> split at hx <;> cases hx <;> simp [afterClean]
  | resEnq k v pc =>
      simp only [exec] at hx
      cases k <;> split at hx <;> cases hx <;> simp [afterPush]
  | entry =>
      cases hx
      split <;> simp
  | loop =>
      cases hx
      split <;> simp
  | getUnlock got =>
      cases hx
      cases got <;> simp
  | resetSlot c j k =>
      cases hx
      split <;> simp
  | _ =>
      simp only [exec, userStep, beginWait, afterWait, incrementStep, submitNext, afterRelease,
        pinStep, submitTasks, enqueueNext] at hx
      (repeat' split at hx) <;> cases hx <;> simp

/-- What an access leaves to clean up on its own thread. -/
theorem dest_step (hx : exec cfg m i f ch p = some (m', p')) (hentry : p = .entry →
      m.primary = some f → (m.tls i).previousFiberDest = .none)
    (hdest : (m.tls i).previousFiberDest ≠ .none → needsClean p = true)
    (hsw : switches p = false) (hnew : (m'.tls i).previousFiberDest ≠ .none) :
    needsClean p' = true := by
  cases p with
  | startSwitch g => cases hsw
  | exitSwitch => cases hsw
  | yieldTo g k => cases hsw
  | entry =>
      cases hx
      split
      · rename_i hprimary
        exact absurd (hentry rfl hprimary) hnew
      · rfl
  | clean k =>
      simp only [exec, cleanStep] at hx
      split at hx <;> rename_i hd <;> cases hx
      · exact absurd hd hnew
      · rfl
      · simp only [Table.get_set_self] at hnew
        exact absurd rfl hnew
  | idleEnq k v pc =>
      simp only [exec] at hx
      split at hx <;> cases hx
      · rfl
      · simp only [Table.get_set_self] at hnew
        exact absurd rfl hnew
  | _ =>
      simp only [exec, userStep, beginWait, afterWait, incrementStep, submitNext, afterRelease,
        pinStep, submitTasks, enqueueNext] at hx
      (repeat' split at hx) <;> cases hx <;> cases hdest hnew

theorem CleanInv.exec (h : CleanInv cfg s) (hf : FiberInv cfg s) (hi : i < cfg.numThreads)
    (hx : exec cfg s.mem i (s.mem.running i) ch (s.pc (s.mem.running i)) = some (m', p')) :
    CleanInv cfg ⟨m', s.pc.set (s.mem.running i) p'⟩ := by
  have hother : ∀ j, j < cfg.numThreads → j ≠ i →
      m'.running j = s.mem.running j ∧ s.mem.running j ≠ s.mem.running i := by
    intro j hj hji
    refine ⟨?_, fun heq => hji (hf.running_inj hj hi heq)⟩
    rw [Mem.running, exec_tls hx hji]
    rfl
  have hfirst : s.pc (s.mem.running i) = .entry → s.mem.primary = some (s.mem.running i) →
      (s.mem.tls i).previousFiberDest = .none := by
    intro hpc hprimary
    obtain ⟨hrun, hdest⟩ := h.primary _ hprimary hpc
    obtain rfl := hf.running_inj (by omega) hi hrun
    exact hdest
  refine ⟨fun j hj hdest => ?_, fun g hg hpc => ?_⟩
  · replace hdest : (m'.tls j).previousFiberDest ≠ .none := hdest
    show needsClean ((s.pc.set (s.mem.running i) p') (m'.running j)) = true
    by_cases hji : j = i
    · subst hji
      by_cases hsw : switches (s.pc (s.mem.running j)) = true
      · obtain ⟨-, hout⟩ := running_switch hf hi hx hsw
        rcases hout with (he | ⟨k, he⟩) | hd
        · rw [he]
          rfl
        · rw [he]
          rfl
        · -- a thread that ends has nothing to clean up
          have hold : (s.mem.tls j).previousFiberDest ≠ .none := by
            cases hpc : s.pc (s.mem.running j) with
            | exitSwitch =>
                rw [hpc] at hx
                cases hx
                simpa using hdest
            | startSwitch g =>
                rw [hpc] at hx
                cases hx
                simpa using hdest
            | yieldTo g k =>
                have hhand : fiberAt cfg s (.hand (s.mem.running j)) = some g := by
                  simp only [fiberAt, hpc, fiberHand]
                have hne := hf.ne_running hi hhand (by simp)
                have hrest := hf.resting _ g hhand
                rw [hpc] at hx
                cases hx
                replace hd : (s.pc.set (s.mem.running j) (.clean (.yielded k)))
                  (s.mem.tls.set j _ j).running = .done := hd
                rw [Table.get_set_self, Table.get_set_ne _ _ hne] at hd
                simp only [Resting, hd] at hrest
                split at hrest
                · obtain ⟨w, hw⟩ := hrest
                  cases hw
                · rcases hrest with he | ⟨src, he⟩ <;> cases he
            | _ =>
                rw [hpc] at hsw
                cases hsw
          have hclean := h.dest j hj hold
          rw [not_needsClean hsw] at hclean
          cases hclean
      · have hsw' : switches (s.pc (s.mem.running j)) = false := by simpa using hsw
        rw [running_frame hx hsw', Table.get_set_self]
        exact dest_step hx hfirst (h.dest j hj) hsw' hdest
    · obtain ⟨hrun, hne⟩ := hother j hj hji
      rw [hrun, Table.get_set_ne _ _ hne]
      rw [exec_tls hx hji] at hdest
      exact h.dest j hj hdest
  · replace hpc : (s.pc.set (s.mem.running i) p') g = .entry := hpc
    have hgf : g ≠ s.mem.running i := by
      rintro rfl
      rw [Table.get_set_self] at hpc
      exact exec_ne_entry hx hpc
    rw [Table.get_set_ne _ _ hgf] at hpc
    have hkeep : s.mem.primary = some g →
        m'.running 0 = g ∧ (m'.tls 0).previousFiberDest = .none := by
      intro hold
      obtain ⟨hrun, hdest⟩ := h.primary g hold hpc
      have hi0 : 0 ≠ i := by
        rintro rfl
        exact hgf hrun.symm
      rw [Mem.running, exec_tls hx hi0]
      exact ⟨hrun, hdest⟩
    by_cases hstart : ∃ x, s.pc (s.mem.running i) = .startSwitch x
    · obtain ⟨x, hst⟩ := hstart
      have hnone : (s.mem.tls i).previousFiberDest = .none := by
        by_contra hne
        have := h.dest i hi hne
        rw [hst] at this
        cases this
      rw [hst] at hx
      cases hx
      replace hg : (if i = 0 then some x else s.mem.primary) = some g := hg
      split at hg
      · rename_i hi0
        subst hi0
        obtain rfl := Option.some.inj hg
        show (s.mem.tls.set 0 _ 0).running = x ∧ (s.mem.tls.set 0 _ 0).previousFiberDest = .none
        rw [Table.get_set_self]
        exact ⟨rfl, hnone⟩
      · exact hkeep hg
    · refine hkeep ?_
      have hprimary : m'.primary = s.mem.primary := by
        cases hst : s.pc (s.mem.running i) with
        | startSwitch x => exact absurd ⟨x, hst⟩ hstart
        | _ =>
            rw [hst] at hx
            simp only [Scheduler.exec, userStep, beginWait, afterWait, incrementStep, submitNext,
              afterRelease, cleanStep, pinStep, submitTasks, enqueueNext] at hx
            (repeat' split at hx) <;> cases hx <;> rfl
      exact hprimary.symm.trans hg

theorem CleanInv.start (cfg : Config) : CleanInv cfg (start cfg) where
  dest i _ hne := absurd (start_tls cfg i).2.1 hne
  primary _ hg _ := by cases hg

/-! ## When an enqueue fails -/

/-- Whether the access makes an enqueue of an index return `false`. -/
def enqueueFails (m : Mem) (ch : Choice) : PC → Bool
  | .idleEnq _ v pc => (Mpmc.enqueueStep 0 v (ch = .spurious) m.idleFibers pc).2 = .inr false
  | .resEnq _ v pc => (Mpmc.enqueueStep 0 v (ch = .spurious) m.resumableFibers pc).2 = .inr false
  | .freeEnq _ c pc => (Mpmc.enqueueStep 0 c (ch = .spurious) m.freeCounters pc).2 = .inr false
  | _ => false

/-- No dequeue that has claimed a cell still holds it when an enqueue, one lap
later, reads the sequence of that cell. -/
structure Spaced (s : State) (l : Label) : Prop where
  idle : ∀ k v pos, s.pc (s.mem.running l.thread) = .idleEnq k v (.sequence pos) →
    ∀ a p, (idleCaller (s.pc a)).claimed = some (.inr p) → p + s.mem.idleFibers.size ≠ pos
  resumable : ∀ k v pos, s.pc (s.mem.running l.thread) = .resEnq k v (.sequence pos) →
    ∀ a p, (resumableCaller (s.pc a)).claimed = some (.inr p) → p + s.mem.resumableFibers.size ≠ pos
  free : ∀ k c pos, s.pc (s.mem.running l.thread) = .freeEnq k c (.sequence pos) →
    ∀ a p, (freeCaller (s.pc a)).claimed = some (.inr p) → p + s.mem.freeCounters.size ≠ pos

/-- A fiber is not put into the resumable queue while it is queued there. -/
def ReturnedOnce (s : State) (l : Label) : Prop :=
  ∀ k v pc, s.pc (s.mem.running l.thread) = .resEnq k v pc → pc.claimed = false →
    ∀ p u, s.mem.resumableFibers.entry p = some u → u.fiber ≠ v.fiber

/-- No fiber is queued twice as resumable. -/
def QueuedOnce (s : State) : Prop :=
  ∀ p q u v, s.mem.resumableFibers.entry p = some u → s.mem.resumableFibers.entry q = some v →
    u.fiber = v.fiber → p = q

/-- A failing enqueue without a stalled dequeue meets a queue of `size` values. -/
theorem full_of_fails {T : Type} {q : Mpmc T} {caller : Nat → Caller T} (hq : Mpmc.Inv q caller)
    {a : Nat} {v : T} {pos : Nat} {b : Bool} (ha : caller a = .enqueue v (.sequence pos))
    (hspaced : ∀ a p, (caller a).claimed = some (.inr p) → p + q.size ≠ pos)
    (hfail : (Mpmc.enqueueStep 0 v b q (.sequence pos)).2 = .inr false) :
    q.enqueuePos = q.dequeuePos + q.size := by
  have hpos : pos ≤ q.enqueuePos := by
    have hok := hq.ok a
    rw [ha] at hok
    exact hok
  have hseq : (q.cell pos).sequence < pos := by
    simp only [Mpmc.enqueueStep] at hfail
    split at hfail
    · cases hfail
    · split at hfail
      · rename_i hneg
        rw [Mpmc.diff_zero] at hneg
        omega
      · cases hfail
  rcases hq.full_or_stalled hpos hseq with hfull | ⟨hsize, c, hc⟩
  · exact hfull
  · exact absurd (Nat.sub_add_cancel hsize) (hspaced c _ hc)

/-- A full queue has an entry at each of its positions. -/
theorem entries_of_full {T : Type} {q : Mpmc T} {caller : Nat → Caller T} (hq : Mpmc.Inv q caller)
    (hfull : q.enqueuePos = q.dequeuePos + q.size) (k : Nat) (hk : k < q.size) :
    ∃ u, q.entry (q.dequeuePos + k) = some u := by
  have hlt : q.dequeuePos + k < q.log.length := by
    rw [hq.log_length]
    omega
  rw [Mpmc.entry, if_pos (Nat.le_add_right _ _)]
  exact ⟨_, List.getElem?_eq_getElem hlt⟩

/-- Only the check of the sequence makes an enqueue fail. -/
theorem sequence_of_fails {T : Type} {q : Mpmc T} {v : T} {b : Bool} {pc : EnqueuePC}
    (hfail : (Mpmc.enqueueStep 0 v b q pc).2 = .inr false) : ∃ pos, pc = .sequence pos := by
  have heffect := Mpmc.enqueueStep_effect q v b pc
  rw [hfail] at heffect
  cases heffect with
  | full hpc _ _ => exact ⟨_, hpc⟩

structure CapacityInv (cfg : Config) (s : State) : Prop extends BaseInv cfg s where
  sizes : SizeInv cfg s
  clean : CleanInv cfg s
  counters : CounterInv cfg s
  once : QueuedOnce s

theorem idle_succeeds (h : CapacityInv cfg s) (hi : i < cfg.numThreads) {k : CleanK} {v : Nat}
    {pc : EnqueuePC} {b : Bool} (hpc : s.pc (s.mem.running i) = .idleEnq k v pc)
    (hspaced : ∀ pos, pc = .sequence pos → ∀ a p, (idleCaller (s.pc a)).claimed = some (.inr p) →
      p + s.mem.idleFibers.size ≠ pos) :
    (Mpmc.enqueueStep 0 v b s.mem.idleFibers pc).2 ≠ .inr false := by
  intro hfail
  obtain ⟨pos, rfl⟩ := sequence_of_fails hfail
  have hfull := entries_of_full h.queues.idle (full_of_fails h.queues.idle
    (a := s.mem.running i) (by simp only [roles, hpc, idleCaller]) (hspaced pos rfl) hfail)
  rw [h.sizes.idle] at hfull
  obtain ⟨hdest, hprevious⟩ := h.fibers.pooling i hi k v _ hpc
  have hfrom : fiberAt cfg s (.previous i) = some v := by
    simp [fiberAt, hi, previousFiber, hdest, hprevious, hpc, handedOn, EnqueuePC.claimed]
  -- all fibers are idle, and one more is about to be
  refine AtMost.not_of_succ (f := fun k => .idle (s.mem.idleFibers.dequeuePos + k))
    (x := .previous i) ?_ hfull ⟨v, hfrom⟩ (fun _ heq => by cases heq) (AtMost.of_linear h.fibers.linear h.fibers.range)
  intro x y hxy
  have := FiberPlace.idle.inj hxy
  omega

theorem free_succeeds (hq : QueueInv s) (hsize : s.mem.freeCounters.size = cfg.maxNumCounters)
    (hc : CounterInv cfg s) {k : ReleaseK} {c : Nat} {pc : EnqueuePC} {b : Bool} (hpc : s.pc f = .freeEnq k c pc)
    (hspaced : ∀ pos, pc = .sequence pos → ∀ a p, (freeCaller (s.pc a)).claimed = some (.inr p) →
      p + s.mem.freeCounters.size ≠ pos) :
    (Mpmc.enqueueStep 0 c b s.mem.freeCounters pc).2 ≠ .inr false := by
  intro hfail
  obtain ⟨pos, rfl⟩ := sequence_of_fails hfail
  have hfull := entries_of_full hq.free (full_of_fails hq.free (a := f)
    (by simp only [roles, hpc, freeCaller]) (hspaced pos rfl) hfail)
  rw [hsize] at hfull
  have hfrom : counterAt s (.hand f) = some c := by
    simp [counterAt, hpc, counterHand, EnqueuePC.claimed]
  refine AtMost.not_of_succ (f := fun k => .free (s.mem.freeCounters.dequeuePos + k))
    (x := .hand f) ?_ hfull ⟨c, hfrom⟩ (fun _ heq => by cases heq) (AtMost.of_linear hc.linear hc.range)
  intro x y hxy
  have := CounterPlace.free.inj hxy
  omega

/-- The resumable fibers, queued or on their way. -/
def resumableAt (s : State) (v : Wake) : Option Nat → Option Nat
  | some p => (s.mem.resumableFibers.entry p).map Wake.fiber
  | none => some v.fiber

theorem resumable_succeeds (h : CapacityInv cfg s) {k : PushK} {v : Wake}
    {pc : EnqueuePC} {b : Bool} (hpc : s.pc f = .resEnq k v pc)
    (hspaced : ∀ pos, pc = .sequence pos → ∀ a p,
      (resumableCaller (s.pc a)).claimed = some (.inr p) → p + s.mem.resumableFibers.size ≠ pos)
    (honce : pc.claimed = false → ∀ p u, s.mem.resumableFibers.entry p = some u →
      u.fiber ≠ v.fiber) :
    (Mpmc.enqueueStep 0 v b s.mem.resumableFibers pc).2 ≠ .inr false := by
  intro hfail
  obtain ⟨pos, rfl⟩ := sequence_of_fails hfail
  have hfull := entries_of_full h.queues.resumable (full_of_fails h.queues.resumable (a := f)
    (by simp only [roles, hpc, resumableCaller]) (hspaced pos rfl) hfail)
  rw [h.sizes.resumable] at hfull
  have hlinear : Linear (resumableAt s v) := by
    intro p q r hp hq
    cases p with
    | none =>
        cases q with
        | none => rfl
        | some q =>
            obtain ⟨u, hu, hfiber⟩ := Option.map_eq_some_iff.1 hq
            exact absurd (hfiber.trans (Option.some.inj hp).symm) (honce rfl q u hu)
    | some p =>
        obtain ⟨u, hu, hfiber⟩ := Option.map_eq_some_iff.1 hp
        cases q with
        | none => exact absurd (hfiber.trans (Option.some.inj hq).symm) (honce rfl p u hu)
        | some q =>
            obtain ⟨u', hu', hfiber'⟩ := Option.map_eq_some_iff.1 hq
            rw [h.once p q u u' hu hu' (hfiber.trans hfiber'.symm)]
  have hfibers : ∀ u, Registered s.mem.hist u → u.fiber < cfg.numFibers := by
    rintro u ⟨w, hw, hfiber⟩
    rw [← hfiber]
    exact (h.calls.number _ w hw).2.1
  have hrange : ∀ x r, resumableAt s v x = some r → r < cfg.numFibers := by
    intro x r hx
    cases x with
    | none =>
        rw [← Option.some.inj hx]
        exact hfibers v (h.wakes.held f v (by rw [hpc]; rfl))
    | some p =>
        obtain ⟨u, hu, hfiber⟩ := Option.map_eq_some_iff.1 hx
        rw [← hfiber]
        refine hfibers u (h.wakes.resumable u ?_)
        rw [Mpmc.entry] at hu
        split at hu
        · exact List.mem_of_getElem? hu
        · cases hu
  refine AtMost.not_of_succ (f := fun k => some (s.mem.resumableFibers.dequeuePos + k))
    (x := none) ?_ ?_ ⟨v.fiber, rfl⟩ (fun _ => (by simp)) (AtMost.of_linear hlinear hrange)
  · intro x y hxy
    have := Option.some.inj hxy
    omega
  · intro k hk
    obtain ⟨u, hu⟩ := hfull k hk
    exact ⟨u.fiber, by simp [resumableAt, hu]⟩

theorem enqueue_succeeds (h : CapacityInv cfg s) (hi : l.thread < cfg.numThreads)
    (hg : Spaced s l) (honce : ReturnedOnce s l) :
    enqueueFails s.mem l.choice (s.pc (s.mem.running l.thread)) = false := by
  cases hpc : s.pc (s.mem.running l.thread) with
  | idleEnq k v pc =>
      simpa [enqueueFails] using idle_succeeds (b := l.choice = .spurious) h hi hpc
        fun pos hpos => hg.idle k v pos (by rw [hpc, hpos])
  | resEnq k v pc =>
      simpa [enqueueFails] using resumable_succeeds (b := l.choice = .spurious) h hpc
        (fun pos hpos => hg.resumable k v pos (by rw [hpc, hpos])) (honce k v pc hpc)
  | freeEnq k c pc =>
      simpa [enqueueFails] using free_succeeds (b := l.choice = .spurious) h.queues h.sizes.free h.counters hpc
        fun pos hpos => hg.free k c pos (by rw [hpc, hpos])
  | _ => rfl

/-! ## Nothing is lost -/

/-- Every index is in one of its places. -/
structure Recoverable (cfg : Config) (s : State) : Prop where
  fibers : Total (· < cfg.numFibers) (fiberAt cfg s)
  counters : Total (· < cfg.maxNumCounters) (counterAt s)

theorem previous_eq_none (h : CleanInv cfg s) (hi : i < cfg.numThreads)
    (hp : needsClean (s.pc (s.mem.running i)) = false) : fiberAt cfg s (.previous i) = none := by
  have hdest : (s.mem.tls i).previousFiberDest = .none := by
    by_contra hne
    rw [h.dest i hi hne] at hp
    cases hp
  simp [fiberAt, previousFiber, hdest]

/-- The record of a previous fiber that is back in the idle queue is cleared. -/
theorem cleared_tokens (h : FiberInv cfg s) (hi : i < cfg.numThreads) {k : CleanK} {v : Nat}
    {pc : EnqueuePC} (hpc : s.pc (s.mem.running i) = .idleEnq k v pc) (hclaimed : pc.claimed = true)
    (hlog : m'.idleFibers.log = s.mem.idleFibers.log)
    (hdeq : m'.idleFibers.dequeuePos = s.mem.idleFibers.dequeuePos)
    (htls : m'.tls = s.mem.tls.set i
      { s.mem.tls i with previousFiberIndex := none, previousFiberDest := .none })
    (hcl : m'.isWaitingCleanedUp = s.mem.isWaitingCleanedUp) :
    fiberAt cfg ⟨m', s.pc.set (s.mem.running i) (afterClean k)⟩ = fiberAt cfg s := by
  have hself : m'.tls i =
      { s.mem.tls i with previousFiberIndex := none, previousFiberDest := .none } := by
    rw [htls, Table.get_set_self]
  have hne : ∀ j, j ≠ i → m'.tls j = s.mem.tls j := fun j hj => by rw [htls, Table.get_set_ne _ _ hj]
  funext P
  cases P with
  | idle pos => exact Mpmc.entry_congr hlog hdeq pos
  | hand a =>
      rw [FiberInv.fiberAt_hand, (FiberInv.afterClean_hand _ k).1, FiberInv.fiberHand_congr hlog]
      split
      · rename_i ha
        simp only [fiberAt, ha, hpc, fiberHand]
      · rfl
  | current j =>
      by_cases hji : j = i
      · subst hji
        simp only [fiberAt, hself]
      · simp only [fiberAt, hne j hji]
  | previous j =>
      by_cases hj : j < cfg.numThreads
      · by_cases hji : j = i
        · subst hji
          simp [fiberAt, previousFiber, hself, hpc, handedOn, hclaimed]
        · simp only [fiberAt, if_pos hj, h.previousFiber_other hi hj hji (hne j hji)]
      · simp only [fiberAt, if_neg hj]
  | suspended g => simp only [fiberAt, hcl]

theorem fibers_total_idleEnq (h : FiberInv cfg s) (hq : QueueInv s) (hi : i < cfg.numThreads)
    {k : CleanK} {v : Nat} {pc : EnqueuePC} (hpc : s.pc (s.mem.running i) = .idleEnq k v pc)
    (hx : exec cfg s.mem i (s.mem.running i) ch (.idleEnq k v pc) = some (m', p'))
    (hok : (Mpmc.enqueueStep 0 v (ch = .spurious) s.mem.idleFibers pc).2 ≠ .inr false)
    {d : Nat → Prop} (ht : Total d (fiberAt cfg s)) :
    Total d (fiberAt cfg ⟨m', s.pc.set (s.mem.running i) p'⟩) := by
  have heffect := Mpmc.enqueueStep_effect s.mem.idleFibers v (ch = .spurious) pc
  simp only [exec] at hx
  split at hx <;> rename_i hr <;> rw [hr] at heffect hok <;>
    simp only [Option.some.injEq, Prod.mk.injEq] at hx <;> obtain ⟨hm, rfl⟩ := hx
  · have hidle : m'.idleFibers = (Mpmc.enqueueStep 0 v (ch = .spurious) s.mem.idleFibers pc).1 := by
      rw [← hm]
    rw [← hidle] at heffect
    have htls : m'.tls = s.mem.tls := by rw [← hm]
    have hcl : m'.isWaitingCleanedUp = s.mem.isWaitingCleanedUp := by rw [← hm]
    cases heffect with
    | quiet hclaimed hlog hdeq =>
        exact ht.congr (FiberInv.fiberAt_frame (Mpmc.entry_congr hlog hdeq) hlog htls hcl
          (by rw [hpc]; rfl) (by rw [hpc]; exact hclaimed))
    | put hbefore hafter hlog hdeq =>
        exact (h.put_moved hq hi hpc hbefore hafter hlog hdeq htls hcl).2.total ht
  · have hidle : m'.idleFibers = (Mpmc.enqueueStep 0 v (ch = .spurious) s.mem.idleFibers pc).1 := by
      rw [← hm]
    rw [← hidle] at heffect
    cases heffect with
    | done hclaimed hlog hdeq =>
        exact ht.congr (cleared_tokens h hi hpc hclaimed hlog hdeq (by rw [← hm]) (by rw [← hm]))
    | full => exact absurd rfl hok

theorem fibers_total_idleDeq (hq : QueueInv s)
    {k : AcquireK} {pc : DequeuePC Nat} (hpc : s.pc (s.mem.running i) = .idleDeq k pc)
    (hx : exec cfg s.mem i (s.mem.running i) ch (.idleDeq k pc) = some (m', p'))
    {d : Nat → Prop} (ht : Total d (fiberAt cfg s)) :
    Total d (fiberAt cfg ⟨m', s.pc.set (s.mem.running i) p'⟩) := by
  have heffect := Mpmc.dequeueStep_effect s.mem.idleFibers (ch = .spurious) pc
  have key : ∀ (m' : Mem) (p' : PC), m'.idleFibers.log = s.mem.idleFibers.log →
      m'.idleFibers.dequeuePos = s.mem.idleFibers.dequeuePos → m'.tls = s.mem.tls →
      m'.isWaitingCleanedUp = s.mem.isWaitingCleanedUp →
      fiberHand s.mem.idleFibers p' = fiberHand s.mem.idleFibers (.idleDeq k pc) →
      handedOn p' = false → Total d (fiberAt cfg ⟨m', s.pc.set (s.mem.running i) p'⟩) := by
    intro m' p' hlog hdeq htls hcl hhand hon
    rw [FiberInv.fiberAt_frame (Mpmc.entry_congr hlog hdeq) hlog htls hcl (by rw [hpc, hhand])
      (by rw [hpc, hon]; rfl)]
    exact ht
  simp only [exec] at hx
  split at hx <;> rename_i hr
  · simp only [Option.some.injEq, Prod.mk.injEq] at hx
    obtain ⟨hm, rfl⟩ := hx
    have hidle : m'.idleFibers = (Mpmc.dequeueStep 0 (ch = .spurious) s.mem.idleFibers pc).1 := by
      rw [← hm]
    have htls : m'.tls = s.mem.tls := by rw [← hm]
    have hcl : m'.isWaitingCleanedUp = s.mem.isWaitingCleanedUp := by rw [← hm]
    rw [hr, ← hidle] at heffect
    cases heffect with
    | quiet hclaimed hlog hdeq =>
        exact key _ _ hlog hdeq htls hcl (by simp only [fiberHand, hclaimed]) rfl
    | take hclaim hafter hlog hdeq =>
        exact (FiberInv.take_moved ⟨k, pc, hpc, by rw [hclaim]; rfl⟩ hafter hlog hdeq htls
          hcl).total ht
  · cases hx
    rw [hr] at heffect
    cases heffect with
    | empty hseq _ hsame =>
        exact key _ _ (by rw [hsame]) (by rw [hsame]) rfl rfl (by rw [hseq]; rfl) rfl
  · rename_i g
    rw [hr] at heffect
    cases heffect with
    | @done pos _ hpub hlog hdeq =>
        have hread : s.mem.idleFibers.log[pos]? = some g := by
          have hcaller := hq.idle.ok (s.mem.running i)
          simp only [roles, hpc, idleCaller, hpub, Mpmc.CallerOk] at hcaller
          rw [hcaller.2.2.2.1, hcaller.2.2.2.2]
        split at hx <;> cases hx <;>
          exact key _ _ hlog hdeq rfl rfl (by rw [hpub]; exact hread.symm) rfl

theorem fibers_total (hf : FiberInv cfg s) (hq : QueueInv s) (hclean : CleanInv cfg s)
    (hi : i < cfg.numThreads)
    (hx : exec cfg s.mem i (s.mem.running i) ch (s.pc (s.mem.running i)) = some (m', p'))
    (hok : ∀ k v pc, s.pc (s.mem.running i) = .idleEnq k v pc →
      (Mpmc.enqueueStep 0 v (ch = .spurious) s.mem.idleFibers pc).2 ≠ .inr false)
    {d : Nat → Prop} (ht : Total d (fiberAt cfg s)) :
    Total d (fiberAt cfg ⟨m', s.pc.set (s.mem.running i) p'⟩) := by
  have hprev := fun hp => previous_eq_none hclean hi hp
  have hplain : ∀ (m' : Mem) (p' : PC), FiberInv.Plain (s.pc (s.mem.running i)) →
      m'.idleFibers = s.mem.idleFibers → m'.tls = s.mem.tls →
      m'.isWaitingCleanedUp = s.mem.isWaitingCleanedUp → FiberInv.Plain p' →
      Total d (fiberAt cfg ⟨m', s.pc.set (s.mem.running i) p'⟩) := by
    intro m' p' hp hidle htls hcl hp'
    rw [FiberInv.fiberAt_frame (fun pos => by rw [hidle]) (by rw [hidle]) htls hcl
      (by rw [hp.1, hp'.1]) (by rw [hp.2.1, hp'.2.1])]
    exact ht
  cases hpc : s.pc (s.mem.running i) with
  | startSwitch g =>
      rw [hpc] at hx
      obtain ⟨hm, rfl⟩ := Prod.mk.inj (Option.some.inj hx)
      exact (hf.startSwitch_moved hi hpc (by rw [← hm]) (by rw [← hm]) (by rw [← hm])).total ht
  | exitSwitch =>
      rw [hpc] at hx
      obtain ⟨hm, rfl⟩ := Prod.mk.inj (Option.some.inj hx)
      exact ht.congr (hf.exitSwitch_tokens hi hpc (by rw [← hm]) (by rw [← hm]) (by rw [← hm])).2
  | yieldTo g k =>
      have hnone := hprev (by rw [hpc]; rfl)
      rw [hpc] at hx
      obtain ⟨hm, rfl⟩ := Prod.mk.inj (Option.some.inj hx)
      exact (hf.yieldTo_tokens hi hpc (by rw [← hm]) (by rw [← hm]) (by rw [← hm])).total hnone ht
  | idleEnq k v pc =>
      rw [hpc] at hx
      exact fibers_total_idleEnq hf hq hi hpc hx (hok k v pc hpc) ht
  | idleDeq k pc => exact fibers_total_idleDeq hq hpc (hpc ▸ hx) ht
  | clean k =>
      have hp : FiberInv.Plain (s.pc (s.mem.running i)) := by
        rw [hpc]
        simp [FiberInv.Plain, fiberHand, handedOn, resuming, ThreadPC]
      have hprevious := hf.previous i hi
      rw [hpc] at hx
      simp only [exec, cleanStep] at hx
      split at hx <;> rename_i hdest <;> obtain ⟨hm, rfl⟩ := Prod.mk.inj (Option.some.inj hx)
      · subst hm
        exact hplain _ _ hp rfl rfl rfl (FiberInv.plain_afterClean k)
      · subst hm
        exact ht.congr
          (FiberInv.fiberAt_frame (fun _ => rfl) rfl rfl rfl (by rw [hpc]; rfl) (by rw [hpc]; rfl))
      · rw [hdest] at hprevious
        obtain ⟨v, hv⟩ := Option.ne_none_iff_exists'.1 (hprevious (by simp))
        rw [hv] at hm
        exact (hf.suspend_moved hi hpc hdest hv (by rw [← hm]) (by rw [← hm]) (by rw [← hm]; rfl)).2.total ht
  | tryResume src v =>
      have hp : FiberInv.Plain (s.pc (s.mem.running i)) := by
        rw [hpc]
        simp [FiberInv.Plain, fiberHand, handedOn, resuming, ThreadPC]
      rw [hpc] at hx
      simp only [exec] at hx
      split at hx
      · rename_i hwaiting
        obtain ⟨hm, rfl⟩ := Prod.mk.inj (Option.some.inj hx)
        exact (FiberInv.resume_moved hpc hwaiting (by rw [← hm]) (by rw [← hm])
          (by rw [← hm])).total ht
      · split at hx <;> cases hx <;>
          exact hplain _ _ hp rfl rfl rfl
            (by simp [FiberInv.Plain, fiberHand, handedOn, resuming, ThreadPC])
  | waitStore w =>
      rw [hpc] at hx
      obtain ⟨hm, rfl⟩ := Prod.mk.inj (Option.some.inj hx)
      exact ht.congr (hf.clear_tokens hi hpc (by rw [← hm]) (by rw [← hm]) (by rw [← hm]))
  | done =>
      rw [hpc] at hx
      cases hx
  | _ =>
      have hp : FiberInv.Plain (s.pc (s.mem.running i)) := by
        rw [hpc]
        simp [FiberInv.Plain, fiberHand, handedOn, resuming, ThreadPC]
      rw [hpc] at hx
      simp only [exec, userStep, beginWait, afterWait, incrementStep, submitNext,
        afterRelease, pinStep, submitTasks, enqueueNext] at hx
      (repeat' split at hx) <;> cases hx <;> first
        | exact hplain _ _ hp rfl rfl rfl (FiberInv.plain_nextSlot _ _)
        | exact hplain _ _ hp rfl rfl rfl (FiberInv.plain_afterPush _ _)
        | exact hplain _ _ hp rfl rfl rfl
            (by simp [FiberInv.Plain, fiberHand, handedOn, resuming, ThreadPC, DequeuePC.claimed])

theorem CounterStep.total {s' : State} (hs : CounterStep s s' f) {b : Bool}
    (hok : ∀ k c pc, s.pc f = .freeEnq k c pc →
      (Mpmc.enqueueStep 0 c b s.mem.freeCounters pc).2 ≠ .inr false) {d : Nat → Prop}
    (ht : Total d (counterAt s)) : Total d (counterAt s') := by
  cases hs with
  | same heq => exact heq ▸ ht
  | moved hm => exact hm.total ht
  | lost hpc hdiff _ _ =>
      have hne : ¬ Mpmc.diff 0 (s.mem.freeCounters.cell _).sequence _ = 0 := Int.ne_of_lt hdiff
      exact absurd (by simp [Mpmc.enqueueStep, hne, hdiff]) (hok _ _ _ hpc)

/-- A fiber is put into the resumable queue only while it is not queued there. -/
theorem QueuedOnce.step (h : QueuedOnce s) (hq : QueueInv s)
    (honce : ∀ k v pc, s.pc f = .resEnq k v pc → pc.claimed = false →
      ∀ p u, s.mem.resumableFibers.entry p = some u → u.fiber ≠ v.fiber)
    (hx : exec cfg s.mem i f ch (s.pc f) = some (m', p')) : QueuedOnce ⟨m', s.pc.set f p'⟩ := by
  have hle : s.mem.resumableFibers.dequeuePos ≤ s.mem.resumableFibers.log.length := by
    rw [hq.resumable.log_length]
    exact hq.resumable.deq_le
  have hsub : (∀ p u, m'.resumableFibers.entry p = some u → s.mem.resumableFibers.entry p = some u) →
      QueuedOnce ⟨m', s.pc.set f p'⟩ :=
    fun hsub p q u v hp hq' => h p q u v (hsub p u hp) (hsub q v hq')
  cases hpc : s.pc f with
  | resEnq k v pc =>
      rw [hpc] at hx
      have heffect := Mpmc.enqueueStep_effect s.mem.resumableFibers v (ch = .spurious) pc
      have hres : m'.resumableFibers =
          (Mpmc.enqueueStep 0 v (ch = .spurious) s.mem.resumableFibers pc).1 := by
        simp only [exec] at hx
        split at hx <;> cases hx
        · rfl
        · split <;> rfl
      generalize hr : (Mpmc.enqueueStep 0 v (ch = .spurious) s.mem.resumableFibers pc).2 = r at heffect
      rw [← hres] at heffect
      cases heffect with
      | quiet _ hlog hdeq => exact hsub fun p u hu => (Mpmc.entry_congr hlog hdeq p) ▸ hu
      | done _ hlog hdeq => exact hsub fun p u hu => (Mpmc.entry_congr hlog hdeq p) ▸ hu
      | full _ _ hsame => exact hsub fun p u hu => hsame ▸ hu
      | put hbefore _ hlog hdeq =>
          have hentry := Mpmc.entry_put hlog hdeq hle
          have hnew := honce k v pc hpc hbefore
          intro p q u u' hp hq' hfiber
          replace hp : m'.resumableFibers.entry p = some u := hp
          replace hq' : m'.resumableFibers.entry q = some u' := hq'
          rw [hentry] at hp hq'
          split at hp <;> split at hq'
          · rename_i hp' hq''
            rw [hp', hq'']
          · rw [← Option.some.inj hp] at hfiber
            exact absurd hfiber.symm (hnew q u' hq')
          · rw [← Option.some.inj hq'] at hfiber
            exact absurd hfiber (hnew p u hp)
          · exact h p q u u' hp hq' hfiber
  | resDeq pc =>
      rw [hpc] at hx
      have heffect := Mpmc.dequeueStep_effect s.mem.resumableFibers (ch = .spurious) pc
      have hres : m'.resumableFibers =
          (Mpmc.dequeueStep 0 (ch = .spurious) s.mem.resumableFibers pc).1 := by
        simp only [exec] at hx
        split at hx <;> cases hx <;> rfl
      generalize hr : (Mpmc.dequeueStep 0 (ch = .spurious) s.mem.resumableFibers pc).2 = r at heffect
      rw [← hres] at heffect
      cases heffect with
      | quiet _ hlog hdeq => exact hsub fun p u hu => (Mpmc.entry_congr hlog hdeq p) ▸ hu
      | done _ hlog hdeq => exact hsub fun p u hu => (Mpmc.entry_congr hlog hdeq p) ▸ hu
      | empty _ _ hsame => exact hsub fun p u hu => hsame ▸ hu
      | take _ _ hlog hdeq =>
          refine hsub fun p u hu => ?_
          rw [Mpmc.entry_take hlog hdeq] at hu
          split at hu
          · cases hu
          · exact hu
  | _ =>
      rw [hpc] at hx
      simp only [exec, userStep, beginWait, afterWait, incrementStep, submitNext, afterRelease,
        cleanStep, pinStep, submitTasks, enqueueNext] at hx
      (repeat' split at hx) <;> cases hx <;> exact hsub fun _ _ hu => hu

/-! ## Runs -/

theorem CapacityInv.step (h : CapacityInv cfg s) (honce : ReturnedOnce s l) (hs : step cfg s l = some s') :
    CapacityInv cfg s' := by
  have hbase := h.toBaseInv.step hs
  have hcounters := h.counters.step h.queues hs
  obtain ⟨-, hi, m', p', hx, rfl⟩ := step_eq_some.1 hs
  exact ⟨hbase, h.sizes.exec hx, h.clean.exec h.fibers hi hx, hcounters,
    h.once.step h.queues honce hx⟩

theorem CapacityInv.start (hcfg : cfg.Ok) : CapacityInv cfg (start cfg) := by
  refine ⟨.start hcfg, .start hcfg, .start cfg, .start hcfg, ?_⟩
  intro p q u v hp
  cases hp

theorem Recoverable.step (hr : Recoverable cfg s) (h : CapacityInv cfg s) (hg : Spaced s l)
    (honce : ReturnedOnce s l) (hs : step cfg s l = some s') : Recoverable cfg s' := by
  obtain ⟨-, hi, m', p', hx, rfl⟩ := step_eq_some.1 hs
  have hok := enqueue_succeeds h hi hg honce
  have hidle : ∀ k v pc, s.pc (s.mem.running l.thread) = .idleEnq k v pc →
      (Mpmc.enqueueStep 0 v (l.choice = .spurious) s.mem.idleFibers pc).2 ≠ .inr false := by
    intro k v pc hpc
    rw [hpc] at hok
    simpa [enqueueFails] using hok
  have hfree : ∀ k c pc, s.pc (s.mem.running l.thread) = .freeEnq k c pc →
      (Mpmc.enqueueStep 0 c (l.choice = .spurious) s.mem.freeCounters pc).2 ≠ .inr false := by
    intro k c pc hpc
    rw [hpc] at hok
    simpa [enqueueFails] using hok
  exact ⟨fibers_total h.fibers h.queues h.clean hi hx hidle hr.fibers,
    (exec_counters h.queues hx).total hfree hr.counters⟩

theorem Recoverable.start (hcfg : cfg.Ok) : Recoverable cfg (start cfg) where
  fibers := by
    intro g hg
    obtain ⟨k, hk, hfibers⟩ := hcfg.fibers
    have hpop := (Mpmc.Inv.populate (A := Unit) hk 0 (le_refl (2 ^ k))).2
    rw [← hfibers] at hpop
    obtain ⟨hlog, -, hdeq, -⟩ := hpop
    have hlog' : (populate cfg.numFibers cfg.numFibers).log = List.range cfg.numFibers := hlog
    have hdeq' : (populate cfg.numFibers cfg.numFibers).dequeuePos = 0 := hdeq
    refine ⟨.idle g, ?_⟩
    show (populate cfg.numFibers cfg.numFibers).entry g = some g
    rw [Mpmc.entry, hlog', hdeq', if_pos (Nat.zero_le _)]
    exact List.getElem?_range hg
  counters := total_counters_start hcfg

end Steps

/-- Whether some agent passes a test. -/
def somePC (test : PC → Bool) (s : State) : Bool := (s.pc.rest :: s.pc.cells).any test

theorem not_of_somePC_false {test : PC → Bool} {s : State} (h : somePC test s = false) (a : Nat) :
    test (s.pc a) = false := by
  exact Bool.eq_false_iff.2 (List.any_eq_false.1 h _ (s.pc.get_mem a))

/-- Whether an agent is seen to hold the cell of position `pos` for a dequeue one lap behind. -/
def stalls {T : Type} (caller : PC → Caller T) (s : State) (size pos : Nat) : Bool :=
  somePC (fun p =>
    match (caller p).claimed with
    | some (.inr q) => q + size = pos
    | _ => false) s

theorem ne_of_not_stalls {T : Type} {caller : PC → Caller T} {s : State} {size pos : Nat}
    (h : stalls caller s size pos = false) {a p : Nat}
    (hp : (caller (s.pc a)).claimed = some (.inr p)) : p + size ≠ pos := by
  intro heq
  have hno := not_of_somePC_false h a
  simp only [hp, heq, decide_true] at hno
  cases hno

def spaced (s : State) (l : Label) : Bool :=
  match s.pc (s.mem.running l.thread) with
  | .idleEnq _ _ (.sequence pos) => !stalls idleCaller s s.mem.idleFibers.size pos
  | .resEnq _ _ (.sequence pos) => !stalls resumableCaller s s.mem.resumableFibers.size pos
  | .freeEnq _ _ (.sequence pos) => !stalls freeCaller s s.mem.freeCounters.size pos
  | _ => true

theorem Spaced.of_spaced {s : State} {l : Label} (h : spaced s l = true) : Spaced s l where
  idle k v pos hpc a p hp := by
    simp only [spaced, hpc, Bool.not_eq_true'] at h
    exact ne_of_not_stalls h hp
  resumable k v pos hpc a p hp := by
    simp only [spaced, hpc, Bool.not_eq_true'] at h
    exact ne_of_not_stalls h hp
  free k v pos hpc a p hp := by
    simp only [spaced, hpc, Bool.not_eq_true'] at h
    exact ne_of_not_stalls h hp

/-- The main task submits a task and waits for it on thread `0`; the fiber that
ran the task makes `n` accesses to wake it and go back to the idle queue. -/
def poolLabels (n : Nat) : List Label :=
  calls 0 (.submit 0 1) 38 ++ [⟨0, .handle 0⟩] ++ goes 0 38 ++ calls 0 (.waitFor 0 true) 28 ++
    calls 0 .ret n

end TaskDispatcher.Scheduler
