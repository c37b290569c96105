import Mathlib.Order.Interval.Finset.Nat
import TaskDispatcher.Scheduler.Tasks

/-!
# The tasks of a handle

While no handle is given back before the tasks submitted on it are done, a live
handle outlives its tasks, and its counter stands at the number of those that
have not been counted down.
-/

namespace TaskDispatcher.Scheduler

open TaskDispatcher.Library TaskDispatcher.Container

/-- The tasks of an acquisition that have been announced and not counted down. -/
def unfinished (s : State) (life : Nat) : Finset Nat :=
  (Finset.range s.mem.hist.nextTask).filter fun n =>
    (s.mem.hist.task n).life = life ∧ s.mem.hist.decremented n = 0

/-- Somebody is about to announce tasks of the acquisition. -/
def Submitting (s : State) (life : Nat) : Prop :=
  ∃ a inc num sync, s.pc a = .increment inc ∧ inc.k = .submit num sync ∧ inc.life = life

/-- The sync holds the live handle that was acquired for it, if there is one, and no other. -/
def Agrees (s : State) (sync : Nat) : Prop :=
  ∀ h x, s.mem.handles h = some x → (s.mem.syncs sync = some h ↔ x.sync = some sync)

/-- The sync a call is made on. -/
def UserCall.sync : UserCall → Option Nat
  | .submit sync _ => some sync
  | .waitFor sync _ => some sync
  | _ => none

/-- A handle is given back when everything submitted on it is done, and who makes a call on a sync
finds the handle there that was acquired for it. -/
structure Kept (s : State) (l : Label) : Prop where
  back : ∀ h c k x, s.pc (s.mem.running l.thread) = .releaseHandle h c k →
    s.mem.handles h = some x → unfinished s x.life = ∅ ∧ ¬ Submitting s x.life
  call : ∀ u sync, s.pc (s.mem.running l.thread) = .body → l.choice = .call u →
    u.sync = some sync → Agrees s sync

/-- Nobody increments or decrements a counter by hand. -/
def NoManual (s : State) (l : Label) : Prop :=
  s.pc (s.mem.running l.thread) = .body → ∀ h amount, l.choice ≠ .call (.add h amount)

/-! ## One access -/

/-- The handles and the tasks. -/
def ledgerPart (m : Mem) : Table (Option HandleContent) × Nat × Nat × Table TaskInfo × Table Nat :=
  (m.handles, m.hist.nextLife, m.hist.nextTask, m.hist.task, m.hist.decremented)

/-- The increment an agent is about to make. -/
def counting : PC → Option Increment
  | .increment inc => some inc
  | _ => none

/-- What a step of agent `f` does to the handles and the tasks. -/
inductive LedgerStep (s : State) (f : Nat) (ch : Choice) (m' : Mem) (p' : PC) : Prop where
  | quiet : ledgerPart m' = ledgerPart s.mem → counting (s.pc f) = none →
      (∀ inc, counting p' = some inc → ∃ n, inc.k = .taskDone n) → LedgerStep s f ch m' p'
  | submits (h num : Nat) (sync : Option Nat) (x : HandleContent) : s.pc f = .body →
      p' = submitTasks x num sync → ledgerPart m' = ledgerPart s.mem → s.mem.handles h = some x →
      (∀ z, sync = some z → s.mem.syncs z = some h ∧ ch = .call (.submit z num)) →
      LedgerStep s f ch m' p'
  | acquired (c h : Nat) (k : HandleK) : s.pc f = .acquireHandle c k → s.mem.handles h = none →
      (∀ inc, counting p' = some inc → ∃ num sync, k = .submit num sync ∧
        p' = submitTasks ⟨c, s.mem.hist.nextLife, k.sync⟩ num (some sync)) →
      ledgerPart m' = ledgerPart { s.mem with
        handles := s.mem.handles.set h (some ⟨c, s.mem.hist.nextLife, k.sync⟩)
        hist := { s.mem.hist with nextLife := s.mem.hist.nextLife + 1 } } → LedgerStep s f ch m' p'
  | released (h c : Nat) (k : ReleaseK) (x : HandleContent) : s.pc f = .releaseHandle h c k →
      s.mem.handles h = some x → counting p' = none →
      ledgerPart m' = ledgerPart { s.mem with handles := s.mem.handles.set h none } →
      LedgerStep s f ch m' p'
  | announced (inc : Increment) (num : Nat) (sync : Option Nat) : s.pc f = .increment inc →
      inc.k = .submit num sync → counting p' = none →
      ledgerPart m' = ledgerPart { s.mem with
        hist := s.mem.hist.announce ⟨inc.counter, inc.life, sync⟩ num } → LedgerStep s f ch m' p'
  | done (inc : Increment) (n : Nat) : s.pc f = .increment inc → inc.k = .taskDone n →
      counting p' = none →
      ledgerPart m' = ledgerPart { s.mem with
        hist := { s.mem.hist with decremented := Hist.count s.mem.hist.decremented n } } →
      LedgerStep s f ch m' p'

section Steps

variable {cfg : Config} {s s' : State} {m m' : Mem} {i f : Nat} {ch : Choice} {p p' : PC} {l : Label}

theorem counting_eq_some {inc : Increment} (h : counting p = some inc) : p = .increment inc := by
  cases p <;> cases h
  rfl

theorem counting_nextSlot (x : Scan) (j : Nat) : counting (nextSlot x j) = none := by
  unfold nextSlot
  split
  · rfl
  · cases x.k <;> rfl

theorem counting_afterClean (k : CleanK) : counting (afterClean k) = none := by
  rcases k with _ | _ | (_ | _) <;> rfl

theorem exec_ledger (hmanual : ∀ inc, s.pc f = .increment inc → inc.k ≠ .user)
    (hadd : s.pc f = .body → ∀ h amount, ch ≠ .call (.add h amount))
    (hx : exec cfg s.mem i f ch (s.pc f) = some (m', p')) : LedgerStep s f ch m' p' := by
  have hquiet : ∀ p, s.pc f = p → ledgerPart m' = ledgerPart s.mem → counting p = none →
      counting p' = none → LedgerStep s f ch m' p' := by
    rintro p rfl hpart hp hp'
    refine .quiet hpart hp fun inc hinc => ?_
    rw [hp'] at hinc
    cases hinc
  cases hpc : s.pc f with
  | body =>
      rw [hpc] at hx
      simp only [exec] at hx
      split at hx
      · rename_i u
        cases u with
        | submitOn h num =>
            simp only [userStep] at hx
            split at hx
            · next x hh =>
                split at hx <;> cases hx
                exact .submits h num none x hpc rfl rfl hh fun z hz => by cases hz
            · cases hx
        | submit sync num =>
            simp only [userStep] at hx
            split at hx
            · cases hx
            · split at hx
              · cases hx
                exact hquiet _ hpc rfl rfl rfl
              · next h hsome =>
                  split at hx <;> cases hx
                  next x hh =>
                    refine .submits h num (some sync) x hpc rfl rfl hh fun z hz => ?_
                    cases hz
                    exact ⟨hsome, rfl⟩
        | add h amount => exact absurd rfl (hadd hpc h amount)
        | ret =>
            simp only [userStep] at hx
            split at hx <;> cases hx
            · exact hquiet _ hpc rfl rfl rfl
            · next t _ =>
                refine .quiet rfl (by rw [hpc]; rfl) fun inc hinc => ?_
                cases hinc
                exact ⟨t.id, rfl⟩
        | _ =>
            simp only [userStep, beginWait] at hx
            (repeat' split at hx) <;> cases hx <;> exact hquiet _ hpc rfl rfl rfl
      · cases hx
  | increment inc =>
      have hnot := hmanual inc hpc
      rw [hpc] at hx
      obtain ⟨c, life, amount, k⟩ := inc
      cases k with
      | user => exact absurd rfl hnot
      | taskDone n =>
          cases hx
          exact .done _ n hpc rfl rfl rfl
      | submit num sync =>
          cases hx
          exact .announced _ num sync hpc rfl rfl rfl
  | acquireHandle c k =>
      rw [hpc] at hx
      simp only [exec] at hx
      split at hx
      · next h =>
          split at hx
          · cases hx
          · next hnone =>
              cases k with
              | user =>
                  cases hx
                  exact .acquired c h .user hpc hnone (fun inc hinc => by cases hinc) rfl
              | submit num sync =>
                  cases hx
                  exact .acquired c h (.submit num sync) hpc hnone
                    (fun _ _ => ⟨num, sync, rfl, rfl⟩) rfl
      · cases hx
  | releaseHandle h c k =>
      rw [hpc] at hx
      simp only [exec] at hx
      split at hx
      · cases hx
      · next x hh =>
          split at hx <;> cases hx
          exact .released h c k x hpc hh rfl rfl
  | freeEnq k c pc =>
      rw [hpc] at hx
      simp only [exec] at hx
      split at hx <;> cases hx
      · exact hquiet _ hpc rfl rfl rfl
      · exact hquiet _ hpc (by cases k <;> rfl) rfl rfl
  | releaseLoad h target k =>
      rw [hpc] at hx
      simp only [exec] at hx
      split at hx
      · cases hx
      · split at hx <;> cases hx
        · exact hquiet _ hpc rfl rfl rfl
        · exact hquiet _ hpc (by cases k <;> rfl) rfl rfl
  | add w j pc =>
      rw [hpc] at hx
      obtain ⟨a, r, -, rfl, rfl⟩ := exec_add hx
      rcases r with _ | (_ | _) | _ <;> exact hquiet _ hpc rfl rfl rfl
  | scan x j pc =>
      rw [hpc] at hx
      obtain ⟨a, r, -, rfl, rfl⟩ := exec_scan hx
      cases r with
      | skip => exact hquiet _ hpc rfl rfl (counting_nextSlot x j)
      | _ => exact hquiet _ hpc rfl rfl rfl
  | clean k =>
      rw [hpc] at hx
      simp only [exec, cleanStep] at hx
      split at hx <;> cases hx
      · exact hquiet _ hpc rfl rfl (counting_afterClean k)
      · exact hquiet _ hpc rfl rfl rfl
      · exact hquiet _ hpc rfl rfl (counting_afterClean k)
  | idleEnq k v pc =>
      rw [hpc] at hx
      simp only [exec] at hx
      split at hx <;> cases hx
      · exact hquiet _ hpc rfl rfl rfl
      · exact hquiet _ hpc rfl rfl (counting_afterClean k)
  | yieldTo g k =>
      rw [hpc] at hx
      cases hx
      cases k <;> exact hquiet _ hpc rfl rfl rfl
  | idleDeq k pc =>
      rw [hpc] at hx
      simp only [exec] at hx
      cases k <;> split at hx <;> cases hx <;> exact hquiet _ hpc rfl rfl rfl
  | waitDone w =>
      rw [hpc] at hx
      simp only [exec, afterWait] at hx
      split at hx
      · cases hx
        exact hquiet _ hpc rfl rfl rfl
      · split at hx <;> cases hx
        exact hquiet _ hpc rfl rfl rfl
  | pin x j reg t pc =>
      rw [hpc] at hx
      cases pc with
      | lock =>
          simp only [exec, pinStep] at hx
          split at hx <;> cases hx <;> exact hquiet _ hpc rfl rfl rfl
      | push =>
          cases hx
          exact hquiet _ hpc rfl rfl rfl
      | unlock =>
          cases hx
          exact hquiet _ hpc rfl rfl rfl
  | resEnq k v pc =>
      rw [hpc] at hx
      simp only [exec] at hx
      split at hx <;> cases hx
      · exact hquiet _ hpc rfl rfl rfl
      · exact hquiet _ hpc (by split <;> rfl) rfl (by cases k <;> rfl)
  | getUnlock got =>
      rw [hpc] at hx
      cases hx
      exact hquiet _ hpc rfl rfl (by cases got <;> rfl)
  | entry =>
      rw [hpc] at hx
      cases hx
      exact hquiet _ hpc rfl rfl (by split <;> rfl)
  | loop =>
      rw [hpc] at hx
      cases hx
      exact hquiet _ hpc rfl rfl (by split <;> rfl)
  | resetSlot c j k =>
      rw [hpc] at hx
      cases hx
      exact hquiet _ hpc rfl rfl (by split <;> rfl)
  | _ =>
      rw [hpc] at hx
      simp only [exec, submitNext] at hx
      (repeat' split at hx) <;> cases hx <;> exact hquiet _ hpc rfl rfl rfl

/-- How a count changes. -/
theorem exec_adds (hx : exec cfg m i f ch p = some (m', p')) (c : Nat) :
    (m'.counters c).count = (m.counters c).count ∨
      (∃ inc, p = .increment inc ∧ inc.counter = c ∧
        (m'.counters c).count = (m.counters c).count + inc.amount) ∨
      ∃ k, p = .resetCount c k ∧ (m'.counters c).count = 0 := by
  have hset : ∀ (n : Mem) (d : Nat) (a : AtomicCounter), n.counters = m.counters.set d a →
      a.count = (m.counters d).count → (n.counters c).count = (m.counters c).count := by
    intro n d a hn ha
    rw [hn, Table.get_set]
    split
    · next hc => rw [ha, hc]
    · rfl
  cases p with
  | add w k pc =>
      obtain ⟨a, r, hmove, rfl, -⟩ := exec_add hx
      have hcounters : (addMem m w a r).counters = m.counters.set w.counter a := by cases r <;> rfl
      left
      cases hmove <;> exact hset _ _ _ hcounters rfl
  | scan x k pc =>
      obtain ⟨a, r, hmove, rfl, -⟩ := exec_scan hx
      left
      cases hmove <;> exact hset _ _ _ rfl rfl
  | increment inc =>
      by_cases hc : c = inc.counter
      · right
        left
        refine ⟨inc, rfl, hc.symm, ?_⟩
        subst hc
        simp only [exec, incrementStep] at hx
        split at hx <;> cases hx <;> simp only [Table.get_set_self]
      · left
        simp only [exec, incrementStep] at hx
        split at hx <;> cases hx <;> simp only [Table.get_set_ne _ _ hc]
  | resetCount d k =>
      by_cases hc : c = d
      · subst hc
        cases hx
        exact Or.inr (Or.inr ⟨k, rfl, by simp only [Table.get_set_self]⟩)
      · left
        cases hx
        simp only [Table.get_set_ne _ _ hc]
  | resetSlot d k q =>
      cases hx
      exact Or.inl (hset _ _ _ rfl rfl)
  | _ =>
      simp only [exec, userStep, beginWait, afterWait, submitNext, afterRelease, cleanStep, pinStep,
        submitTasks, enqueueNext] at hx
      (repeat' split at hx) <;> cases hx <;> exact Or.inl rfl

/-- The counter whose count has been reset for the handle that is about to be acquired. -/
def zeroed : PC → Option Nat
  | .resetSlot c _ _ => some c
  | .acquireHandle c _ => some c
  | _ => none

theorem zeroed_step (hx : exec cfg m i f ch p = some (m', p')) {c : Nat} (hp' : zeroed p' = some c) :
    zeroed p = some c ∨ ∃ k, p = .resetCount c k := by
  cases p with
  | resetCount d k =>
      cases hx
      cases hp'
      exact Or.inr ⟨k, rfl⟩
  | resetSlot d j k =>
      cases hx
      refine Or.inl ?_
      split at hp' <;> exact hp'
  | add w j pc =>
      obtain ⟨a, r, -, -, rfl⟩ := exec_add hx
      rcases r with _ | (_ | _) | _ <;> cases hp'
  | scan x j pc =>
      obtain ⟨a, r, -, -, rfl⟩ := exec_scan hx
      cases r with
      | skip =>
          simp only [scanNext, nextSlot] at hp'
          split at hp'
          · cases hp'
          · cases hk : x.k <;> rw [hk] at hp' <;> cases hp'
      | _ => cases hp'
  | clean k =>
      simp only [exec, cleanStep] at hx
      rcases k with _ | _ | (_ | _) <;> split at hx <;> cases hx <;> cases hp'
  | idleEnq k v pc =>
      simp only [exec] at hx
      rcases k with _ | _ | (_ | _) <;> split at hx <;> cases hx <;> cases hp'
  | resEnq k v pc =>
      simp only [exec] at hx
      cases k <;> split at hx <;> cases hx <;> cases hp'
  | getUnlock got =>
      cases hx
      cases got <;> cases hp'
  | entry =>
      cases hx
      split at hp' <;> cases hp'
  | loop =>
      cases hx
      split at hp' <;> cases hp'
  | _ =>
      simp only [exec, userStep, beginWait, afterWait, incrementStep, submitNext, afterRelease,
        pinStep, submitTasks, enqueueNext] at hx
      (repeat' split at hx) <;> cases hx <;> cases hp'

theorem hand_of_zeroed {c : Nat} (hp : zeroed p = some c) (q : Mpmc Nat) :
    counterHand q p = some c := by
  cases p with
  | resetSlot d j k => exact hp
  | acquireHandle d k => exact hp
  | _ => cases hp

/-! ## The invariant -/

theorem mem_unfinished {life n : Nat} : n ∈ unfinished s life ↔ n < s.mem.hist.nextTask ∧
    (s.mem.hist.task n).life = life ∧ s.mem.hist.decremented n = 0 := by
  unfold unfinished
  rw [Finset.mem_filter, Finset.mem_range]

theorem unfinished_congr (hnext : s'.mem.hist.nextTask = s.mem.hist.nextTask)
    (hinfo : s'.mem.hist.task = s.mem.hist.task)
    (hdec : s'.mem.hist.decremented = s.mem.hist.decremented) (life : Nat) :
    unfinished s' life = unfinished s life := by
  unfold unfinished
  rw [hnext, hinfo, hdec]

variable (s') in
/-- The tasks of a submission are unfinished. -/
theorem unfinished_announced {info : TaskInfo} {num : Nat} (ht : TaskInv s)
    (hnext : s'.mem.hist.nextTask = s.mem.hist.nextTask + num)
    (hinfo : s'.mem.hist.task = (s.mem.hist.announce info num).task)
    (hdec : s'.mem.hist.decremented = s.mem.hist.decremented) (life : Nat) :
    unfinished s' life = if life = info.life then
      unfinished s life ∪ Finset.Ico s.mem.hist.nextTask (s.mem.hist.nextTask + num)
    else unfinished s life := by
  have hnew : ∀ n, s.mem.hist.nextTask ≤ n → s.mem.hist.decremented n = 0 := by
    intro n hn
    have hzero := ht.fresh n hn
    have horder := ht.order n
    omega
  ext n
  rw [mem_unfinished, hnext, hinfo, hdec, TaskInv.announce_task]
  by_cases hlife : life = info.life
  · rw [if_pos hlife, Finset.mem_union, Finset.mem_Ico, mem_unfinished]
    by_cases hin : s.mem.hist.nextTask ≤ n ∧ n < s.mem.hist.nextTask + num
    · rw [if_pos hin]
      exact ⟨fun _ => Or.inr hin, fun _ => ⟨hin.2, hlife.symm, hnew n hin.1⟩⟩
    · rw [if_neg hin]
      constructor
      · rintro ⟨hlt, hrest⟩
        exact Or.inl ⟨by omega, hrest⟩
      · rintro (⟨hlt, hrest⟩ | hin')
        · exact ⟨by omega, hrest⟩
        · exact absurd hin' hin
  · rw [if_neg hlife, mem_unfinished]
    by_cases hin : s.mem.hist.nextTask ≤ n ∧ n < s.mem.hist.nextTask + num
    · rw [if_pos hin]
      constructor
      · rintro ⟨-, heq, -⟩
        exact absurd heq.symm hlife
      · rintro ⟨hlt, -⟩
        omega
    · rw [if_neg hin]
      constructor
      · rintro ⟨hlt, hrest⟩
        exact ⟨by omega, hrest⟩
      · rintro ⟨hlt, hrest⟩
        exact ⟨by omega, hrest⟩

variable (s') in
/-- A task that is counted down is no longer unfinished. -/
theorem unfinished_done {n : Nat} (hnext : s'.mem.hist.nextTask = s.mem.hist.nextTask)
    (hinfo : s'.mem.hist.task = s.mem.hist.task)
    (hdec : s'.mem.hist.decremented = Hist.count s.mem.hist.decremented n) (life : Nat) :
    unfinished s' life = (unfinished s life).erase n := by
  ext j
  rw [mem_unfinished, hnext, hinfo, hdec, Finset.mem_erase, mem_unfinished]
  by_cases hj : j = n
  · rw [hj, count_self]
    constructor
    · rintro ⟨-, -, hzero⟩
      omega
    · rintro ⟨hne, -⟩
      exact absurd rfl hne
  · rw [count_ne _ hj]
    exact ⟨fun hin => ⟨hj, hin⟩, fun hin => hin.2⟩

theorem counterAt_handle {h : Nat} {x : HandleContent} (hx : s.mem.handles h = some x) :
    counterAt s (.handle h) = some x.counterIndex := by
  simp only [counterAt, hx, Option.map_some]

/-- The counter of a handle is not in the hands of an agent. -/
theorem CounterInv.handle_ne_hand (hc : CounterInv cfg s) {h a c : Nat} {x : HandleContent}
    (hx : s.mem.handles h = some x) (ha : counterHand s.mem.freeCounters (s.pc a) = some c) :
    x.counterIndex ≠ c := by
  rintro rfl
  cases hc.linear _ (.hand a) _ (counterAt_handle hx) ha

/-- A counter in use has one handle. -/
theorem CounterInv.handle_unique (hc : CounterInv cfg s) {h k : Nat} {x y : HandleContent}
    (hx : s.mem.handles h = some x) (hy : s.mem.handles k = some y)
    (heq : x.counterIndex = y.counterIndex) : h = k := by
  have hat : counterAt s (.handle k) = some x.counterIndex := heq ▸ counterAt_handle hy
  cases hc.linear _ _ _ (counterAt_handle hx) hat
  rfl

structure LedgerInv (s : State) : Prop where
  submits : ∀ a inc num sync, s.pc a = .increment inc → inc.k = .submit num sync →
    ∃ h x, s.mem.handles h = some x ∧ x.counterIndex = inc.counter ∧ x.life = inc.life ∧
      ∀ z, sync = some z → x.sync = some z
  manual : ∀ a inc, s.pc a = .increment inc → inc.k ≠ .user
  bound : ∀ h x, s.mem.handles h = some x → x.life < s.mem.hist.nextLife
  lives : ∀ h k x y, s.mem.handles h = some x → s.mem.handles k = some y → x.life = y.life → h = k
  old : ∀ n, n < s.mem.hist.nextTask → (s.mem.hist.task n).life < s.mem.hist.nextLife
  live : ∀ n, n < s.mem.hist.nextTask → s.mem.hist.decremented n = 0 →
    ∃ h x, s.mem.handles h = some x ∧ x.counterIndex = (s.mem.hist.task n).counter ∧
      x.life = (s.mem.hist.task n).life ∧ ∀ z, (s.mem.hist.task n).sync = some z → x.sync = some z
  count : ∀ h x, s.mem.handles h = some x →
    (s.mem.counters x.counterIndex).count = (unfinished s x.life).card
  clear : ∀ a c, zeroed (s.pc a) = some c → (s.mem.counters c).count = 0

/-- The counts of the counters in use stay unless an increment is made. -/
theorem count_frame (hc : CounterInv cfg s) (hx : exec cfg s.mem i f ch (s.pc f) = some (m', p'))
    (hinc : counting (s.pc f) = none) {k : Nat} {x : HandleContent}
    (hk : s.mem.handles k = some x) :
    (m'.counters x.counterIndex).count = (s.mem.counters x.counterIndex).count := by
  rcases exec_adds hx x.counterIndex with hsame | ⟨inc, hp, -, -⟩ | ⟨j, hp, -⟩
  · exact hsame
  · rw [hp] at hinc
    cases hinc
  · refine absurd rfl (hc.handle_ne_hand hk (a := f) (c := x.counterIndex) ?_)
    rw [hp]
    rfl

/-- An increment adds its amount to its counter. -/
theorem exec_increment {inc : Increment} (hx : exec cfg m i f ch (.increment inc) = some (m', p'))
    (c : Nat) : (m'.counters c).count =
      (m.counters c).count + if c = inc.counter then inc.amount else 0 := by
  simp only [exec, incrementStep] at hx
  split at hx <;> cases hx <;> simp only [Table.get_set] <;> split
  · next hc => rw [hc]
  · exact (Int.add_zero _).symm
  · next hc => rw [hc]
  · exact (Int.add_zero _).symm
  · next hc => rw [hc]
  · exact (Int.add_zero _).symm

namespace LedgerInv

/-- The handles with one counter are those of one acquisition. -/
theorem counter_iff_life (h : LedgerInv s) (hc : CounterInv cfg s) {k j : Nat}
    {x y : HandleContent} (hx : s.mem.handles k = some x) (hy : s.mem.handles j = some y) :
    x.counterIndex = y.counterIndex ↔ x.life = y.life := by
  constructor
  · intro heq
    obtain rfl := hc.handle_unique hx hy heq
    rw [Option.some.inj (hx.symm.trans hy)]
  · intro heq
    obtain rfl := h.lives k j x y hx hy heq
    rw [Option.some.inj (hx.symm.trans hy)]

/-- A counter that has been reset stays at zero. -/
theorem clear_exec (h : LedgerInv s) (hc : CounterInv cfg s)
    (hx : exec cfg s.mem i f ch (s.pc f) = some (m', p'))
    (hinc : ∀ inc, s.pc f = .increment inc → ∃ k x, s.mem.handles k = some x ∧
      x.counterIndex = inc.counter) {a c : Nat} (ha : zeroed ((s.pc.set f p') a) = some c) :
    (m'.counters c).count = 0 := by
  have hzero : (∃ b, zeroed (s.pc b) = some c) ∨ ∃ k, s.pc f = .resetCount c k := by
    rw [Table.get_set] at ha
    split at ha
    · rcases zeroed_step hx ha with hbefore | hreset
      · exact Or.inl ⟨f, hbefore⟩
      · exact Or.inr hreset
    · exact Or.inl ⟨a, ha⟩
  rcases exec_adds hx c with hsame | ⟨inc, hp, hcounter, -⟩ | ⟨j, -, hreset⟩
  · rw [hsame]
    rcases hzero with ⟨b, hb⟩ | ⟨k, hk⟩
    · exact h.clear b c hb
    · rw [hk] at hx
      cases hx
      rw [← hsame]
      simp only [Table.get_set_self]
  · obtain ⟨k, x, hk, hxc⟩ := hinc inc hp
    rcases hzero with ⟨b, hb⟩ | ⟨j, hj⟩
    · exact absurd (hxc.trans hcounter) (hc.handle_ne_hand hk (hand_of_zeroed hb _))
    · rw [hp] at hj
      cases hj
  · exact hreset

/-- An agent that does not stand at an increment. -/
theorem not_counting (hp : counting p = none) (inc : Increment) : p ≠ .increment inc := by
  rintro rfl
  cases hp

/-- What the agents other than `f` are about to count, and `f` when it has not just come there. -/
theorem agent_cases {a : Nat} {inc : Increment} (ha : (s.pc.set f p') a = .increment inc) :
    s.pc a = .increment inc ∧ a ≠ f ∨ p' = .increment inc := by
  rw [Table.get_set] at ha
  split at ha
  · exact Or.inr ha
  · next haf => exact Or.inl ⟨ha, haf⟩

/-- The handles and the tasks stay. -/
theorem same (h : LedgerInv s) (hc : CounterInv cfg s)
    (hx : exec cfg s.mem i f ch (s.pc f) = some (m', p')) (hpart : ledgerPart m' = ledgerPart s.mem)
    (hp : counting (s.pc f) = none)
    (hsubmits : ∀ inc num sync, p' = .increment inc → inc.k = .submit num sync →
      ∃ k x, s.mem.handles k = some x ∧ x.counterIndex = inc.counter ∧ x.life = inc.life ∧
        ∀ z, sync = some z → x.sync = some z)
    (hmanual : ∀ inc, p' = .increment inc → inc.k ≠ .user) : LedgerInv ⟨m', s.pc.set f p'⟩ := by
  simp only [ledgerPart, Prod.mk.injEq] at hpart
  obtain ⟨hhandles, hlife, hnext, hinfo, hdec⟩ := hpart
  have hunfinished : ∀ life, unfinished ⟨m', s.pc.set f p'⟩ life = unfinished s life :=
    unfinished_congr hnext hinfo hdec
  constructor <;> simp only [hhandles, hlife, hnext, hinfo, hdec]
  · intro a inc num sync ha hk
    rcases agent_cases ha with ⟨hold, -⟩ | hnew
    · exact h.submits a inc num sync hold hk
    · exact hsubmits inc num sync hnew hk
  · intro a inc ha
    rcases agent_cases ha with ⟨hold, -⟩ | hnew
    · exact h.manual a inc hold
    · exact hmanual inc hnew
  · exact h.bound
  · exact h.lives
  · exact h.old
  · exact h.live
  · intro k x hk
    rw [hunfinished, count_frame hc hx hp hk]
    exact h.count k x hk
  · exact fun a c => h.clear_exec hc hx fun inc hinc => absurd hinc (not_counting hp inc)

/-- A handle is given back when its tasks are done. -/
theorem released (h : LedgerInv s) (hc : CounterInv cfg s)
    (hx : exec cfg s.mem i f ch (s.pc f) = some (m', p')) {k : Nat} {x : HandleContent}
    (hp : counting (s.pc f) = none) (hp' : counting p' = none) (hk : s.mem.handles k = some x)
    (hempty : unfinished s x.life = ∅) (hnobody : ¬ Submitting s x.life)
    (hpart : ledgerPart m' = ledgerPart { s.mem with handles := s.mem.handles.set k none }) :
    LedgerInv ⟨m', s.pc.set f p'⟩ := by
  simp only [ledgerPart, Prod.mk.injEq] at hpart
  obtain ⟨hhandles, hlife, hnext, hinfo, hdec⟩ := hpart
  have hunfinished : ∀ life, unfinished ⟨m', s.pc.set f p'⟩ life = unfinished s life :=
    unfinished_congr hnext hinfo hdec
  have hback : ∀ {j z}, (s.mem.handles.set k none) j = some z → s.mem.handles j = some z := by
    intro j z hj
    rw [Table.get_set] at hj
    split at hj
    · cases hj
    · exact hj
  -- a handle of another acquisition stays
  have hkeep : ∀ {j z}, s.mem.handles j = some z → z.life ≠ x.life →
      (s.mem.handles.set k none) j = some z := by
    intro j z hj hne
    rw [Table.get_set_ne]
    · exact hj
    · rintro rfl
      rw [Option.some.inj (hj.symm.trans hk)] at hne
      exact hne rfl
  constructor <;> simp only [hhandles, hlife, hnext, hinfo, hdec]
  · intro a inc num sync ha hsub
    rcases agent_cases ha with ⟨hold, -⟩ | hnew
    · obtain ⟨j, z, hj, hzc, hzlife, hzsync⟩ := h.submits a inc num sync hold hsub
      refine ⟨j, z, hkeep hj ?_, hzc, hzlife, hzsync⟩
      rw [hzlife]
      exact fun heq => hnobody ⟨a, inc, num, sync, hold, hsub, heq⟩
    · exact absurd hnew (not_counting hp' inc)
  · intro a inc ha
    rcases agent_cases ha with ⟨hold, -⟩ | hnew
    · exact h.manual a inc hold
    · exact absurd hnew (not_counting hp' inc)
  · exact fun j z hj => h.bound j z (hback hj)
  · exact fun j j' z z' hj hj' => h.lives j j' z z' (hback hj) (hback hj')
  · exact h.old
  · intro n hn hzero
    obtain ⟨j, z, hj, hzc, hzlife, hzsync⟩ := h.live n hn hzero
    refine ⟨j, z, hkeep hj fun heq => ?_, hzc, hzlife, hzsync⟩
    have hmem : n ∈ unfinished s x.life := mem_unfinished.2 ⟨hn, hzlife.symm.trans heq, hzero⟩
    rw [hempty] at hmem
    exact Finset.notMem_empty _ hmem
  · intro j z hj
    rw [hunfinished, count_frame hc hx hp (hback hj)]
    exact h.count j z (hback hj)
  · exact fun a c => h.clear_exec hc hx fun inc hinc => absurd hinc (not_counting hp inc)

/-- A handle is acquired with a counter that stands at zero. -/
theorem acquired (h : LedgerInv s) (hc : CounterInv cfg s)
    (hx : exec cfg s.mem i f ch (s.pc f) = some (m', p')) {c k : Nat} {q : HandleK}
    (hp : s.pc f = .acquireHandle c q) (hk : s.mem.handles k = none)
    (hp' : ∀ inc, counting p' = some inc → ∃ num sync, q = .submit num sync ∧
      p' = submitTasks ⟨c, s.mem.hist.nextLife, q.sync⟩ num (some sync))
    (hpart : ledgerPart m' = ledgerPart { s.mem with
      handles := s.mem.handles.set k (some ⟨c, s.mem.hist.nextLife, q.sync⟩)
      hist := { s.mem.hist with nextLife := s.mem.hist.nextLife + 1 } }) :
    LedgerInv ⟨m', s.pc.set f p'⟩ := by
  simp only [ledgerPart, Prod.mk.injEq] at hpart
  obtain ⟨hhandles, hlife, hnext, hinfo, hdec⟩ := hpart
  have hunfinished : ∀ life, unfinished ⟨m', s.pc.set f p'⟩ life = unfinished s life :=
    unfinished_congr hnext hinfo hdec
  have hidle : counting (s.pc f) = none := by
    rw [hp]
    rfl
  have hkeep : ∀ {j z}, s.mem.handles j = some z →
      (s.mem.handles.set k (some ⟨c, s.mem.hist.nextLife, q.sync⟩)) j = some z := by
    intro j z hj
    rw [Table.get_set_ne]
    · exact hj
    · rintro rfl
      rw [hk] at hj
      cases hj
  have hback : ∀ {j z}, (s.mem.handles.set k (some ⟨c, s.mem.hist.nextLife, q.sync⟩)) j = some z →
      j = k ∧ z = ⟨c, s.mem.hist.nextLife, q.sync⟩ ∨ s.mem.handles j = some z := by
    intro j z hj
    rw [Table.get_set] at hj
    split at hj
    · next hjk => exact Or.inl ⟨hjk, (Option.some.inj hj).symm⟩
    · exact Or.inr hj
  constructor <;> simp only [hhandles, hlife, hnext, hinfo, hdec]
  · intro a inc num sync ha hsub
    rcases agent_cases ha with ⟨hold, -⟩ | hnew
    · obtain ⟨j, z, hj, hrest⟩ := h.submits a inc num sync hold hsub
      exact ⟨j, z, hkeep hj, hrest⟩
    · obtain ⟨num', sync', hq, hp''⟩ := hp' inc (by rw [hnew]; rfl)
      rw [hnew] at hp''
      cases hp''
      cases hsub
      refine ⟨k, _, Table.get_set_self _ _ _, rfl, rfl, fun z hz => ?_⟩
      cases hz
      rw [hq]
      rfl
  · intro a inc ha
    rcases agent_cases ha with ⟨hold, -⟩ | hnew
    · exact h.manual a inc hold
    · obtain ⟨num', sync', -, hp''⟩ := hp' inc (by rw [hnew]; rfl)
      rw [hnew] at hp''
      cases hp''
      exact fun hk => by cases hk
  · intro j z hj
    rcases hback hj with ⟨-, rfl⟩ | hold
    · exact Nat.lt_succ_self _
    · exact Nat.lt_succ_of_lt (h.bound j z hold)
  · intro j j' z z' hj hj' heq
    rcases hback hj with ⟨rfl, rfl⟩ | hold <;> rcases hback hj' with ⟨rfl, rfl⟩ | hold'
    · rfl
    · have hlt := h.bound j' z' hold'
      simp only at heq
      omega
    · have hlt := h.bound j z hold
      simp only at heq
      omega
    · exact h.lives j j' z z' hold hold' heq
  · exact fun n hn => Nat.lt_succ_of_lt (h.old n hn)
  · intro n hn hzero
    obtain ⟨j, z, hj, hrest⟩ := h.live n hn hzero
    exact ⟨j, z, hkeep hj, hrest⟩
  · intro j z hj
    rw [hunfinished]
    rcases hback hj with ⟨rfl, rfl⟩ | hold
    · have hzero : (m'.counters c).count = 0 := by
        rcases exec_adds hx c with hsame | ⟨inc, hinc, -⟩ | ⟨j, hreset, -⟩
        · rw [hsame]
          exact h.clear f c (by rw [hp]; rfl)
        · exact absurd hinc (not_counting hidle inc)
        · rw [hp] at hreset
          cases hreset
      have hempty : unfinished s s.mem.hist.nextLife = ∅ := by
        rw [Finset.eq_empty_iff_forall_notMem]
        intro n hn
        obtain ⟨hlt, hn', -⟩ := mem_unfinished.1 hn
        have hold := h.old n hlt
        omega
      rw [hempty]
      exact hzero
    · rw [count_frame hc hx hidle hold]
      exact h.count j z hold
  · exact fun a c' => h.clear_exec hc hx fun inc hinc => absurd hinc (not_counting hidle inc)

/-- Tasks are announced, and the count goes up by their number. -/
theorem announced (h : LedgerInv s) (ht : TaskInv s) (hc : CounterInv cfg s)
    (hx : exec cfg s.mem i f ch (s.pc f) = some (m', p')) {inc : Increment} {num : Nat}
    {sync : Option Nat} (hp : s.pc f = .increment inc) (hk : inc.k = .submit num sync)
    (hp' : counting p' = none)
    (hpart : ledgerPart m' = ledgerPart { s.mem with
      hist := s.mem.hist.announce ⟨inc.counter, inc.life, sync⟩ num }) :
    LedgerInv ⟨m', s.pc.set f p'⟩ := by
  obtain ⟨kh, y, hkh, hyc, hylife, hysync⟩ := h.submits f inc num sync hp hk
  have hamount : inc.amount = num := by
    have hformed := ht.formed f
    rw [hp] at hformed
    obtain ⟨c, life, amount, k⟩ := inc
    obtain rfl : k = .submit num sync := hk
    exact hformed.2
  have hinfo := fun n => TaskInv.announce_task s.mem.hist ⟨inc.counter, inc.life, sync⟩ num n
  rw [Hist.announce_eq] at hpart
  simp only [ledgerPart, Prod.mk.injEq] at hpart
  obtain ⟨hhandles, hlife, hnext, hnewinfo, hdec⟩ := hpart
  have hunfinished := unfinished_announced ⟨m', s.pc.set f p'⟩ ht hnext hnewinfo hdec
  rw [← hnewinfo] at hinfo
  constructor <;> simp only [hhandles, hlife, hnext, hdec]
  · intro a inc' num' sync' ha hsub
    rcases agent_cases ha with ⟨hold, -⟩ | hnew
    · exact h.submits a inc' num' sync' hold hsub
    · exact absurd hnew (not_counting hp' inc')
  · intro a inc' ha
    rcases agent_cases ha with ⟨hold, -⟩ | hnew
    · exact h.manual a inc' hold
    · exact absurd hnew (not_counting hp' inc')
  · exact h.bound
  · exact h.lives
  · intro n hn
    rw [hinfo]
    split
    · exact hylife ▸ h.bound kh y hkh
    · exact h.old n (by omega)
  · intro n hn hzero
    rw [hinfo]
    split
    · exact ⟨kh, y, hkh, hyc, hylife, hysync⟩
    · exact h.live n (by omega) hzero
  · intro k x hk'
    rw [hp] at hx
    rw [exec_increment hx, hunfinished, h.count k x hk', hamount, ← hyc, ← hylife]
    have hiff := h.counter_iff_life hc hk' hkh
    by_cases heq : x.life = y.life
    · rw [if_pos (hiff.2 heq), if_pos heq, Finset.card_union_of_disjoint, Nat.card_Ico]
      · omega
      · rw [Finset.disjoint_left]
        intro n hn hnew
        have hlt := (mem_unfinished.1 hn).1
        have hle := (Finset.mem_Ico.1 hnew).1
        omega
    · rw [if_neg fun hxc => heq (hiff.1 hxc), if_neg heq, Int.add_zero]
  · refine fun a c => h.clear_exec hc hx fun inc' hinc => ⟨kh, y, hkh, ?_⟩
    obtain rfl : inc = inc' := PC.increment.inj (hp.symm.trans hinc)
    exact hyc

/-- A task is counted down, on the counter of the handle it was submitted on. -/
theorem done (h : LedgerInv s) (ht : TaskInv s) (hc : CounterInv cfg s)
    (hx : exec cfg s.mem i f ch (s.pc f) = some (m', p')) {inc : Increment} {n : Nat}
    (hp : s.pc f = .increment inc) (hk : inc.k = .taskDone n) (hp' : counting p' = none)
    (hpart : ledgerPart m' = ledgerPart { s.mem with
      hist := { s.mem.hist with decremented := Hist.count s.mem.hist.decremented n } }) :
    LedgerInv ⟨m', s.pc.set f p'⟩ := by
  obtain ⟨hamount, hended⟩ : inc.amount = -1 ∧
      taskAt s (.ended f) = some ⟨inc.counter, n, inc.life⟩ := by
    have hformed := ht.formed f
    rw [hp] at hformed
    obtain ⟨c, life, amount, k⟩ := inc
    obtain rfl : k = .taskDone n := hk
    refine ⟨hformed, ?_⟩
    show endedTask (s.pc f) = _
    rw [hp]
    rfl
  obtain ⟨hlt, hcounter, hlife⟩ := ht.known _ _ hended
  have hzero := (ht.ended f _ hended).2
  obtain ⟨kh, y, hkh, hyc, hylife, -⟩ := h.live n hlt hzero
  simp only at hcounter hlife hzero
  rw [hcounter] at hyc
  have hmem : n ∈ unfinished s y.life := mem_unfinished.2 ⟨hlt, hylife.symm, hzero⟩
  simp only [ledgerPart, Prod.mk.injEq] at hpart
  obtain ⟨hhandles, hlives, hnext, hinfo, hdec⟩ := hpart
  have hunfinished := unfinished_done ⟨m', s.pc.set f p'⟩ hnext hinfo hdec
  constructor <;> simp only [hhandles, hlives, hnext, hinfo]
  · intro a inc' num' sync' ha hsub
    rcases agent_cases ha with ⟨hold, -⟩ | hnew
    · exact h.submits a inc' num' sync' hold hsub
    · exact absurd hnew (not_counting hp' inc')
  · intro a inc' ha
    rcases agent_cases ha with ⟨hold, -⟩ | hnew
    · exact h.manual a inc' hold
    · exact absurd hnew (not_counting hp' inc')
  · exact h.bound
  · exact h.lives
  · exact h.old
  · intro j hj hdec'
    refine h.live j hj ?_
    rw [hdec] at hdec'
    unfold Hist.count at hdec'
    rw [Table.get_set] at hdec'
    split at hdec'
    · omega
    · exact hdec'
  · intro k x hk'
    rw [hp] at hx
    rw [exec_increment hx, hunfinished, h.count k x hk', hamount, ← hyc]
    have hiff := h.counter_iff_life hc hk' hkh
    by_cases heq : x.life = y.life
    · have hin : n ∈ unfinished s x.life := heq ▸ hmem
      have hpos := Finset.card_pos.2 ⟨n, hin⟩
      rw [if_pos (hiff.2 heq), Finset.card_erase_of_mem hin]
      omega
    · rw [if_neg fun hxc => heq (hiff.1 hxc), Int.add_zero, Finset.erase_eq_of_notMem]
      intro hin
      exact heq ((mem_unfinished.1 hin).2.1.symm.trans hylife.symm)
  · refine fun a c => h.clear_exec hc hx fun inc' hinc => ⟨kh, y, hkh, ?_⟩
    obtain rfl : inc = inc' := PC.increment.inj (hp.symm.trans hinc)
    exact hyc

theorem step (h : LedgerInv s) (ht : TaskInv s) (hc : CounterInv cfg s) (hk : Kept s l)
    (hm : NoManual s l) (hs : Scheduler.step cfg s l = some s') : LedgerInv s' := by
  obtain ⟨-, -, m', p', hx, rfl⟩ := step_eq_some.1 hs
  cases exec_ledger (h.manual _) hm hx with
  | quiet hpart hp hp' =>
      refine h.same hc hx hpart hp (fun inc num sync hinc hsub => ?_) fun inc hinc => ?_
      · obtain ⟨n, hdone⟩ := hp' inc (by rw [hinc]; rfl)
        rw [hsub] at hdone
        cases hdone
      · obtain ⟨n, hdone⟩ := hp' inc (by rw [hinc]; rfl)
        rw [hdone]
        simp
  | submits k num sync x hp hp' hpart hx' hsync =>
      subst hp'
      refine h.same hc hx hpart (by rw [hp]; rfl) (fun inc num' sync' hinc hsub => ?_)
        fun inc hinc => ?_
      · cases hinc
        cases hsub
        refine ⟨k, x, hx', rfl, rfl, fun z hz => ?_⟩
        obtain ⟨hhold, hcall⟩ := hsync z hz
        exact (hk.call _ z hp hcall rfl k x hx').1 hhold
      · cases hinc
        simp
  | acquired c k q hp hnone hp' hpart =>
      exact h.acquired hc hx hp hnone hp' hpart
  | released k c q x hp hx' hp' hpart =>
      obtain ⟨hempty, hnobody⟩ := hk.back k c q x hp hx'
      exact h.released hc hx (by rw [hp]; rfl) hp' hx' hempty hnobody hpart
  | announced inc num sync hp hsub hp' hpart => exact h.announced ht hc hx hp hsub hp' hpart
  | done inc n hp hdone hp' hpart => exact h.done ht hc hx hp hdone hp' hpart

theorem start (cfg : Config) : LedgerInv (start cfg) := by
  have hpc : ∀ a, counting ((Scheduler.start cfg).pc a) = none ∧
      zeroed ((Scheduler.start cfg).pc a) = none := by
    intro a
    rw [start_pc]
    split
    · exact ⟨rfl, rfl⟩
    · split <;> exact ⟨rfl, rfl⟩
  constructor
  · exact fun a inc num sync ha => absurd ha (not_counting (hpc a).1 inc)
  · exact fun a inc ha => absurd ha (not_counting (hpc a).1 inc)
  · intro k x hk
    cases hk
  · intro k j x y hk
    cases hk
  · exact fun n hn => absurd hn (Nat.not_lt_zero n)
  · exact fun n hn => absurd hn (Nat.not_lt_zero n)
  · intro k x hk
    cases hk
  · intro a c ha
    rw [(hpc a).2] at ha
    cases ha

end LedgerInv

structure LedgerState (cfg : Config) (s : State) : Prop where
  queue : QueueInv s
  counter : CounterInv cfg s
  task : TaskInv s
  ledger : LedgerInv s

theorem LedgerState.step (h : LedgerState cfg s) (hk : Kept s l) (hm : NoManual s l)
    (hs : Scheduler.step cfg s l = some s') : LedgerState cfg s' where
  queue := h.queue.step hs
  counter := h.counter.step h.queue hs
  task := h.task.step h.queue hs
  ledger := h.ledger.step h.task h.counter hk hm hs

theorem LedgerState.start (hcfg : cfg.Ok) : LedgerState cfg (start cfg) where
  queue := .start hcfg
  counter := .start hcfg
  task := .start cfg
  ledger := .start cfg

end Steps

end TaskDispatcher.Scheduler
