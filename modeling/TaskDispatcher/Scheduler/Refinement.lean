import TaskDispatcher.Scheduler.Joins
import TaskDispatcher.Scheduler.SingleThread
import TaskDispatcher.Library.Pool

/-!
# The scheduler refines a pool of tasks

What a program sees of the scheduler is a pool whose agents are the fibers and whose groups
are the syncs.  Counters, handles, queues and waiting slots do not appear in it.
-/

namespace TaskDispatcher.Scheduler

open TaskDispatcher.Library TaskDispatcher.Container

/-- What an access of fiber `f` shows: a submission when it is counted, a task when it has
come out of the queue or its body ends, and the end of `wait_for`. -/
def PC.shows (m : Mem) (f : Nat) (ch : Choice) : PC → List (PoolEvent Nat Nat)
  | .increment inc =>
      match inc.k with
      | .submit num (some sync) => [.submit f sync num]
      | _ => []
  | .taskDeq pc =>
      match (Mpmc.dequeueStep 0 (ch = .spurious) m.tasks pc).2 with
      | .inr (some t) => [.begin f t.id]
      | _ => []
  | .body =>
      match ch with
      | .call .ret => ((m.task f).map fun t => PoolEvent.finish f t.id).toList
      | .call (.waitFor sync _) => if m.syncs sync = none then [.join f sync] else []
      | _ => []
  | .waitDone w => (w.sync.map fun sync => PoolEvent.join f sync).toList
  | _ => []

def shows (s : State) (l : Label) : List (PoolEvent Nat Nat) :=
  (s.pc (s.mem.running l.thread)).shows s.mem (s.mem.running l.thread) l.choice

/-- The pool that a state stands for. -/
structure Stands (s : State) (p : Pool Nat Nat) : Prop where
  next : p.next = s.mem.hist.nextTask
  group : ∀ n, n < p.next → (s.mem.hist.task n).sync = some (p.group n)
  waiting : ∀ n, p.stage n = .waiting ↔ s.mem.hist.started n = 0
  running : ∀ n a, p.stage n = .running a ↔ ∃ t, s.mem.task a = some t ∧ t.id = n
  finished : ∀ n, p.stage n = .finished ↔ s.mem.hist.returned n ≠ 0

/-! ## One access -/

def poolPart (m : Mem) : Nat × Table TaskInfo × Table Nat × Table Nat × Table (Option Task) :=
  (m.hist.nextTask, m.hist.task, m.hist.started, m.hist.returned, m.task)

/-- What an access does to the tasks, and what it shows. -/
inductive PoolMove (m : Mem) (f : Nat) (ch : Choice) (p : PC) (m' : Mem) :
    List (PoolEvent Nat Nat) → Prop where
  | quiet : poolPart m' = poolPart m → PoolMove m f ch p m' []
  | foreign (inc : Increment) (num : Nat) : p = .increment inc → inc.k = .submit num none →
      PoolMove m f ch p m' []
  | submitted (inc : Increment) (num sync : Nat) : p = .increment inc →
      inc.k = .submit num (some sync) →
      poolPart m' = poolPart { m with
        hist := m.hist.announce ⟨inc.counter, inc.life, some sync⟩ num } →
      PoolMove m f ch p m' [.submit f sync num]
  | begun (pc : DequeuePC Task) (t : Task) : p = .taskDeq pc →
      poolPart m' = poolPart { m with
        task := m.task.set f (some t)
        hist := { m.hist with started := Hist.count m.hist.started t.id } } →
      PoolMove m f ch p m' [.begin f t.id]
  | ended (t : Task) : p = .body → m.task f = some t →
      poolPart m' = poolPart { m with
        task := m.task.set f none
        hist := { m.hist with returned := Hist.count m.hist.returned t.id } } →
      PoolMove m f ch p m' [.finish f t.id]
  | joinedNull (sync : Nat) (pinned : Bool) : p = .body → ch = .call (.waitFor sync pinned) →
      m.syncs sync = none → poolPart m' = poolPart m → PoolMove m f ch p m' [.join f sync]
  | joined (w : WaitCall) (sync : Nat) : p = .waitDone w → w.sync = some sync →
      poolPart m' = poolPart m → PoolMove m f ch p m' [.join f sync]

variable {own : Nat → Nat} {cfg : Config} {s s' : State} {m m' : Mem} {i f : Nat} {ch : Choice}
  {p' : PC} {l : Label}

theorem exec_pool {p : PC} (hx : exec cfg m i f ch p = some (m', p')) :
    PoolMove m f ch p m' (p.shows m f ch) := by
  cases p with
  | increment inc =>
      simp only [exec, incrementStep] at hx
      simp only [PC.shows]
      cases hk : inc.k with
      | user =>
          rw [hk] at hx
          cases hx
          exact .quiet rfl
      | taskDone id =>
          rw [hk] at hx
          cases hx
          exact .quiet rfl
      | submit num sync =>
          rw [hk] at hx
          cases hx
          cases sync with
          | none => exact .foreign inc num rfl hk
          | some sync => exact .submitted inc num sync rfl hk rfl
  | taskDeq pc =>
      simp only [exec] at hx
      simp only [PC.shows]
      split at hx <;> rename_i hr <;> cases hx <;> simp only [hr]
      · exact .quiet rfl
      · exact .quiet rfl
      · exact .begun pc _ rfl rfl
  | body =>
      simp only [exec] at hx
      split at hx
      · rename_i u
        cases u with
        | ret =>
            simp only [userStep] at hx
            cases ht : m.task f with
            | none =>
                rw [ht] at hx
                cases hx
                simp only [PC.shows, ht]
                exact .quiet rfl
            | some t =>
                rw [ht] at hx
                cases hx
                simp only [PC.shows, ht]
                exact .ended t rfl ht rfl
        | waitFor sync pinned =>
            simp only [userStep, beginWait] at hx
            cases hsync : m.syncs sync with
            | none =>
                rw [hsync] at hx
                cases hx
                simp only [PC.shows, hsync, if_true]
                exact .joinedNull sync pinned rfl rfl hsync rfl
            | some h =>
                simp only [hsync] at hx
                simp only [PC.shows, hsync]
                split at hx <;> cases hx
                exact .quiet rfl
        | _ =>
            simp only [userStep, beginWait, submitTasks] at hx
            (repeat' split at hx) <;> cases hx <;> exact .quiet rfl
      · cases hx
  | waitDone w =>
      simp only [exec] at hx
      obtain ⟨q, -, hq⟩ := Option.map_eq_some_iff.1 hx
      cases hq
      simp only [PC.shows]
      cases hsync : w.sync with
      | none => exact .quiet rfl
      | some sync => exact .joined w sync rfl hsync rfl
  | clean k =>
      simp only [exec, cleanStep] at hx
      split at hx <;> cases hx <;> exact .quiet rfl
  | idleDeq k pc =>
      simp only [exec] at hx
      cases k <;> split at hx <;> cases hx <;> exact .quiet rfl
  | add w j pc =>
      obtain ⟨a, r, -, rfl, rfl⟩ := exec_add hx
      rcases r with _ | (_ | _) | _ <;> exact .quiet rfl
  | scan x j pc =>
      obtain ⟨a, r, -, rfl, rfl⟩ := exec_scan hx
      cases r <;> exact .quiet rfl
  | pin x j reg t pc =>
      cases pc with
      | lock =>
          simp only [exec, pinStep] at hx
          split at hx <;> cases hx <;> exact .quiet rfl
      | push =>
          cases hx
          exact .quiet rfl
      | unlock =>
          cases hx
          exact .quiet rfl
  | resEnq k v pc =>
      simp only [exec] at hx
      split at hx <;> cases hx
      · exact .quiet rfl
      · split <;> exact .quiet rfl
  | taskEnq sub t pc =>
      simp only [exec, submitNext, enqueueNext] at hx
      (repeat' split at hx) <;> cases hx <;> exact .quiet rfl
  | yieldTo g k =>
      cases hx
      cases k <;> exact .quiet rfl
  | _ =>
      simp only [exec, afterRelease, submitTasks] at hx
      (repeat' split at hx) <;> cases hx <;> exact .quiet rfl

/-- Every fiber that has a task executes its body. -/
def RunsBody (s : State) : Prop := ∀ a t, s.mem.task a = some t → inBody (s.pc a) = true

theorem RunsBody.step (h : RunsBody s) (hs : step cfg s l = some s') : RunsBody s' := by
  obtain ⟨-, -, m', p', hx, rfl⟩ := step_eq_some.1 hs
  have hbody := exec_body hx
  intro a t ht
  show inBody ((s.pc.set (s.mem.running l.thread) p') a) = true
  by_cases ha : a = s.mem.running l.thread
  · subst ha
    rw [Table.get_set_self]
    cases hbody with
    | stay hsame _ _ htask _ =>
        rw [hsame]
        rw [show m'.task = _ from htask] at ht
        exact h _ t ht
    | main _ _ hp' _ _ =>
        rw [hp']
        rfl
    | begun _ _ _ hp' _ _ =>
        rw [hp']
        rfl
    | worker hp _ _ htask _ =>
        rw [show m'.task = _ from htask] at ht
        have hold := h _ t ht
        rw [hp] at hold
        cases hold
    | ended _ _ _ _ htask _ _ =>
        have hnone := htask (s.mem.running l.thread)
        rw [if_pos rfl, show m'.task _ = _ from ht] at hnone
        cases hnone
    | launch _ hp _ htask _ _ =>
        rw [show m'.task = _ from htask] at ht
        have hold := h _ t ht
        rw [hp] at hold
        cases hold
    | shut hp _ htask _ _ =>
        rw [show m'.task = _ from htask] at ht
        have hold := h _ t ht
        rw [hp] at hold
        cases hold
  · rw [Table.get_set_ne _ _ ha]
    apply h a t
    rw [← exec_task hx ha]
    exact ht

/-! ## The invariant -/

structure PoolInv (own : Nat → Nat) (cfg : Config) (s : State) : Prop where
  wait : WaitInv cfg s
  task : TaskState own cfg s
  calls : CallsHeld s
  met : MetInv (OnTarget s) s
  busy : RunsBody s

/-- No waiter takes a slot that somebody still stands at, and no wait begins under a scan with
its target. -/
structure NoRace (s : State) (l : Label) : Prop where
  vacant : ∀ c, Vacant c s l
  noStaleScan : NoStaleScan s l

namespace PoolInv

theorem step (h : PoolInv own cfg s) (hd : Disciplined own s l) (hg : NoRace s l)
    (hs : Scheduler.step cfg s l = some s') : PoolInv own cfg s' where
  wait := h.wait.step hg.vacant hs
  task := h.task.step hd hs
  calls := h.calls.step h.task.account hd hs
  busy := h.busy.step hs
  met := by
    obtain ⟨-, -, m', p', hx, rfl⟩ := step_eq_some.1 hs
    apply h.met.exec h.wait.slots h.wait.calls
    · intro r hr
      exact hr.exec h.wait.calls h.calls h.task hx
    · intro r w hr hon
      exact ⟨w, hr, Or.inr hon⟩
    · intro r w hr hon
      exact ⟨w, hr, Or.inr hon⟩
    · exact hg.noStaleScan
    · exact hx

theorem start (hcfg : cfg.Ok) : PoolInv own cfg (start cfg) where
  wait := .start hcfg
  task := { LedgerState.start hcfg with account := .start own cfg }
  calls := .start cfg
  met := .start cfg _
  busy a t ht := by cases ht

/-- The tasks of a null sync have returned. -/
theorem returned_of_null (h : PoolInv own cfg s) {sync : Nat} (hbody : s.pc f = .body)
    (hown : own sync = f) (hnone : s.mem.syncs sync = none) {n : Nat}
    (hn : n < s.mem.hist.nextTask) (hsync : (s.mem.hist.task n).sync = some sync) :
    s.mem.hist.returned n ≠ 0 := by
  have hagrees := h.task.account.agrees h.task.ledger h.task.task hbody (Or.inl hown)
  have hdec := done_of_null h.task.toLedgerState hagrees hnone hn hsync
  have hreturned := h.task.task.returned_of_done hdec
  omega

/-- When `wait_for` returns, the tasks of its sync have returned. -/
theorem returned_of_wait (h : PoolInv own cfg s) {w : WaitCall} {sync : Nat}
    (hp : s.pc f = .waitDone w) (hw : w.sync = some sync) {n : Nat}
    (hn : n < s.mem.hist.nextTask) (hsync : (s.mem.hist.task n).sync = some sync) :
    s.mem.hist.returned n ≠ 0 := by
  have hphase : (callPhase (s.pc f)).call = some w := by
    rw [hp]
    rfl
  obtain ⟨-, hcall, hopen⟩ := h.wait.calls.inside f w hphase
  obtain ⟨v, hv, hended | hcount⟩ := h.met.met_of_done h.wait hp
  · rw [hopen] at hended
    cases hended
  · obtain rfl := Option.some.inj (hcall.symm.trans hv)
    obtain ⟨z, k, x, hheld⟩ := h.calls f w hphase
    obtain rfl := Option.some.inj (hheld.named.symm.trans hw)
    have hzero : (s.mem.counters x.counterIndex).count = 0 := by
      rw [hheld.counter, hcount, hheld.target]
    have hempty := unfinished_eq_empty h.task.ledger hheld.live hzero
    have hdec : s.mem.hist.decremented n ≠ 0 := by
      intro hdec
      obtain ⟨j, y, hj, -, hlife, hy⟩ := h.task.ledger.live n hn hdec
      have hsame := h.task.account.sync_of_handle hj (hy z hsync)
      rw [hheld.held] at hsame
      cases hsame
      rw [hheld.live] at hj
      cases hj
      have hmem : n ∈ unfinished s x.life := mem_unfinished.2 ⟨hn, hlife.symm, hdec⟩
      rw [hempty] at hmem
      exact absurd hmem (Finset.notMem_empty n)
    have hreturned := h.task.task.returned_of_done hdec
    omega

end PoolInv

/-! ## The simulation -/

namespace Stands

variable {p : Pool Nat Nat}

theorem congr (h : Stands s p) (hpart : poolPart s'.mem = poolPart s.mem) : Stands s' p := by
  simp only [poolPart, Prod.mk.injEq] at hpart
  obtain ⟨hnext, htask, hstarted, hreturned, hrunning⟩ := hpart
  constructor
  · rw [hnext]
    exact h.next
  · rw [htask]
    exact h.group
  · rw [hstarted]
    exact h.waiting
  · rw [hrunning]
    exact h.running
  · rw [hreturned]
    exact h.finished

/-- New tasks wait. -/
theorem submitted (h : Stands s p) {inc : Increment} {num sync : Nat}
    (hpart : poolPart s'.mem = poolPart { s.mem with
      hist := s.mem.hist.announce ⟨inc.counter, inc.life, some sync⟩ num }) :
    Stands s' (p.submit sync num) := by
  have htask := TaskInv.announce_task s.mem.hist ⟨inc.counter, inc.life, some sync⟩ num
  have hannounce := Hist.announce_eq s.mem.hist ⟨inc.counter, inc.life, some sync⟩ num
  simp only [poolPart, Prod.mk.injEq] at hpart
  obtain ⟨hnext', htask', hstarted', hreturned', hrunning'⟩ := hpart
  constructor
  · rw [hnext', hannounce]
    show p.next + num = _
    rw [h.next]
  · intro n hn
    show _ = some (if p.next ≤ n ∧ n < p.next + num then sync else p.group n)
    rw [htask', htask, ← h.next]
    split
    · rfl
    · apply h.group
      change n < p.next + num at hn
      omega
  · rw [hstarted', hannounce]
    exact h.waiting
  · rw [hrunning']
    exact h.running
  · rw [hreturned', hannounce]
    exact h.finished

/-- A waiting task is begun by a fiber that has none. -/
theorem begun (h : Stands s p) {t : Task} (hstarted : s.mem.hist.started t.id = 0)
    (hreturned : s.mem.hist.returned t.id = 0) (hfree : s.mem.task f = none)
    (hpart : poolPart s'.mem = poolPart { s.mem with
      task := s.mem.task.set f (some t)
      hist := { s.mem.hist with started := Hist.count s.mem.hist.started t.id } }) :
    Stands s' (p.setStage t.id (.running f)) := by
  simp only [poolPart, Prod.mk.injEq] at hpart
  obtain ⟨hnext', htask', hstarted', hreturned', hrunning'⟩ := hpart
  constructor
  · rw [hnext']
    exact h.next
  · rw [htask']
    exact h.group
  · intro n
    show Function.update p.stage t.id (.running f) n = .waiting ↔ _
    rw [hstarted']
    by_cases hn : n = t.id
    · rw [hn, Function.update_self, count_self]
      simp
    · rw [Function.update_of_ne hn, count_ne _ hn]
      exact h.waiting n
  · intro n a
    show Function.update p.stage t.id (.running f) n = .running a ↔ _
    rw [hrunning', Table.get_set]
    by_cases hn : n = t.id
    · rw [hn, Function.update_self]
      by_cases ha : a = f
      · rw [if_pos ha, ha]
        exact ⟨fun _ => ⟨t, rfl, rfl⟩, fun _ => rfl⟩
      · rw [if_neg ha]
        constructor
        · intro heq
          exact absurd (Stage.running.inj heq).symm ha
        · intro hrun
          have hstage := (h.running t.id a).2 hrun
          rw [(h.waiting t.id).2 hstarted] at hstage
          cases hstage
    · rw [Function.update_of_ne hn]
      by_cases ha : a = f
      · rw [if_pos ha, ha, h.running n f, hfree]
        constructor
        · rintro ⟨u, hu, -⟩
          cases hu
        · rintro ⟨u, hu, hid⟩
          cases hu
          exact absurd hid.symm hn
      · rw [if_neg ha]
        exact h.running n a
  · intro n
    show Function.update p.stage t.id (.running f) n = .finished ↔ _
    rw [hreturned']
    by_cases hn : n = t.id
    · rw [hn, Function.update_self]
      exact ⟨fun heq => (by cases heq), fun hne => absurd hreturned hne⟩
    · rw [Function.update_of_ne hn]
      exact h.finished n

/-- A running task is finished. -/
theorem ended (h : Stands s p) {t : Task} (ht : s.mem.task f = some t)
    (hstarted : s.mem.hist.started t.id ≠ 0)
    (hpart : poolPart s'.mem = poolPart { s.mem with
      task := s.mem.task.set f none
      hist := { s.mem.hist with returned := Hist.count s.mem.hist.returned t.id } }) :
    Stands s' (p.setStage t.id .finished) := by
  have hrun : p.stage t.id = .running f := (h.running t.id f).2 ⟨t, ht, rfl⟩
  simp only [poolPart, Prod.mk.injEq] at hpart
  obtain ⟨hnext', htask', hstarted', hreturned', hrunning'⟩ := hpart
  constructor
  · rw [hnext']
    exact h.next
  · rw [htask']
    exact h.group
  · intro n
    show Function.update p.stage t.id .finished n = .waiting ↔ _
    rw [hstarted']
    by_cases hn : n = t.id
    · rw [hn, Function.update_self]
      exact ⟨fun heq => (by cases heq), fun hzero => absurd hzero hstarted⟩
    · rw [Function.update_of_ne hn]
      exact h.waiting n
  · intro n a
    show Function.update p.stage t.id .finished n = .running a ↔ _
    rw [hrunning', Table.get_set]
    by_cases hn : n = t.id
    · rw [hn, Function.update_self]
      by_cases ha : a = f
      · rw [if_pos ha]
        exact ⟨fun heq => (by cases heq), fun ⟨u, hu, _⟩ => (by cases hu)⟩
      · rw [if_neg ha]
        constructor
        · intro heq
          cases heq
        · intro hother
          have hstage := (h.running t.id a).2 hother
          rw [hrun] at hstage
          exact absurd (Stage.running.inj hstage).symm ha
    · rw [Function.update_of_ne hn]
      by_cases ha : a = f
      · rw [if_pos ha, ha, h.running n f, ht]
        constructor
        · rintro ⟨u, hu, hid⟩
          cases hu
          exact absurd hid.symm hn
        · rintro ⟨u, hu, -⟩
          cases hu
      · rw [if_neg ha]
        exact h.running n a
  · intro n
    show Function.update p.stage t.id .finished n = .finished ↔ _
    rw [hreturned']
    by_cases hn : n = t.id
    · rw [hn, Function.update_self, count_self]
      simp
    · rw [Function.update_of_ne hn, count_ne _ hn]
      exact h.finished n

end Stands

/-- Every step of the scheduler is answered by the pool. -/
theorem simulates : Simulates (step cfg) shows (Pool.Step own)
    (fun s p => PoolInv own cfg s ∧ Stands s p)
    (fun s l => Disciplined own s l ∧ NoRace s l) := by
  constructor
  rintro s l s' p ⟨h, hp⟩ ⟨hd, hg⟩ hs
  have h' : PoolInv own cfg s' := h.step hd hg hs
  obtain ⟨-, -, m', p', hx, rfl⟩ := step_eq_some.1 hs
  have hmove := exec_pool hx
  unfold shows
  generalize hf : s.mem.running l.thread = f at hmove hx h' ⊢
  generalize hshows : (s.pc f).shows s.mem f l.choice = es at hmove ⊢
  cases hmove with
  | quiet hpart => exact ⟨p, .refl p, h', hp.congr hpart⟩
  | foreign inc num hinc hk =>
      have hrole := h.task.account.role f
      rw [hinc] at hrole
      simp only [syncRole, Increment.role, hk] at hrole
      exact absurd hrole id
  | submitted inc num sync hinc hk hpart =>
      have hrole := h.task.account.role f
      rw [hinc] at hrole
      simp only [syncRole, Increment.role, hk] at hrole
      refine ⟨_, .one (.submit num ?_), h', hp.submitted hpart⟩
      rcases hrole with hown | ⟨t, ht, hsync⟩
      · exact Or.inl hown
      · obtain ⟨hlt, -, -⟩ := h.task.task.known (.running f) t ht
        right
        rw [← hp.next] at hlt
        refine ⟨t.id, hlt, (hp.running t.id f).2 ⟨t, ht, rfl⟩, ?_⟩
        have hgroup := hp.group t.id hlt
        rw [hsync] at hgroup
        exact (Option.some.inj hgroup).symm
  | begun pc t hpc hpart =>
      have hpart' := hpart
      simp only [poolPart, Prod.mk.injEq] at hpart'
      obtain ⟨hnext', -, hstarted', hreturned', hrunning'⟩ := hpart'
      have hrun : taskAt ⟨m', s.pc.set f p'⟩ (.running f) = some t := by
        show m'.task f = some t
        rw [hrunning', Table.get_set_self]
      obtain ⟨hlt, -, -⟩ := h'.task.task.known _ t hrun
      obtain ⟨hstarted, hreturned⟩ := h'.task.task.running f t hrun
      change m'.hist.started t.id = 1 at hstarted
      change m'.hist.returned t.id = 0 at hreturned
      change t.id < m'.hist.nextTask at hlt
      rw [hstarted', count_self] at hstarted
      rw [hreturned'] at hreturned
      rw [hnext', ← hp.next] at hlt
      have hwaiting : s.mem.hist.started t.id = 0 := by omega
      have hfree : s.mem.task f = none := by
        cases htask : s.mem.task f with
        | none => rfl
        | some u =>
            have hbody := h.busy f u htask
            rw [hpc] at hbody
            cases hbody
      refine ⟨_, .one (.begin hlt ((hp.waiting t.id).2 hwaiting) ?_), h',
        hp.begun hwaiting hreturned hfree hpart⟩
      intro k hk
      obtain ⟨u, hu, -⟩ := (hp.running k f).1 hk
      rw [hfree] at hu
      cases hu
  | ended t hbody ht hpart =>
      obtain ⟨hstarted, -⟩ := h.task.task.running f t ht
      have hstage : p.stage t.id = .running f := (hp.running t.id f).2 ⟨t, ht, rfl⟩
      exact ⟨_, .one (.finish hstage), h', hp.ended ht (by omega) hpart⟩
  | joinedNull sync pinned hbody hch hnone hpart =>
      have hown : own sync = f := by
        have hpermitted := hd _ (by rw [hf]; exact hbody) hch
        rw [hf] at hpermitted
        exact hpermitted
      refine ⟨p, .one (.join hown fun n hn hgroup => ?_), h', hp.congr hpart⟩
      have hsync := hp.group n hn
      rw [hgroup] at hsync
      rw [hp.next] at hn
      exact (hp.finished n).2 (h.returned_of_null hbody hown hnone hn hsync)
  | joined w sync hdone hw hpart =>
      have hphase : (callPhase (s.pc f)).call = some w := by
        rw [hdone]
        rfl
      obtain ⟨z, hz, -, hown⟩ := h.task.account.waits_of_call hphase
      obtain rfl := Option.some.inj (hz.symm.trans hw)
      refine ⟨p, .one (.join hown fun n hn hgroup => ?_), h', hp.congr hpart⟩
      have hsync := hp.group n hn
      rw [hgroup] at hsync
      rw [hp.next] at hn
      exact (hp.finished n).2 (h.returned_of_wait hdone hw hn hsync)

/-! ## Whole runs -/

/-- The events are those of a pool, and the state is where the pool has come to. -/
structure Refines (own : Nat → Nat) (es : List (PoolEvent Nat Nat)) (s : State) : Prop where
  path : ∃ p, Path (Pool.Step own) (Pool.new 0) es p ∧ Stands s p
  /-- a task is begun at most once, and ends at most once, on the fiber that began it -/
  life : ∀ n, ∃ f, es.filter (PoolEvent.about n) <+: [.begin f n, .finish f n]

end TaskDispatcher.Scheduler
