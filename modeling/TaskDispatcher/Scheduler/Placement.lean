import TaskDispatcher.Scheduler.Joins

/-!
# No task is lost

A task that a submission has announced is in one place until it has been counted down:
with its submitter, in `mTasks`, or with the fiber that has taken it.  The only way out
is an enqueue that finds `mTasks` full, and the assertion of that submission ends the run.
-/

namespace TaskDispatcher.Scheduler

open TaskDispatcher.Library TaskDispatcher.Container

/-- An enqueue of a submission has failed. -/
def Failing (s : State) : Prop :=
  s.mem.panic = some .taskQueueFull ∨ ∃ a, failing (s.pc a)

structure PlacedInv (s : State) : Prop where
  idle : ∀ a, inBody (s.pc a) = false → s.mem.task a = none
  placed : ∀ n, n < s.mem.hist.nextTask → s.mem.hist.decremented n = 0 →
    (∃ P t, taskAt s P = some t ∧ t.id = n) ∨ Failing s

section Steps

variable {cfg : Config} {s s' : State} {m m' : Mem} {i f : Nat} {ch : Choice} {p p' : PC} {l : Label}
  {sub : Submission} {t : Task} {pc : EnqueuePC}

/-! ## The task queue -/

/-- What an access does to `mTasks`. -/
inductive QueueMove (m : Mem) (p : PC) (m' : Mem) (p' : PC) : Prop where
  | same : m'.tasks.log = m.tasks.log → m'.tasks.dequeuePos = m.tasks.dequeuePos →
      QueueMove m p m' p'
  | put (t : Task) : m'.tasks.log = m.tasks.log ++ [t] →
      m'.tasks.dequeuePos = m.tasks.dequeuePos → QueueMove m p m' p'
  | take (pc pc' : DequeuePC Task) : p = .taskDeq pc → p' = .taskDeq pc' →
      pc'.claimed = some m.tasks.dequeuePos → m'.tasks.log = m.tasks.log →
      m'.tasks.dequeuePos = m.tasks.dequeuePos + 1 → QueueMove m p m' p'

theorem exec_queue (hx : exec cfg m i f ch p = some (m', p')) : QueueMove m p m' p' := by
  cases p with
  | taskEnq sub t pc =>
      have heffect := Mpmc.enqueueStep_effect m.tasks t (ch = .spurious) pc
      have hsub : ∀ (m : Mem) b, (submitNext m sub b).1.tasks = m.tasks := by
        intro m b
        simp only [submitNext]
        (repeat' split) <;> rfl
      simp only [exec] at hx
      split at hx <;> rename_i hout <;> rw [hout] at heffect
      · cases hx
        cases heffect with
        | quiet _ hlog hdeq => exact .same hlog hdeq
        | put _ _ hlog hdeq => exact .put t hlog hdeq
      · rename_i b
        have htasks := hsub { m with
          tasks := (Mpmc.enqueueStep 0 t (ch = .spurious) m.tasks pc).1 } b
        rw [Option.some.inj hx] at htasks
        have hlog := congrArg Mpmc.log htasks
        have hdeq := congrArg Mpmc.dequeuePos htasks
        cases heffect with
        | done _ hlog' hdeq' => exact .same (hlog.trans hlog') (hdeq.trans hdeq')
        | full _ _ hsame =>
            exact .same (hlog.trans (congrArg _ hsame)) (hdeq.trans (congrArg _ hsame))
  | taskDeq pc =>
      have heffect := Mpmc.dequeueStep_effect m.tasks (ch = .spurious) pc
      simp only [exec] at hx
      split at hx <;> rename_i hout <;> cases hx <;> rw [hout] at heffect
      · cases heffect with
        | quiet _ hlog hdeq => exact .same hlog hdeq
        | take _ hclaimed hlog hdeq => exact .take pc _ rfl rfl hclaimed hlog hdeq
      · cases heffect with
        | empty _ _ hsame => exact .same (congrArg _ hsame) (congrArg _ hsame)
      · cases heffect with
        | done _ hlog hdeq => exact .same hlog hdeq
  | _ =>
      have htasks : m'.tasks = m.tasks := by
        have hmoves := exec_tasks hx
        generalize m'.tasks = q at hmoves ⊢
        generalize taskCaller p' = c at hmoves
        cases hmoves with
        | rest _ _ => rfl
        | enqueue _ hc _ => cases hc
        | dequeue _ hc _ => cases hc
      exact .same (congrArg _ htasks) (congrArg _ htasks)

/-- A queued task stays in the queue until a dequeue claims it. -/
theorem QueueMove.entry (h : QueueMove m p m' p') (hle : m.tasks.dequeuePos ≤ m.tasks.log.length)
    {pos : Nat} {t : Task} (ht : m.tasks.entry pos = some t) : m'.tasks.entry pos = some t ∨
      ∃ pc, p' = .taskDeq pc ∧ (pc.claimed.bind (m'.tasks.log[·]?)) = some t := by
  cases h with
  | same hlog hdeq =>
      left
      rw [Mpmc.entry_congr hlog hdeq]
      exact ht
  | put u hlog hdeq =>
      left
      have hne : pos ≠ m.tasks.log.length := by
        rintro rfl
        rw [Mpmc.entry_length] at ht
        cases ht
      rw [Mpmc.entry_put hlog hdeq hle, if_neg hne]
      exact ht
  | take pc pc' _ hp' hclaimed hlog hdeq =>
      by_cases hat : pos = m.tasks.dequeuePos
      · right
        refine ⟨pc', hp', ?_⟩
        rw [hclaimed, hlog]
        rw [hat, Mpmc.entry_dequeuePos] at ht
        exact ht
      · left
        rw [Mpmc.entry_take hlog hdeq, if_neg hat]
        exact ht

/-- What has been taken out stays in the record of the queue. -/
theorem QueueMove.log (h : QueueMove m p m' p') {pos : Nat} {t : Task}
    (ht : m.tasks.log[pos]? = some t) : m'.tasks.log[pos]? = some t := by
  cases h with
  | same hlog _ => rwa [hlog]
  | take _ _ _ _ _ hlog _ => rwa [hlog]
  | put u hlog _ =>
      have hlt := (List.getElem?_eq_some_iff.1 ht).1
      rw [hlog, List.getElem?_append_left hlt]
      exact ht

/-! ## The places, one after the other -/

/-- A submission goes on with its next task. -/
theorem waitingTask_enqueueNext (sub : Submission) (n : Nat) :
    waitingTask (enqueueNext sub) n = sub.task n := rfl

/-- An enqueue that fails makes its submission fail. -/
theorem submitNext_fails (m : Mem) (sub : Submission) :
    (submitNext m sub false).1.panic = some .taskQueueFull ∨ failing (submitNext m sub false).2 := by
  simp only [submitNext, Bool.and_false, Bool.false_eq_true, if_false]
  split
  · left
    rfl
  · right
    exact ⟨_, rfl, rfl⟩

/-- A task that a submission has not enqueued waits, or it is the one that is enqueued,
or the submission fails. -/
theorem taskEnq_step (hformed : Formed (.taskEnq sub t pc))
    (hx : exec cfg m i f ch (.taskEnq sub t pc) = some (m', p')) {n : Nat} {u : Task}
    (hu : waitingTask (.taskEnq sub t pc) n = some u)
    (hle : m.tasks.dequeuePos ≤ m.tasks.log.length) :
    waitingTask p' n = some u ∨ (∃ pos, m'.tasks.entry pos = some u) ∨
      m'.panic = some .taskQueueFull ∨ failing p' := by
  have heffect := Mpmc.enqueueStep_effect m.tasks t (ch = .spurious) pc
  have hnext : sub.task sub.next = some t := hformed
  -- the submission without its first task
  set rest : Submission := { sub with next := sub.next + 1, remaining := sub.remaining - 1 } with hrest
  have htail : n ≠ sub.next → rest.task n = sub.task n := by
    intro hne
    simp only [Submission.task, hrest]
    split_ifs <;> first | rfl | omega
  simp only [exec] at hx
  split at hx <;> rename_i out hout <;> rw [hout] at heffect
  · cases hx
    cases heffect with
    | quiet hclaimed _ _ =>
        left
        simpa only [waitingTask, unqueued, hclaimed] using hu
    | put hbefore hafter hlog hdeq =>
        simp only [waitingTask, unqueued, hbefore, Bool.false_eq_true, if_false,
          Option.bind_some] at hu
        by_cases hn : n = sub.next
        · right
          left
          refine ⟨m.tasks.log.length, ?_⟩
          rw [Mpmc.entry_put hlog hdeq hle, if_pos rfl]
          rw [← hu, hn, hnext]
        · left
          simp only [waitingTask, unqueued, hafter, if_true, Option.bind_some]
          rw [← hu]
          exact htail hn
  · rename_i m₀
    have hpair := Option.some.inj hx
    cases heffect with
    | done hclaimed _ _ =>
        left
        simp only [waitingTask, unqueued, hclaimed, if_true, Option.bind_some] at hu
        have hremaining : sub.remaining - 1 ≠ 0 := by
          intro hzero
          unfold Submission.task at hu
          split at hu
          · rename_i hrange
            obtain ⟨hlow, hhigh⟩ : sub.next + 1 ≤ n ∧ n < sub.next + 1 + (sub.remaining - 1) := hrange
            omega
          · cases hu
        simp only [submitNext, Bool.and_true, if_neg hremaining, Prod.mk.injEq] at hpair
        rw [← hpair.2, waitingTask_enqueueNext]
        exact hu
    | full _ _ _ =>
        right
        right
        have hfails := submitNext_fails
          { m with tasks := (Mpmc.enqueueStep 0 t (ch = .spurious) m.tasks pc).1 } sub
        rw [hpair] at hfails
        exact hfails

/-- What an agent has still to submit stays with it, goes into the queue, or is lost by a
failing submission. -/
theorem submitting_step (hq : QueueInv s) (hformed : Formed (s.pc f))
    (hx : exec cfg s.mem i f ch (s.pc f) = some (m', p')) {n : Nat} {t : Task}
    (ht : waitingTask (s.pc f) n = some t) :
    (∃ P, taskAt ⟨m', s.pc.set f p'⟩ P = some t) ∨ Failing ⟨m', s.pc.set f p'⟩ := by
  have hself : (s.pc.set f p') f = p' := Table.get_set_self _ _ _
  have hkeep : waitingTask p' n = some t →
      (∃ P, taskAt ⟨m', s.pc.set f p'⟩ P = some t) ∨ Failing ⟨m', s.pc.set f p'⟩ := by
    intro hwaiting
    refine Or.inl ⟨.submitting f n, ?_⟩
    rw [taskAt_submitting, if_pos rfl]
    exact hwaiting
  have hrole : taskRole p' = taskRole (s.pc f) →
      (∃ P, taskAt ⟨m', s.pc.set f p'⟩ P = some t) ∨ Failing ⟨m', s.pc.set f p'⟩ := by
    intro hsame
    apply hkeep
    rw [show waitingTask p' = waitingTask (s.pc f) from congrArg Prod.fst hsame]
    exact ht
  cases hp : s.pc f with
  | taskEnq sub u pc =>
      rw [hp] at hx hformed ht
      have hle : s.mem.tasks.dequeuePos ≤ s.mem.tasks.log.length := by
        rw [hq.tasks.log_length]
        exact hq.tasks.deq_le
      rcases taskEnq_step hformed hx ht hle with hwaiting | ⟨pos, hpos⟩ | hpanic | hfailing
      · exact hkeep hwaiting
      · exact Or.inl ⟨.queued pos, hpos⟩
      · exact Or.inr (Or.inl hpanic)
      · refine Or.inr (Or.inr ⟨f, ?_⟩)
        show failing ((s.pc.set f p') f)
        rw [hself]
        exact hfailing
  | scan x j pc =>
      apply hrole
      rw [hp] at hx ⊢
      obtain ⟨a, r, -, -, rfl⟩ := exec_scan hx
      cases r with
      | skip => exact taskRole_nextSlot x j
      | _ => rfl
  | pin x j reg u pc =>
      apply hrole
      rw [hp] at hx ⊢
      cases pc with
      | lock =>
          simp only [exec, pinStep] at hx
          split at hx <;> cases hx <;> rfl
      | push =>
          cases hx
          rfl
      | unlock =>
          cases hx
          rfl
  | resEnq k v pc =>
      apply hrole
      rw [hp] at hx ⊢
      simp only [exec] at hx
      split at hx <;> cases hx
      · cases k <;> rfl
      · exact taskRole_afterPush _ _ v pc
  | _ =>
      rw [hp] at ht
      cases ht

/-- The body that a fiber executes goes on, or returns. -/
theorem running_step (hidle : inBody (s.pc f) = false → s.mem.task f = none)
    (hx : exec cfg s.mem i f ch (s.pc f) = some (m', p')) {t : Task} (ht : s.mem.task f = some t) :
    ∃ P u, taskAt ⟨m', s.pc.set f p'⟩ P = some u ∧ u.id = t.id := by
  have hstays : m'.task f = some t → ∃ P u, taskAt ⟨m', s.pc.set f p'⟩ P = some u ∧ u.id = t.id :=
    fun htask => ⟨.running f, t, htask, rfl⟩
  cases exec_body hx with
  | stay _ _ _ htask _ => exact hstays (by rw [htask]; exact ht)
  | main _ _ _ htask _ => exact hstays (by rw [htask]; exact ht)
  | worker _ _ _ htask _ => exact hstays (by rw [htask]; exact ht)
  | launch g _ _ htask _ _ => exact hstays (by rw [htask]; exact ht)
  | shut _ _ htask _ _ => exact hstays (by rw [htask]; exact ht)
  | begun pc u hp _ _ _ =>
      rw [hidle (by rw [hp]; rfl)] at ht
      cases ht
  | ended hp hch _ _ _ _ _ =>
      rw [hp, hch] at hx
      simp only [exec, userStep, ht] at hx
      cases hx
      refine ⟨.ended f, t, ?_, rfl⟩
      rw [taskAt_ended, if_pos rfl]
      rfl

/-- A dequeue goes on with what it has claimed, and begins it. -/
theorem taken_step (hq : QueueInv s) (hx : exec cfg s.mem i f ch (s.pc f) = some (m', p'))
    {t : Task} (ht : taskAt s (.taken f) = some t) :
    ∃ P, taskAt ⟨m', s.pc.set f p'⟩ P = some t := by
  cases hp : s.pc f with
  | taskDeq pc =>
      have hok := hq.tasks.ok f
      simp only [roles, hp, taskCaller] at hok
      have heffect := Mpmc.dequeueStep_effect s.mem.tasks (ch = .spurious) pc
      replace ht : (takenTask (s.pc f)).bind (s.mem.tasks.log[·]?) = some t := ht
      rw [hp] at hx ht
      simp only [exec] at hx
      split at hx <;> rename_i hout <;> cases hx <;> rw [hout] at heffect
      · cases heffect with
        | quiet hclaimed hlog _ =>
            refine ⟨.taken f, ?_⟩
            rw [taskAt_taken, if_pos rfl]
            show (DequeuePC.claimed _).bind _ = _
            rw [hclaimed]
            simp only [hlog]
            exact ht
        | take hpc _ _ _ =>
            rw [hpc] at ht
            cases ht
      · cases heffect with
        | empty hpc _ _ =>
            rw [hpc] at ht
            cases ht
      · cases heffect with
        | done hpc _ _ =>
            rw [hpc] at hok ht
            obtain ⟨-, -, -, hlogged, hdata⟩ := hok
            replace ht : s.mem.tasks.log[_]? = some t := ht
            refine ⟨.running f, ?_⟩
            show (s.mem.task.set f _) f = _
            rw [Table.get_set_self, hdata, ← hlogged, ht]
  | _ =>
      replace ht : (takenTask (s.pc f)).bind (s.mem.tasks.log[·]?) = some t := ht
      rw [hp] at ht
      cases ht

/-- A task that has returned is counted down next. -/
theorem ended_step (hx : exec cfg s.mem i f ch (s.pc f) = some (m', p')) {t : Task}
    (ht : taskAt s (.ended f) = some t) : m'.hist.decremented t.id ≠ 0 := by
  obtain ⟨inc, hp, hk⟩ := endedTask_eq_some ht
  rw [hp] at hx
  simp only [exec, incrementStep, hk] at hx
  cases hx
  show Hist.count s.mem.hist.decremented t.id t.id ≠ 0
  rw [count_self]
  exact Nat.succ_ne_zero _

/-- Where a task that is unfinished after a step comes from. -/
theorem unfinished_back (h : TaskStep s s' f) {n : Nat} (hn : n < s'.mem.hist.nextTask)
    (hzero : s'.mem.hist.decremented n = 0) :
    (n < s.mem.hist.nextTask ∧ s.mem.hist.decremented n = 0) ∨
      ∃ P t, taskAt s' P = some t ∧ t.id = n := by
  have hsame : taskPart s'.mem.hist = taskPart s.mem.hist →
      n < s.mem.hist.nextTask ∧ s.mem.hist.decremented n = 0 := by
    intro hpart
    simp only [taskPart, Prod.mk.injEq] at hpart
    rw [hpart.1] at hn
    rw [hpart.2.2.2.2] at hzero
    exact ⟨hn, hzero⟩
  cases h with
  | same _ hpart => exact Or.inl (hsame hpart)
  | queued _ _ _ hpart => exact Or.inl (hsame hpart)
  | dropped _ _ _ hpart => exact Or.inl (hsame hpart)
  | taken _ _ hpart => exact Or.inl (hsame hpart)
  | announced inc num sync _ _ hnew _ hhist =>
      rw [hhist, Hist.announce_eq] at hn hzero
      rcases Nat.lt_or_ge n s.mem.hist.nextTask with hlt | hge
      · exact Or.inl ⟨hlt, hzero⟩
      · exact Or.inr ⟨.submitting f n, _, hnew n hge hn, rfl⟩
  | begun t _ _ hhist =>
      rw [hhist] at hn hzero
      exact Or.inl ⟨hn, hzero⟩
  | ended t _ _ _ hhist =>
      rw [hhist] at hn hzero
      exact Or.inl ⟨hn, hzero⟩
  | done t _ _ _ hhist =>
      rw [hhist] at hn hzero
      refine Or.inl ⟨hn, ?_⟩
      by_cases hnt : n = t.id
      · rw [hnt, show Hist.decremented _ = Hist.count s.mem.hist.decremented t.id from rfl,
          count_self] at hzero
        cases hzero
      · rwa [show Hist.decremented _ = Hist.count s.mem.hist.decremented t.id from rfl,
          count_ne _ hnt] at hzero

/-- A submission in which an enqueue has failed goes on to its assertion. -/
theorem failing_goes (hx : exec cfg m i f ch p = some (m', p')) (hp : failing p) :
    m'.panic = some .taskQueueFull ∨ failing p' := by
  obtain ⟨sub, hsub, hfalse⟩ := hp
  have hsame : submission p' = submission p → m'.panic = some .taskQueueFull ∨ failing p' :=
    fun heq => Or.inr ⟨sub, heq.trans hsub, hfalse⟩
  cases p with
  | taskEnq v t pc =>
      have hv : v = sub := Option.some.inj hsub
      subst hv
      simp only [exec] at hx
      split at hx
      · cases hx
        exact hsame rfl
      · have hpair := Option.some.inj hx
        simp only [submitNext, hfalse, Bool.false_and, Bool.false_eq_true, if_false] at hpair
        split at hpair <;> cases hpair
        · left
          rfl
        · exact Or.inr ⟨_, rfl, rfl⟩
  | scan x j pc =>
      apply hsame
      obtain ⟨a, r, -, -, rfl⟩ := exec_scan hx
      cases r with
      | skip => exact submission_nextSlot x j
      | _ => rfl
  | pin x j reg t pc =>
      apply hsame
      cases pc with
      | lock =>
          simp only [exec, pinStep] at hx
          split at hx <;> cases hx <;> rfl
      | push =>
          cases hx
          rfl
      | unlock =>
          cases hx
          rfl
  | resEnq k v pc =>
      apply hsame
      simp only [exec] at hx
      split at hx <;> cases hx <;> cases k <;> rfl
  | _ => cases hsub

theorem failing_stays (hx : exec cfg s.mem i f ch (s.pc f) = some (m', p'))
    (hpanic : s.mem.panic = none) (hfailing : Failing s) : Failing ⟨m', s.pc.set f p'⟩ := by
  rcases hfailing with hpanicked | ⟨a, ha⟩
  · rw [hpanic] at hpanicked
    cases hpanicked
  · by_cases haf : a = f
    · subst haf
      rcases failing_goes hx ha with hpanicked | hgoes
      · exact Or.inl hpanicked
      · refine Or.inr ⟨a, ?_⟩
        show failing ((s.pc.set a p') a)
        rwa [Table.get_set_self]
    · refine Or.inr ⟨a, ?_⟩
      show failing ((s.pc.set f p') a)
      rwa [Table.get_set_ne _ _ haf]

namespace PlacedInv

/-- A task that is somewhere is somewhere after a step, unless it has been counted down. -/
theorem place_step (h : PlacedInv s) (hq : QueueInv s) (hformed : Formed (s.pc f))
    (hx : exec cfg s.mem i f ch (s.pc f) = some (m', p')) {P : TaskPlace} {t : Task}
    (ht : taskAt s P = some t) (hzero : m'.hist.decremented t.id = 0) :
    (∃ P u, taskAt ⟨m', s.pc.set f p'⟩ P = some u ∧ u.id = t.id) ∨
      Failing ⟨m', s.pc.set f p'⟩ := by
  have hmove := exec_queue hx
  have hle : s.mem.tasks.dequeuePos ≤ s.mem.tasks.log.length := by
    rw [hq.tasks.log_length]
    exact hq.tasks.deq_le
  cases P with
  | submitting a n =>
      by_cases haf : a = f
      · subst haf
        rcases submitting_step hq hformed hx ht with ⟨P, hP⟩ | hfailing
        · exact Or.inl ⟨P, t, hP, rfl⟩
        · exact Or.inr hfailing
      · refine Or.inl ⟨.submitting a n, t, ?_, rfl⟩
        rw [taskAt_submitting, if_neg haf]
        exact ht
  | queued pos =>
      left
      rcases hmove.entry hle ht with hentry | ⟨pc, hp', hclaimed⟩
      · exact ⟨.queued pos, t, hentry, rfl⟩
      · refine ⟨.taken f, t, ?_, rfl⟩
        rw [taskAt_taken, if_pos rfl, hp']
        exact hclaimed
  | taken a =>
      left
      by_cases haf : a = f
      · subst haf
        obtain ⟨P, hP⟩ := taken_step hq hx ht
        exact ⟨P, t, hP, rfl⟩
      · refine ⟨.taken a, t, ?_, rfl⟩
        obtain ⟨pos, hpos, hlog⟩ := Option.bind_eq_some_iff.1 ht
        rw [taskAt_taken, if_neg haf, hpos]
        exact hmove.log hlog
  | running a =>
      left
      by_cases haf : a = f
      · subst haf
        exact running_step (h.idle a) hx ht
      · refine ⟨.running a, t, ?_, rfl⟩
        show m'.task a = some t
        rw [exec_task hx haf]
        exact ht
  | ended a =>
      by_cases haf : a = f
      · subst haf
        exact absurd hzero (ended_step hx ht)
      · refine Or.inl ⟨.ended a, t, ?_, rfl⟩
        rw [taskAt_ended, if_neg haf]
        exact ht

theorem idle_step (h : PlacedInv s) (hx : exec cfg s.mem i f ch (s.pc f) = some (m', p')) {a : Nat}
    (ha : inBody ((s.pc.set f p') a) = false) : m'.task a = none := by
  by_cases haf : a = f
  · subst haf
    rw [Table.get_set_self] at ha
    cases exec_body hx with
    | stay hsame _ _ htask _ => rw [htask, h.idle a (hsame ▸ ha)]
    | main _ _ hp' _ _ =>
        rw [hp'] at ha
        cases ha
    | worker hp _ _ htask _ => rw [htask, h.idle a (by rw [hp]; rfl)]
    | begun _ _ _ hp' _ _ =>
        rw [hp'] at ha
        cases ha
    | ended _ _ _ _ htask _ _ => rw [htask, if_pos rfl]
    | launch _ hp _ htask _ _ => rw [htask, h.idle a (by rw [hp]; rfl)]
    | shut hp _ htask _ _ => rw [htask, h.idle a (by rw [hp]; rfl)]
  · rw [Table.get_set_ne _ _ haf] at ha
    rw [exec_task hx haf]
    exact h.idle a ha

theorem step (h : PlacedInv s) (hq : QueueInv s) (ht : TaskInv s)
    (hs : Scheduler.step cfg s l = some s') : PlacedInv s' := by
  obtain ⟨hpanic, -, m', p', hx, rfl⟩ := step_eq_some.1 hs
  constructor
  · intro a ha
    exact h.idle_step hx ha
  · intro n hn hzero
    rcases unfinished_back (exec_taskStep hq ht.formed hx) hn hzero with ⟨hlt, hold⟩ | hnew
    · rcases h.placed n hlt hold with ⟨P, t, hP, rfl⟩ | hfailing
      · exact h.place_step hq (ht.formed _) hx hP hzero
      · exact Or.inr (failing_stays hx hpanic hfailing)
    · exact Or.inl hnew

theorem start (cfg : Config) : PlacedInv (start cfg) := by
  constructor
  · intro a _
    rfl
  · intro n hn
    cases hn

end PlacedInv

end Steps

/-! ## Every run -/

/-- A task that has been announced and not counted down is in exactly one place. -/
def AllPlaced (s : State) : Prop :=
  ∀ id, id < s.mem.hist.nextTask → s.mem.hist.decremented id = 0 →
    ∃! P, ∃ t, taskAt s P = some t ∧ t.id = id

/-- In every run of every program no task is lost, unless a submission has found `mTasks`
full. -/
theorem placed_of_run {cfg : Config} (hcfg : cfg.Ok) {σ : Nat → State} {ℓ : Nat → Label} {n : Nat}
    (h : Run (step cfg) (start cfg) σ ℓ n) :
    ∀ k, k ≤ n → Failing (σ k) ∨ AllPlaced (σ k) := by
  have hinv : ∀ k, k ≤ n → QueueInv (σ k) ∧ TaskInv (σ k) ∧ PlacedInv (σ k) := by
    refine h.invariant (I := fun s => QueueInv s ∧ TaskInv s ∧ PlacedInv s) ?_ ?_
    · exact ⟨.start hcfg, .start cfg, .start cfg⟩
    · intro s l s' hI hs
      obtain ⟨hq, ht, hp⟩ := hI
      exact ⟨hq.step hs, ht.step hq hs, hp.step hq ht hs⟩
  intro k hk
  obtain ⟨hq, ht, hp⟩ := hinv k hk
  by_cases hfailing : Failing (σ k)
  · exact Or.inl hfailing
  right
  intro id hid hzero
  obtain ⟨P, t, hP, hid'⟩ := (hp.placed id hid hzero).resolve_right hfailing
  refine ⟨P, ⟨t, hP, hid'⟩, ?_⟩
  rintro Q ⟨u, hQ, hu⟩
  exact (ht.unique hQ hP (hu.trans hid'.symm)).1

/-- A task has submitted another one on its own sync, and the main task waits for both. -/
theorem placed_nestedSubmit :
    Failing (trace (step pairConfig) (start pairConfig) nestedSubmitLabels 160) ∨
      AllPlaced (trace (step pairConfig) (start pairConfig) nestedSubmitLabels 160) := by
  have hrun : follows (step pairConfig) (fun _ _ => true) (start pairConfig)
      nestedSubmitLabels = true := by decide +kernel
  exact placed_of_run pairConfig_ok (Run.of_follows ⟨0, .go⟩ hrun) 160 (by decide +kernel)

end TaskDispatcher.Scheduler
