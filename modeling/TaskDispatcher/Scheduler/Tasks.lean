import TaskDispatcher.Scheduler.Panics

/-!
# Where a task is

A task is a token: it waits in its submission, lies in the task queue, has been
taken out of it, is executed, or is about to be counted down.  So it is executed
once and counted down once, after its body has returned.
-/

namespace TaskDispatcher.Scheduler

open TaskDispatcher.Library TaskDispatcher.Container

inductive TaskPlace where
  | submitting (a n : Nat)
  | queued (pos : Nat)
  | taken (a : Nat)
  | running (a : Nat)
  | ended (a : Nat)

/-- The tasks of a submission that have not been put into the queue. -/
def unqueued : PC → Option Submission
  | .taskEnq sub _ pc =>
      some (if pc.claimed then { sub with next := sub.next + 1, remaining := sub.remaining - 1 }
        else sub)
  | p => submission p

def Submission.task (sub : Submission) (n : Nat) : Option Task :=
  if sub.next ≤ n ∧ n < sub.next + sub.remaining then
    some { metadata := sub.counter, id := n, life := sub.life }
  else none

/-- The position of the task that an agent has taken out of the queue. -/
def takenTask : PC → Option Nat
  | .taskDeq pc => pc.claimed
  | _ => none

/-- The task that an agent is about to count down. -/
def endedTask : PC → Option Task
  | .increment { counter := c, life := life, amount := _, k := .taskDone id } =>
      some { metadata := c, id := id, life := life }
  | _ => none

/-- The task `n` of the submission an agent is in. -/
def waitingTask (p : PC) (n : Nat) : Option Task := (unqueued p).bind fun sub => sub.task n

def taskAt (s : State) : TaskPlace → Option Task
  | .submitting a n => waitingTask (s.pc a) n
  | .queued pos => s.mem.tasks.entry pos
  | .taken a => (takenTask (s.pc a)).bind fun pos => s.mem.tasks.log[pos]?
  | .running a => s.mem.task a
  | .ended a => endedTask (s.pc a)

/-- What an agent has to do with tasks. -/
def taskRole (p : PC) : (Nat → Option Task) × Option Nat × Option Task :=
  (waitingTask p, takenTask p, endedTask p)

/-- The records of the tasks. -/
def taskPart (hist : Hist) : Nat × Table TaskInfo × Table Nat × Table Nat × Table Nat :=
  (hist.nextTask, hist.task, hist.started, hist.returned, hist.decremented)

/-- The tasks and their number agree where an agent is about to submit them. -/
def Formed : PC → Prop
  | .taskEnq sub t _ => sub.task sub.next = some t
  | .scan x _ _ => ∀ sub, x.k.submission = some sub → 0 < sub.remaining
  | .pin x _ _ _ _ => ∀ sub, x.k.submission = some sub → 0 < sub.remaining
  | .resEnq (.scan x _) _ _ => ∀ sub, x.k.submission = some sub → 0 < sub.remaining
  | .increment { counter := _, life := _, amount := amount, k := .submit num _ } =>
      0 < num ∧ amount = num
  | .increment { counter := _, life := _, amount := amount, k := .taskDone _ } => amount = -1
  | .freeDeq (.submit num _) _ => 0 < num
  | .resetCount _ (.submit num _) => 0 < num
  | .resetSlot _ _ (.submit num _) => 0 < num
  | .acquireHandle _ (.submit num _) => 0 < num
  | _ => True

section Steps

variable {cfg : Config} {s s' : State} {m m' : Mem} {i f : Nat} {ch : Choice} {p p' : PC} {l : Label}

theorem taskRole_nextSlot (x : Scan) (j : Nat) :
    taskRole (nextSlot x j) = taskRole (.scan x j .free) := by
  unfold nextSlot
  split
  · rfl
  · unfold taskRole waitingTask
    cases h : x.k <;> simp [afterScan, enqueueNext, unqueued, submission, h, ScanK.submission,
      EnqueuePC.claimed, takenTask, endedTask]

theorem taskRole_afterClean (k : CleanK) :
    taskRole (afterClean k) = (fun _ => none, none, none) := by
  rcases k with _ | _ | (_ | _) <;> rfl

theorem taskRole_afterPush (reg : Nat) (k : PushK) (v : Wake) (pc : EnqueuePC) :
    taskRole (afterPush reg k) = taskRole (.resEnq k v pc) := by
  cases k <;> rfl

theorem formed_nextSlot {x : Scan} (hx : ∀ sub, x.k.submission = some sub → 0 < sub.remaining)
    (j : Nat) : Formed (nextSlot x j) := by
  unfold nextSlot
  split
  · exact hx
  · cases h : x.k with
    | submit sub =>
        have hpos := hx sub (by rw [h]; rfl)
        exact if_pos ⟨Nat.le_refl _, by omega⟩
    | _ => trivial

theorem formed_afterClean (k : CleanK) : Formed (afterClean k) := by
  rcases k with _ | _ | (_ | _) <;> trivial

theorem formed_step (hx : exec cfg m i f ch p = some (m', p')) (hp : Formed p) : Formed p' := by
  cases p with
  | add w j pc =>
      obtain ⟨a, r, -, -, rfl⟩ := exec_add hx
      rcases r with _ | (_ | _) | _ <;> trivial
  | scan x j pc =>
      obtain ⟨a, r, -, -, rfl⟩ := exec_scan hx
      cases r with
      | skip => exact formed_nextSlot hp j
      | _ => exact hp
  | pin x j reg t pc =>
      cases pc with
      | lock =>
          simp only [exec, pinStep] at hx
          split at hx <;> cases hx <;> exact hp
      | push =>
          cases hx
          exact hp
      | unlock =>
          cases hx
          exact hp
  | resEnq k v pc =>
      simp only [exec] at hx
      split at hx <;> cases hx
      · cases k <;> exact hp
      · cases k with
        | scan x j => exact hp
        | getNextTask => trivial
  | taskEnq sub t pc =>
      simp only [exec, submitNext] at hx
      split at hx
      · cases hx
        exact hp
      · (repeat' split at hx) <;> cases hx
        · trivial
        · trivial
        · rename_i hne
          refine if_pos ⟨Nat.le_refl _, ?_⟩
          simp only at hne ⊢
          omega
  | increment inc =>
      obtain ⟨c, life, amount, k⟩ := inc
      simp only [exec, incrementStep] at hx
      split at hx <;> cases hx
      · intro sub hsub
        cases hsub
      · intro sub hsub
        cases hsub
      · intro sub hsub
        cases hsub
        exact hp.1
  | clean k =>
      simp only [exec, cleanStep] at hx
      split at hx <;> cases hx
      · exact formed_afterClean k
      · trivial
      · exact formed_afterClean k
  | idleEnq k v pc =>
      simp only [exec] at hx
      split at hx <;> cases hx
      · trivial
      · exact formed_afterClean k
  | body =>
      simp only [exec] at hx
      split at hx
      · rename_i u
        cases u with
        | submit sync num =>
            simp only [userStep] at hx
            split at hx
            · cases hx
            · rename_i hnum
              split at hx
              · cases hx
                exact Nat.pos_of_ne_zero hnum
              · split at hx
                · cases hx
                  exact ⟨Nat.pos_of_ne_zero hnum, rfl⟩
                · cases hx
        | submitOn h num =>
            simp only [userStep] at hx
            split at hx
            · split at hx
              · cases hx
              · rename_i hnum
                cases hx
                exact ⟨Nat.pos_of_ne_zero hnum, rfl⟩
            · cases hx
        | ret =>
            simp only [userStep] at hx
            split at hx <;> cases hx
            · trivial
            · rfl
        | _ =>
            simp only [userStep, beginWait] at hx
            (repeat' split at hx) <;> cases hx <;> trivial
      · cases hx
  | freeDeq k pc =>
      simp only [exec] at hx
      split at hx <;> cases hx <;> cases k <;> trivial
  | resetCount c k =>
      cases hx
      cases k <;> trivial
  | resetSlot c j k =>
      cases hx
      split <;> cases k <;> trivial
  | acquireHandle c k =>
      simp only [exec] at hx
      split at hx
      · split at hx
        · cases hx
        · cases k with
          | user =>
              cases hx
              trivial
          | submit num sync =>
              cases hx
              exact ⟨hp, rfl⟩
      · cases hx
  | entry =>
      cases hx
      split <;> trivial
  | loop =>
      cases hx
      split <;> trivial
  | getUnlock got =>
      cases hx
      cases got <;> trivial
  | _ =>
      simp only [exec, afterWait, afterRelease] at hx
      (repeat' split at hx) <;> cases hx <;> trivial

/-- The agents are formed in every state. -/
theorem formed_exec (h : ∀ a, Formed (s.pc a)) (hx : exec cfg s.mem i f ch (s.pc f) = some (m', p')) :
    ∀ a, Formed ((s.pc.set f p') a) := by
  intro a
  rw [Table.get_set]
  split
  · exact formed_step hx (h f)
  · exact h a

/-! ## How tasks move -/

theorem taskAt_submitting (a n : Nat) : taskAt ⟨m', s.pc.set f p'⟩ (.submitting a n) =
    if a = f then waitingTask p' n else taskAt s (.submitting a n) := by
  show waitingTask ((s.pc.set f p') a) n = _
  rw [Table.get_set]
  split <;> rfl

theorem taskAt_taken (a : Nat) : taskAt ⟨m', s.pc.set f p'⟩ (.taken a) =
    (takenTask (if a = f then p' else s.pc a)).bind fun pos => m'.tasks.log[pos]? := by
  show (takenTask ((s.pc.set f p') a)).bind _ = _
  rw [Table.get_set]

theorem taskAt_ended (a : Nat) : taskAt ⟨m', s.pc.set f p'⟩ (.ended a) =
    if a = f then endedTask p' else taskAt s (.ended a) := by
  show endedTask ((s.pc.set f p') a) = _
  rw [Table.get_set]
  split <;> rfl

theorem taskAt_congr (hlog : m'.tasks.log = s.mem.tasks.log)
    (hdeq : m'.tasks.dequeuePos = s.mem.tasks.dequeuePos) (htask : m'.task = s.mem.task)
    (hrole : taskRole p' = taskRole (s.pc f)) : taskAt ⟨m', s.pc.set f p'⟩ = taskAt s := by
  simp only [taskRole, Prod.mk.injEq] at hrole
  obtain ⟨hwaiting, htaken, hended⟩ := hrole
  funext P
  cases P with
  | submitting a n =>
      rw [taskAt_submitting]
      split
      · next ha => rw [hwaiting, ha]; rfl
      · rfl
  | queued pos => exact Mpmc.entry_congr hlog hdeq pos
  | taken a =>
      rw [taskAt_taken, hlog]
      split
      · next ha => rw [htaken, ha]; rfl
      · rfl
  | running a =>
      show m'.task a = s.mem.task a
      rw [htask]
  | ended a =>
      rw [taskAt_ended]
      split
      · next ha => rw [hended, ha]; rfl
      · rfl

/-- The token at `P` goes to `Q`, whatever was there. -/
structure TaskMoved (s s' : State) (P Q : TaskPlace) : Prop where
  gone : taskAt s' P = none
  here : taskAt s' Q = taskAt s P
  other : ∀ R, R ≠ P → R ≠ Q → taskAt s' R = taskAt s R

/-- What a step of agent `f` does to the tasks. -/
inductive TaskStep (s s' : State) (f : Nat) : Prop where
  | same : taskAt s' = taskAt s → taskPart s'.mem.hist = taskPart s.mem.hist → TaskStep s s' f
  | announced (inc : Increment) (num : Nat) (sync : Option Nat) : s.pc f = .increment inc →
      inc.k = .submit num sync →
      (∀ n, s.mem.hist.nextTask ≤ n → n < s.mem.hist.nextTask + num →
        taskAt s' (.submitting f n) = some { metadata := inc.counter, id := n, life := inc.life }) →
      (∀ P, (∀ n, P = .submitting f n → n < s.mem.hist.nextTask ∨ s.mem.hist.nextTask + num ≤ n) →
        taskAt s' P = taskAt s P) →
      s'.mem.hist = s.mem.hist.announce
        { counter := inc.counter, life := inc.life, sync := sync } num → TaskStep s s' f
  | queued (n pos : Nat) : TaskMoved s s' (.submitting f n) (.queued pos) →
      taskPart s'.mem.hist = taskPart s.mem.hist → TaskStep s s' f
  | dropped (n : Nat) : taskAt s' (.submitting f n) = none →
      (∀ P, P ≠ .submitting f n → taskAt s' P = taskAt s P) →
      taskPart s'.mem.hist = taskPart s.mem.hist → TaskStep s s' f
  | taken (pos : Nat) : TaskMoved s s' (.queued pos) (.taken f) →
      taskPart s'.mem.hist = taskPart s.mem.hist → TaskStep s s' f
  | begun (t : Task) : taskAt s (.taken f) = some t → TaskMoved s s' (.taken f) (.running f) →
      s'.mem.hist = { s.mem.hist with started := Hist.count s.mem.hist.started t.id } →
      TaskStep s s' f
  | ended (t : Task) : taskAt s (.running f) = some t → taskAt s (.ended f) = none →
      TaskMoved s s' (.running f) (.ended f) →
      s'.mem.hist = { s.mem.hist with returned := Hist.count s.mem.hist.returned t.id } →
      TaskStep s s' f
  | done (t : Task) : taskAt s (.ended f) = some t → taskAt s' (.ended f) = none →
      (∀ P, P ≠ .ended f → taskAt s' P = taskAt s P) →
      s'.mem.hist = { s.mem.hist with decremented := Hist.count s.mem.hist.decremented t.id } →
      TaskStep s s' f

/-- Appending to the queue does not change what the agents have taken out. -/
theorem taken_append (hq : QueueInv s) {q' : Mpmc Task} {t : Task}
    (hlog : q'.log = s.mem.tasks.log ++ [t]) (a : Nat) :
    ((takenTask (s.pc a)).bind fun pos => q'.log[pos]?) = taskAt s (.taken a) := by
  show _ = (takenTask (s.pc a)).bind fun pos => s.mem.tasks.log[pos]?
  cases hp : s.pc a with
  | taskDeq pc =>
      cases hc : pc.claimed with
      | none => simp [takenTask, hc]
      | some pos =>
          have hclaim : (roles taskCaller s.pc a).claimed = some (.inr pos) := by
            show (taskCaller (s.pc a)).claimed = _
            rw [hp]
            cases pc <;> cases hc <;> rfl
          have hsome := (hq.tasks.claimed_dequeue hclaim).2.2.2
          simp only [takenTask, hc, Option.bind_some, hlog]
          rw [hsome]
          exact Mpmc.Inv.log_append t hsome
  | _ => rfl

theorem taskStep_taskEnq (hq : QueueInv s) (hformed : Formed (s.pc f)) {sub : Submission} {t : Task}
    {pc : EnqueuePC} (hpc : s.pc f = .taskEnq sub t pc)
    (hx : exec cfg s.mem i f ch (.taskEnq sub t pc) = some (m', p')) :
    TaskStep s ⟨m', s.pc.set f p'⟩ f := by
  have heffect := Mpmc.enqueueStep_effect s.mem.tasks t (ch = .spurious) pc
  have hle : s.mem.tasks.dequeuePos ≤ s.mem.tasks.log.length := by
    rw [hq.tasks.log_length]
    exact hq.tasks.deq_le
  rw [hpc] at hformed
  have hnext : sub.task sub.next = some t := hformed
  have hpos : 0 < sub.remaining := by
    unfold Submission.task at hnext
    split at hnext
    · omega
    · cases hnext
  -- the submission without its first task
  have hrest : ∀ (b : Bool) n,
      Submission.task { sub with next := sub.next + 1, remaining := sub.remaining - 1, success := b } n =
        if n = sub.next then none else sub.task n := by
    intro b n
    unfold Submission.task
    simp only
    split_ifs <;> first | rfl | omega
  have hwaiting : ∀ n, taskAt s (.submitting f n) =
      if pc.claimed = true ∧ n = sub.next then none else sub.task n := by
    intro n
    show waitingTask (s.pc f) n = _
    rw [hpc]
    simp only [waitingTask, unqueued, Option.bind_some]
    cases pc.claimed with
    | true => simpa using hrest sub.success n
    | false => simp
  have htaken : takenTask (s.pc f) = none := by
    rw [hpc]
    rfl
  have hended : endedTask (s.pc f) = none := by
    rw [hpc]
    rfl
  simp only [exec] at hx
  split at hx <;> rename_i r hr
  · cases hx
    rw [hr] at heffect
    cases heffect with
    | quiet hclaimed hlog hdeq =>
        refine .same (taskAt_congr hlog hdeq rfl ?_) rfl
        rw [hpc]
        refine Prod.ext (funext fun n => ?_) rfl
        show waitingTask (.taskEnq sub t r) n = waitingTask (.taskEnq sub t pc) n
        simp only [waitingTask, unqueued, hclaimed]
    | put hbefore hafter hlog hdeq =>
        have hentry := Mpmc.entry_put hlog hdeq hle
        have hnew : ∀ n, waitingTask (.taskEnq sub t r) n = if n = sub.next then none else sub.task n := by
          intro n
          simp only [waitingTask, unqueued, hafter, if_true, Option.bind_some]
          exact hrest sub.success n
        refine .queued sub.next s.mem.tasks.log.length ⟨?_, ?_, ?_⟩ rfl
        · rw [taskAt_submitting, if_pos rfl, hnew, if_pos rfl]
        · refine ((hentry _).trans (if_pos rfl)).trans ?_
          rw [hwaiting, hbefore]
          simpa using hnext.symm
        · intro R hR hR'
          cases R with
          | submitting a n =>
              rw [taskAt_submitting]
              split
              · next ha =>
                  subst ha
                  rw [hnew, hwaiting, hbefore, if_neg fun hn => hR (by rw [hn])]
                  simp
              · rfl
          | queued pos => exact (hentry pos).trans (if_neg fun hp => hR' (by rw [hp]))
          | taken a =>
              rw [taskAt_taken]
              split
              · next ha =>
                  rw [ha]
                  show none = (takenTask (s.pc f)).bind _
                  rw [htaken]
                  rfl
              · exact taken_append hq hlog a
          | running a => rfl
          | ended a =>
              rw [taskAt_ended]
              split
              · next ha =>
                  rw [ha]
                  exact hended.symm
              · rfl
  · rw [hr] at heffect
    -- what `submitNext` does to the tasks
    obtain ⟨htasks, htask, hpart, hnew, htaken', hended'⟩ :
        m'.tasks = (Mpmc.enqueueStep 0 t (ch = .spurious) s.mem.tasks pc).1 ∧
          m'.task = s.mem.task ∧ taskPart m'.hist = taskPart s.mem.hist ∧
          (∀ n, waitingTask p' n = if n = sub.next then none else sub.task n) ∧
          takenTask p' = none ∧ endedTask p' = none := by
      simp only [submitNext] at hx
      have hlast : sub.remaining - 1 = 0 → ∀ n, none = if n = sub.next then none else sub.task n := by
        intro hzero n
        rw [← hrest true n]
        unfold Submission.task
        simp only
        rw [if_neg (by omega)]
      split at hx
      · next hzero =>
          split at hx <;> cases hx <;> exact ⟨rfl, rfl, rfl, hlast hzero, rfl, rfl⟩
      · cases hx
        exact ⟨rfl, rfl, rfl, fun n => hrest _ n, rfl, rfl⟩
    cases heffect with
    | done hclaimed hlog hdeq =>
        refine .same (taskAt_congr (by rw [htasks, hlog]) (by rw [htasks, hdeq]) htask ?_) hpart
        simp only [taskRole, Prod.mk.injEq, htaken, htaken', hended, hended', and_true]
        funext n
        rw [hnew, show waitingTask (s.pc f) n = _ from hwaiting n, hclaimed]
        simp
    | @full pos hseq hdiff hsame =>
        have hq' : m'.tasks = s.mem.tasks := htasks.trans hsame
        refine .dropped sub.next ?_ ?_ hpart
        · rw [taskAt_submitting, if_pos rfl, hnew, if_pos rfl]
        · intro R hR
          cases R with
          | submitting a n =>
              rw [taskAt_submitting]
              split
              · next ha =>
                  subst ha
                  rw [hnew, hwaiting, hseq, if_neg fun hn => hR (by rw [hn])]
                  simp [EnqueuePC.claimed]
              · rfl
          | queued pos =>
              show m'.tasks.entry pos = s.mem.tasks.entry pos
              rw [hq']
          | taken a =>
              rw [taskAt_taken, hq']
              split
              · next ha =>
                  rw [ha, htaken']
                  show none = (takenTask (s.pc f)).bind _
                  rw [htaken]
                  rfl
              · rfl
          | running a =>
              show m'.task a = s.mem.task a
              rw [htask]
          | ended a =>
              rw [taskAt_ended]
              split
              · next ha =>
                  rw [ha, hended']
                  exact hended.symm
              · rfl

theorem taskStep_taskDeq (hq : QueueInv s) {pc : DequeuePC Task} (hpc : s.pc f = .taskDeq pc)
    (hx : exec cfg s.mem i f ch (.taskDeq pc) = some (m', p')) :
    TaskStep s ⟨m', s.pc.set f p'⟩ f := by
  have heffect := Mpmc.dequeueStep_effect s.mem.tasks (ch = .spurious) pc
  have htaken : takenTask (s.pc f) = pc.claimed := by
    rw [hpc]
    rfl
  have hwaiting : ∀ n, waitingTask (s.pc f) n = none := by
    intro n
    rw [hpc]
    rfl
  have hended : endedTask (s.pc f) = none := by
    rw [hpc]
    rfl
  simp only [exec] at hx
  split at hx <;> rename_i r hr <;> cases hx <;> rw [hr] at heffect
  · cases heffect with
    | quiet hclaimed hlog hdeq =>
        refine .same (taskAt_congr hlog hdeq rfl ?_) rfl
        rw [hpc]
        simp only [taskRole, takenTask, endedTask, hclaimed]
        rfl
    | take hclaim hafter hlog hdeq =>
        have hentry := Mpmc.entry_take hlog hdeq
        refine .taken s.mem.tasks.dequeuePos ⟨?_, ?_, ?_⟩ rfl
        · exact (hentry _).trans (if_pos rfl)
        · rw [taskAt_taken, if_pos rfl]
          show (DequeuePC.claimed _).bind _ = s.mem.tasks.entry _
          rw [hafter, Mpmc.entry_dequeuePos]
          simp only [Option.bind_some, hlog]
        · intro R hR hR'
          cases R with
          | submitting a n =>
              rw [taskAt_submitting]
              split
              · next ha =>
                  rw [ha]
                  exact (hwaiting n).symm
              · rfl
          | queued pos => exact (hentry pos).trans (if_neg fun hp => hR (by rw [hp]))
          | taken a =>
              rw [taskAt_taken, if_neg fun ha => hR' (by rw [ha])]
              simp only [hlog]
              rfl
          | running a => rfl
          | ended a =>
              rw [taskAt_ended]
              split
              · next ha =>
                  rw [ha]
                  exact hended.symm
              · rfl
  · cases heffect with
    | empty hseq _ hsame =>
        refine .same (taskAt_congr (by rw [hsame]) (by rw [hsame]) rfl ?_) rfl
        rw [hpc, hseq]
        rfl
  · cases heffect with
    | @done pos _ hpub hlog hdeq =>
        -- what was read is what was put at the claimed position
        have hread : s.mem.tasks.log[pos]? = some r := by
          have hok := hq.tasks.ok f
          simp only [roles, hpc, taskCaller, hpub, Mpmc.CallerOk] at hok
          rw [hok.2.2.2.1, hok.2.2.2.2]
        have hsource : taskAt s (.taken f) = some r := by
          show (takenTask (s.pc f)).bind _ = _
          rw [htaken, hpub]
          exact hread
        refine .begun r hsource ⟨?_, ?_, ?_⟩ rfl
        · rw [taskAt_taken, if_pos rfl]
          rfl
        · rw [hsource]
          exact Table.get_set_self _ _ _
        · intro R hR hR'
          cases R with
          | submitting a n =>
              rw [taskAt_submitting]
              split
              · next ha =>
                  rw [ha]
                  exact (hwaiting n).symm
              · rfl
          | queued pos => exact Mpmc.entry_congr hlog hdeq pos
          | taken a =>
              rw [taskAt_taken, if_neg fun ha => hR (by rw [ha])]
              simp only [hlog]
              rfl
          | running a => exact Table.get_set_ne _ _ fun ha => hR' (by rw [ha])
          | ended a =>
              rw [taskAt_ended]
              split
              · next ha =>
                  rw [ha]
                  exact hended.symm
              · rfl

theorem taskStep_increment {inc : Increment} (hpc : s.pc f = .increment inc)
    (hx : exec cfg s.mem i f ch (.increment inc) = some (m', p')) :
    TaskStep s ⟨m', s.pc.set f p'⟩ f := by
  obtain ⟨c, life, amount, k⟩ := inc
  have htaken : takenTask (s.pc f) = none := by
    rw [hpc]
    rfl
  have hwaiting : ∀ n, waitingTask (s.pc f) n = none := by
    intro n
    rw [hpc]
    rfl
  cases k with
  | user =>
      cases hx
      refine .same (taskAt_congr rfl rfl rfl ?_) rfl
      rw [hpc]
      rfl
  | taskDone id =>
      cases hx
      have hended : endedTask (s.pc f) = some ⟨c, id, life⟩ := by
        rw [hpc]
        rfl
      refine .done ⟨c, id, life⟩ hended ?_ ?_ rfl
      · rw [taskAt_ended, if_pos rfl]
        rfl
      · intro R hR
        cases R with
        | submitting a n =>
            rw [taskAt_submitting]
            split
            · next ha =>
                rw [ha]
                exact (hwaiting n).symm
            · rfl
        | queued pos => rfl
        | taken a =>
            rw [taskAt_taken]
            split
            · next ha =>
                rw [ha]
                show none = (takenTask (s.pc f)).bind _
                rw [htaken]
                rfl
            · rfl
        | running a => rfl
        | ended a => rw [taskAt_ended, if_neg fun ha => hR (by rw [ha])]
  | submit num sync =>
      cases hx
      have hended : endedTask (s.pc f) = none := by
        rw [hpc]
        rfl
      have hnew : ∀ n, waitingTask (.scan
          { counter := c
            life := life
            value := (s.mem.counters c).count + amount
            k := .submit
              { counter := c
                life := life
                next := s.mem.hist.nextTask
                remaining := num
                success := true } } 0 .free) n =
          if s.mem.hist.nextTask ≤ n ∧ n < s.mem.hist.nextTask + num then some ⟨c, n, life⟩
          else none := fun n => rfl
      refine .announced _ num sync hpc rfl ?_ ?_ rfl
      · intro n hle hlt
        rw [taskAt_submitting, if_pos rfl]
        exact (hnew n).trans (if_pos ⟨hle, hlt⟩)
      · intro R hR
        cases R with
        | submitting a n =>
            rw [taskAt_submitting]
            split
            · next ha =>
                subst ha
                refine (hnew n).trans ?_
                rw [if_neg]
                · exact (hwaiting n).symm
                · have hout := hR n rfl
                  omega
            · rfl
        | queued pos => rfl
        | taken a =>
            rw [taskAt_taken]
            split
            · next ha =>
                rw [ha]
                show none = (takenTask (s.pc f)).bind _
                rw [htaken]
                rfl
            · rfl
        | running a => rfl
        | ended a =>
            rw [taskAt_ended]
            split
            · next ha =>
                rw [ha]
                exact hended.symm
            · rfl

/-- The end of a body. -/
theorem taskStep_ret (hpc : s.pc f = .body) (hx : userStep s.mem i f .ret = some (m', p')) :
    TaskStep s ⟨m', s.pc.set f p'⟩ f := by
  simp only [userStep] at hx
  split at hx
  · cases hx
    refine .same (taskAt_congr rfl rfl rfl ?_) rfl
    rw [hpc]
    rfl
  · next t ht =>
    cases hx
    have hnone : taskAt s (.ended f) = none := by
      show endedTask (s.pc f) = none
      rw [hpc]
      rfl
    refine .ended t ht hnone ⟨Table.get_set_self _ _ _, ?_, ?_⟩ rfl
    · rw [taskAt_ended, if_pos rfl]
      exact ht.symm
    · intro R hR hR'
      cases R with
      | submitting a n =>
          rw [taskAt_submitting]
          split
          · next ha =>
              rw [ha]
              show none = waitingTask (s.pc f) n
              rw [hpc]
              rfl
          · rfl
      | queued pos => rfl
      | taken a =>
          rw [taskAt_taken]
          split
          · next ha =>
              rw [ha]
              show none = (takenTask (s.pc f)).bind _
              rw [hpc]
              rfl
          · rfl
      | running a => exact Table.get_set_ne _ _ fun ha => hR (by rw [ha])
      | ended a => rw [taskAt_ended, if_neg fun ha => hR' (by rw [ha])]

theorem exec_taskStep (hq : QueueInv s) (hformed : ∀ a, Formed (s.pc a))
    (hx : exec cfg s.mem i f ch (s.pc f) = some (m', p')) : TaskStep s ⟨m', s.pc.set f p'⟩ f := by
  have hsame : ∀ p m' p', s.pc f = p → m'.tasks.log = s.mem.tasks.log →
      m'.tasks.dequeuePos = s.mem.tasks.dequeuePos → m'.task = s.mem.task →
      taskPart m'.hist = taskPart s.mem.hist → taskRole p' = taskRole p →
      TaskStep s ⟨m', s.pc.set f p'⟩ f :=
    fun p m' p' hpc hlog hdeq htask hpart hrole =>
      .same (taskAt_congr hlog hdeq htask (hpc ▸ hrole)) hpart
  cases hpc : s.pc f with
  | taskEnq sub t pc => exact taskStep_taskEnq hq (hformed f) hpc (hpc ▸ hx)
  | taskDeq pc => exact taskStep_taskDeq hq hpc (hpc ▸ hx)
  | increment inc => exact taskStep_increment hpc (hpc ▸ hx)
  | body =>
      rw [hpc] at hx
      simp only [exec] at hx
      split at hx
      · rename_i u
        cases u with
        | ret => exact taskStep_ret hpc hx
        | _ =>
            simp only [userStep, beginWait, submitTasks] at hx
            (repeat' split at hx) <;> cases hx <;>
              exact hsame _ _ _ hpc rfl rfl rfl rfl rfl
      · cases hx
  | add w j pc =>
      rw [hpc] at hx
      obtain ⟨a, r, -, rfl, rfl⟩ := exec_add hx
      rcases r with _ | (_ | _) | _ <;> exact hsame _ _ _ hpc rfl rfl rfl rfl rfl
  | scan x j pc =>
      rw [hpc] at hx
      obtain ⟨a, r, -, rfl, rfl⟩ := exec_scan hx
      cases r with
      | skip => exact hsame _ _ _ hpc rfl rfl rfl rfl (taskRole_nextSlot x j)
      | _ => exact hsame _ _ _ hpc rfl rfl rfl rfl rfl
  | pin x j reg t pc =>
      rw [hpc] at hx
      cases pc with
      | lock =>
          simp only [exec, pinStep] at hx
          split at hx <;> cases hx <;> exact hsame _ _ _ hpc rfl rfl rfl rfl rfl
      | push =>
          cases hx
          exact hsame _ _ _ hpc rfl rfl rfl rfl rfl
      | unlock =>
          cases hx
          exact hsame _ _ _ hpc rfl rfl rfl rfl rfl
  | resEnq k v pc =>
      rw [hpc] at hx
      simp only [exec] at hx
      split at hx <;> cases hx
      · exact hsame _ _ _ hpc rfl rfl rfl rfl (by cases k <;> rfl)
      · split <;> exact hsame _ _ _ hpc rfl rfl rfl rfl (taskRole_afterPush v.reg k v pc)
  | clean k =>
      rw [hpc] at hx
      simp only [exec, cleanStep] at hx
      split at hx <;> cases hx
      · exact hsame _ _ _ hpc rfl rfl rfl rfl (taskRole_afterClean k)
      · exact hsame _ _ _ hpc rfl rfl rfl rfl rfl
      · exact hsame _ _ _ hpc rfl rfl rfl rfl (taskRole_afterClean k)
  | idleEnq k v pc =>
      rw [hpc] at hx
      simp only [exec] at hx
      split at hx <;> cases hx
      · exact hsame _ _ _ hpc rfl rfl rfl rfl rfl
      · exact hsame _ _ _ hpc rfl rfl rfl rfl (taskRole_afterClean k)
  | getUnlock got =>
      rw [hpc] at hx
      cases hx
      exact hsame _ _ _ hpc rfl rfl rfl rfl (by cases got <;> rfl)
  | entry =>
      rw [hpc] at hx
      cases hx
      exact hsame _ _ _ hpc rfl rfl rfl rfl (by split <;> rfl)
  | loop =>
      rw [hpc] at hx
      cases hx
      exact hsame _ _ _ hpc rfl rfl rfl rfl (by split <;> rfl)
  | resetSlot c j k =>
      rw [hpc] at hx
      cases hx
      exact hsame _ _ _ hpc rfl rfl rfl rfl (by split <;> rfl)
  | freeEnq k c pc =>
      rw [hpc] at hx
      simp only [exec, afterRelease] at hx
      (repeat' split at hx) <;> cases hx <;> exact hsame _ _ _ hpc rfl rfl rfl rfl rfl
  | _ =>
      rw [hpc] at hx
      simp only [exec, afterWait, afterRelease, submitTasks] at hx
      (repeat' split at hx) <;> cases hx <;> exact hsame _ _ _ hpc rfl rfl rfl rfl rfl

/-! ## The invariant -/

/-- Where a task was before the step. -/
theorem TaskMoved.source {P Q R : TaskPlace} {t : Task} (h : TaskMoved s s' P Q)
    (hR : taskAt s' R = some t) :
    R = Q ∧ taskAt s P = some t ∨ R ≠ P ∧ R ≠ Q ∧ taskAt s R = some t := by
  by_cases hRQ : R = Q
  · rw [hRQ, h.here] at hR
    exact Or.inl ⟨hRQ, hR⟩
  · by_cases hRP : R = P
    · rw [hRP, h.gone] at hR
      cases hR
    · rw [h.other R hRP hRQ] at hR
      exact Or.inr ⟨hRP, hRQ, hR⟩

theorem TaskMoved.linear {P Q : TaskPlace} (h : TaskMoved s s' P Q) (hlin : Linear (taskAt s)) :
    Linear (taskAt s') := by
  apply hlin.move (p := P) (q := Q)
  · intro t ht
    rw [h.gone] at ht
    cases ht
  · intro t ht
    rwa [h.here] at ht
  · intro R hRP hRQ t ht
    rwa [h.other R hRP hRQ] at ht

/-- A place of a task that has not been begun. -/
def TaskPlace.waits : TaskPlace → Prop
  | .running _ => False
  | .ended _ => False
  | _ => True

structure TaskInv (s : State) : Prop where
  formed : ∀ a, Formed (s.pc a)
  linear : Linear (taskAt s)
  known : ∀ P t, taskAt s P = some t → t.id < s.mem.hist.nextTask ∧
    (s.mem.hist.task t.id).counter = t.metadata ∧ (s.mem.hist.task t.id).life = t.life
  fresh : ∀ n, s.mem.hist.nextTask ≤ n → s.mem.hist.started n = 0
  waiting : ∀ P t, P.waits → taskAt s P = some t → s.mem.hist.started t.id = 0
  running : ∀ a t, taskAt s (.running a) = some t →
    s.mem.hist.started t.id = 1 ∧ s.mem.hist.returned t.id = 0
  ended : ∀ a t, taskAt s (.ended a) = some t →
    s.mem.hist.returned t.id = 1 ∧ s.mem.hist.decremented t.id = 0
  order : ∀ n, s.mem.hist.decremented n ≤ s.mem.hist.returned n ∧
    s.mem.hist.returned n ≤ s.mem.hist.started n ∧ s.mem.hist.started n ≤ 1
  due : ∀ n, s.mem.hist.returned n = 1 → s.mem.hist.decremented n = 0 →
    ∃ a t, taskAt s (.ended a) = some t ∧ t.id = n

namespace TaskInv

/-- A task is in one place. -/
theorem unique (h : TaskInv s) {P Q : TaskPlace} {t u : Task} (hP : taskAt s P = some t)
    (hQ : taskAt s Q = some u) (hid : t.id = u.id) : P = Q ∧ t = u := by
  obtain ⟨-, htc, htl⟩ := h.known P t hP
  obtain ⟨-, huc, hul⟩ := h.known Q u hQ
  have heq : t = u := by
    obtain ⟨tm, ti, tl⟩ := t
    obtain ⟨um, ui, ul⟩ := u
    obtain rfl : ti = ui := hid
    rw [Task.mk.injEq]
    exact ⟨htc.symm.trans huc, rfl, htl.symm.trans hul⟩
  subst heq
  exact ⟨h.linear P Q t hP hQ, rfl⟩

/-- A task that waits moves on, and the records stay. -/
theorem moved (h : TaskInv s) (hformed : ∀ a, Formed (s'.pc a)) {P Q : TaskPlace}
    (hm : TaskMoved s s' P Q) (hP : P.waits) (hQ : Q.waits)
    (hpart : taskPart s'.mem.hist = taskPart s.mem.hist) : TaskInv s' := by
  simp only [taskPart, Prod.mk.injEq] at hpart
  obtain ⟨hnext, htask, hstarted, hreturned, hdecremented⟩ := hpart
  have hended : ∀ a, taskAt s' (.ended a) = taskAt s (.ended a) := by
    intro a
    apply hm.other
    · rintro rfl
      exact hP
    · rintro rfl
      exact hQ
  have hrunning : ∀ a, taskAt s' (.running a) = taskAt s (.running a) := by
    intro a
    apply hm.other
    · rintro rfl
      exact hP
    · rintro rfl
      exact hQ
  refine ⟨hformed, hm.linear h.linear, ?_, ?_, ?_, ?_, ?_, ?_, ?_⟩ <;>
    simp only [hnext, htask, hstarted, hreturned, hdecremented, hended, hrunning]
  · intro R t hR
    rcases hm.source hR with ⟨-, hold⟩ | ⟨-, -, hold⟩ <;> exact h.known _ t hold
  · exact h.fresh
  · intro R t hwaits hR
    rcases hm.source hR with ⟨-, hold⟩ | ⟨-, -, hold⟩
    · exact h.waiting P t hP hold
    · exact h.waiting R t hwaits hold
  · exact h.running
  · exact h.ended
  · exact h.order
  · exact h.due

/-- A task that waits is lost, and the records stay. -/
theorem dropped (h : TaskInv s) (hformed : ∀ a, Formed (s'.pc a)) {P : TaskPlace} (hP : P.waits)
    (hgone : taskAt s' P = none) (hother : ∀ R, R ≠ P → taskAt s' R = taskAt s R)
    (hpart : taskPart s'.mem.hist = taskPart s.mem.hist) : TaskInv s' := by
  simp only [taskPart, Prod.mk.injEq] at hpart
  obtain ⟨hnext, htask, hstarted, hreturned, hdecremented⟩ := hpart
  have hsub : ∀ R t, taskAt s' R = some t → taskAt s R = some t := by
    intro R t hR
    by_cases hRP : R = P
    · rw [hRP, hgone] at hR
      cases hR
    · rwa [hother R hRP] at hR
  refine ⟨hformed, h.linear.mono hsub, ?_, ?_, ?_, ?_, ?_, ?_, ?_⟩ <;>
    simp only [hnext, htask, hstarted, hreturned, hdecremented]
  · exact fun R t hR => h.known R t (hsub R t hR)
  · exact h.fresh
  · exact fun R t hwaits hR => h.waiting R t hwaits (hsub R t hR)
  · exact fun a t ht => h.running a t (hsub _ t ht)
  · exact fun a t ht => h.ended a t (hsub _ t ht)
  · exact h.order
  · intro n hret hdec
    obtain ⟨a, t, ht, hid⟩ := h.due n hret hdec
    refine ⟨a, t, ?_, hid⟩
    rw [hother]
    · exact ht
    · rintro rfl
      exact hP

/-- The records of the tasks that a submission announces. -/
theorem announce_task (hist : Hist) (info : TaskInfo) (num n : Nat) :
    (hist.announce info num).task n =
      if hist.nextTask ≤ n ∧ n < hist.nextTask + num then info else hist.task n := by
  induction num generalizing hist with
  | zero =>
      rw [if_neg (by omega)]
      rfl
  | succ num ih =>
      show (Hist.announce _ info num).task n = _
      rw [ih]
      simp only [Table.get_set]
      split_ifs <;> first | rfl | omega

theorem announced (h : TaskInv s) (hformed : ∀ a, Formed (s'.pc a)) {inc : Increment} {num : Nat}
    {sync : Option Nat}
    (hnew : ∀ n, s.mem.hist.nextTask ≤ n → n < s.mem.hist.nextTask + num →
      taskAt s' (.submitting f n) = some { metadata := inc.counter, id := n, life := inc.life })
    (hother : ∀ P, (∀ n, P = .submitting f n → n < s.mem.hist.nextTask ∨
      s.mem.hist.nextTask + num ≤ n) → taskAt s' P = taskAt s P)
    (hhist : s'.mem.hist = s.mem.hist.announce
      { counter := inc.counter, life := inc.life, sync := sync } num) : TaskInv s' := by
  have hnext : s'.mem.hist.nextTask = s.mem.hist.nextTask + num := by
    rw [hhist, Hist.announce_eq]
  have htask := fun n => announce_task s.mem.hist
    { counter := inc.counter, life := inc.life, sync := sync } num n
  rw [← hhist] at htask
  have hrest : s'.mem.hist.started = s.mem.hist.started ∧
      s'.mem.hist.returned = s.mem.hist.returned ∧
      s'.mem.hist.decremented = s.mem.hist.decremented := by
    rw [hhist, Hist.announce_eq]
    exact ⟨rfl, rfl, rfl⟩
  obtain ⟨hstarted, hreturned, hdecremented⟩ := hrest
  -- a token was there before, or is one of the new tasks
  have hcases : ∀ P t, taskAt s' P = some t → taskAt s P = some t ∨
      ∃ n, P = .submitting f n ∧ s.mem.hist.nextTask ≤ n ∧ n < s.mem.hist.nextTask + num ∧
        t = { metadata := inc.counter, id := n, life := inc.life } := by
    intro P t hP
    by_cases hin : ∃ n, P = .submitting f n ∧ s.mem.hist.nextTask ≤ n ∧
        n < s.mem.hist.nextTask + num
    · obtain ⟨n, rfl, hle, hlt⟩ := hin
      rw [hnew n hle hlt] at hP
      exact Or.inr ⟨n, rfl, hle, hlt, (Option.some.inj hP).symm⟩
    · left
      rw [← hother P]
      · exact hP
      · intro n hn
        by_contra hout
        exact hin ⟨n, hn, by omega, by omega⟩
  have hended : ∀ a, taskAt s' (.ended a) = taskAt s (.ended a) :=
    fun a => hother _ fun n hn => by cases hn
  have hrunning : ∀ a, taskAt s' (.running a) = taskAt s (.running a) :=
    fun a => hother _ fun n hn => by cases hn
  have hlinear : Linear (taskAt s') := by
    intro P Q t hP hQ
    rcases hcases P t hP with hold | ⟨n, rfl, hle, -, rfl⟩ <;>
      rcases hcases Q _ hQ with hold' | ⟨k, rfl, hle', -, heq⟩
    · exact h.linear P Q t hold hold'
    · have hlt := (h.known P t hold).1
      rw [heq] at hlt
      simp only at hlt
      omega
    · have hlt := (h.known Q _ hold').1
      simp only at hlt
      omega
    · rw [(Task.mk.inj heq).2.1]
  refine ⟨hformed, hlinear, ?_, ?_, ?_, ?_, ?_, ?_, ?_⟩ <;>
    simp only [hnext, hstarted, hreturned, hdecremented, hended, hrunning]
  · intro P t hP
    rw [htask]
    rcases hcases P t hP with hold | ⟨n, rfl, hle, hlt, rfl⟩
    · obtain ⟨hlt, hrest⟩ := h.known P t hold
      rw [if_neg (by omega)]
      exact ⟨by omega, hrest⟩
    · rw [if_pos ⟨hle, hlt⟩]
      exact ⟨hlt, rfl, rfl⟩
  · exact fun n hn => h.fresh n (by omega)
  · intro P t hwaits hP
    rcases hcases P t hP with hold | ⟨n, rfl, hle, -, rfl⟩
    · exact h.waiting P t hwaits hold
    · exact h.fresh n hle
  · exact h.running
  · exact h.ended
  · exact h.order
  · exact h.due

theorem begun (h : TaskInv s) (hformed : ∀ a, Formed (s'.pc a)) {t : Task}
    (ht : taskAt s (.taken f) = some t) (hm : TaskMoved s s' (.taken f) (.running f))
    (hhist : s'.mem.hist = { s.mem.hist with
      started := Hist.count s.mem.hist.started t.id }) : TaskInv s' := by
  have hnot : s.mem.hist.started t.id = 0 := h.waiting (.taken f) t trivial ht
  have horder := h.order t.id
  have hother : ∀ P u, P ≠ .taken f → taskAt s P = some u → u.id ≠ t.id := by
    intro P u hP hu hid
    exact hP (h.unique hu ht hid).1
  refine ⟨hformed, hm.linear h.linear, ?_, ?_, ?_, ?_, ?_, ?_, ?_⟩ <;> rw [hhist] <;> simp only
  · intro R u hR
    rcases hm.source hR with ⟨-, hold⟩ | ⟨-, -, hold⟩ <;> exact h.known _ u hold
  · intro n hn
    rw [count_ne]
    · exact h.fresh n hn
    · rintro rfl
      have hlt := (h.known _ t ht).1
      omega
  · intro R u hwaits hR
    rcases hm.source hR with ⟨rfl, -⟩ | ⟨hRP, -, hold⟩
    · exact absurd hwaits id
    · rw [count_ne _ (hother R u hRP hold)]
      exact h.waiting R u hwaits hold
  · intro a u hR
    rcases hm.source hR with ⟨-, hold⟩ | ⟨hRP, -, hold⟩
    · obtain rfl := Option.some.inj (hold.symm.trans ht)
      rw [count_self]
      omega
    · rw [count_ne _ (hother _ u hRP hold)]
      exact h.running a u hold
  · intro a u hR
    rcases hm.source hR with ⟨hended, -⟩ | ⟨-, -, hold⟩
    · cases hended
    · exact h.ended a u hold
  · intro n
    by_cases hn : n = t.id
    · rw [hn, count_self]
      omega
    · rw [count_ne _ hn]
      exact h.order n
  · intro n hret hdec
    obtain ⟨a, u, hu, hid⟩ := h.due n hret hdec
    refine ⟨a, u, ?_, hid⟩
    rw [hm.other _ (by simp) (by simp)]
    exact hu

theorem endedStep (h : TaskInv s) (hformed : ∀ a, Formed (s'.pc a)) {t : Task}
    (ht : taskAt s (.running f) = some t) (hnone : taskAt s (.ended f) = none)
    (hm : TaskMoved s s' (.running f) (.ended f))
    (hhist : s'.mem.hist = { s.mem.hist with
      returned := Hist.count s.mem.hist.returned t.id }) : TaskInv s' := by
  obtain ⟨hstarted, hnot⟩ := h.running f t ht
  have horder := h.order t.id
  have hother : ∀ P u, P ≠ .running f → taskAt s P = some u → u.id ≠ t.id := by
    intro P u hP hu hid
    exact hP (h.unique hu ht hid).1
  refine ⟨hformed, hm.linear h.linear, ?_, ?_, ?_, ?_, ?_, ?_, ?_⟩ <;> rw [hhist] <;> simp only
  · intro R u hR
    rcases hm.source hR with ⟨-, hold⟩ | ⟨-, -, hold⟩ <;> exact h.known _ u hold
  · exact h.fresh
  · intro R u hwaits hR
    rcases hm.source hR with ⟨rfl, -⟩ | ⟨-, -, hold⟩
    · exact absurd hwaits id
    · exact h.waiting R u hwaits hold
  · intro a u hR
    rcases hm.source hR with ⟨hrunning, -⟩ | ⟨hRP, -, hold⟩
    · cases hrunning
    · rw [count_ne _ (hother _ u hRP hold)]
      exact h.running a u hold
  · intro a u hR
    rcases hm.source hR with ⟨-, hold⟩ | ⟨hRP, -, hold⟩
    · obtain rfl := Option.some.inj (hold.symm.trans ht)
      rw [count_self]
      omega
    · rw [count_ne _ (hother _ u hRP hold)]
      exact h.ended a u hold
  · intro n
    by_cases hn : n = t.id
    · rw [hn, count_self]
      omega
    · rw [count_ne _ hn]
      exact h.order n
  · intro n hret hdec
    by_cases hn : n = t.id
    · exact ⟨f, t, hm.here.trans ht, hn.symm⟩
    · rw [count_ne _ hn] at hret
      obtain ⟨a, u, hu, hid⟩ := h.due n hret hdec
      have haf : a ≠ f := by
        rintro rfl
        rw [hnone] at hu
        cases hu
      refine ⟨a, u, ?_, hid⟩
      rw [hm.other _ (by simp) (by simpa using haf)]
      exact hu

theorem done (h : TaskInv s) (hformed : ∀ a, Formed (s'.pc a)) {t : Task}
    (ht : taskAt s (.ended f) = some t) (hgone : taskAt s' (.ended f) = none)
    (hrest : ∀ P, P ≠ .ended f → taskAt s' P = taskAt s P)
    (hhist : s'.mem.hist = { s.mem.hist with
      decremented := Hist.count s.mem.hist.decremented t.id }) : TaskInv s' := by
  obtain ⟨hreturned, hnot⟩ := h.ended f t ht
  have horder := h.order t.id
  have hsub : ∀ R u, taskAt s' R = some u → R ≠ .ended f ∧ taskAt s R = some u := by
    intro R u hR
    by_cases hRP : R = .ended f
    · rw [hRP, hgone] at hR
      cases hR
    · rw [hrest R hRP] at hR
      exact ⟨hRP, hR⟩
  refine ⟨hformed, h.linear.mono fun R u hR => (hsub R u hR).2, ?_, ?_, ?_, ?_, ?_, ?_, ?_⟩ <;>
    rw [hhist] <;> simp only
  · exact fun R u hR => h.known R u (hsub R u hR).2
  · exact h.fresh
  · exact fun R u hwaits hR => h.waiting R u hwaits (hsub R u hR).2
  · exact fun a u hR => h.running a u (hsub _ u hR).2
  · intro a u hR
    obtain ⟨hRP, hold⟩ := hsub _ u hR
    rw [count_ne]
    · exact h.ended a u hold
    · exact fun hid => hRP (h.unique hold ht hid).1
  · intro n
    by_cases hn : n = t.id
    · rw [hn, count_self]
      omega
    · rw [count_ne _ hn]
      exact h.order n
  · intro n hret hdec
    by_cases hn : n = t.id
    · rw [hn, count_self] at hdec
      omega
    · rw [count_ne _ hn] at hdec
      obtain ⟨a, u, hu, hid⟩ := h.due n hret hdec
      refine ⟨a, u, ?_, hid⟩
      rw [hrest]
      · exact hu
      · rintro heq
        rw [heq] at hu
        obtain rfl := Option.some.inj (hu.symm.trans ht)
        exact hn hid.symm

theorem step (h : TaskInv s) (hq : QueueInv s) (hs : Scheduler.step cfg s l = some s') :
    TaskInv s' := by
  obtain ⟨-, -, m', p', hx, rfl⟩ := step_eq_some.1 hs
  have hformed := formed_exec h.formed hx
  cases exec_taskStep hq h.formed hx with
  | same htask hpart =>
      simp only [taskPart, Prod.mk.injEq] at hpart
      obtain ⟨hnext, hinfo, hstarted, hreturned, hdecremented⟩ := hpart
      refine ⟨hformed, htask ▸ h.linear, ?_, ?_, ?_, ?_, ?_, ?_, ?_⟩ <;>
        simp only [htask, hnext, hinfo, hstarted, hreturned, hdecremented]
      · exact h.known
      · exact h.fresh
      · exact h.waiting
      · exact h.running
      · exact h.ended
      · exact h.order
      · exact h.due
  | announced inc num sync _ _ hnew hother hhist => exact h.announced hformed hnew hother hhist
  | queued n pos hm hpart => exact h.moved hformed hm trivial trivial hpart
  | dropped n hgone hother hpart =>
      exact h.dropped (P := .submitting (s.mem.running l.thread) n) hformed trivial hgone hother hpart
  | taken pos hm hpart => exact h.moved hformed hm trivial trivial hpart
  | begun t ht hm hhist => exact h.begun hformed ht hm hhist
  | ended t ht hnone hm hhist => exact h.endedStep hformed ht hnone hm hhist
  | done t ht hgone hother hhist => exact h.done hformed ht hgone hother hhist

theorem start (cfg : Config) : TaskInv (start cfg) := by
  have hpc : ∀ a, Formed ((Scheduler.start cfg).pc a) ∧
      taskRole ((Scheduler.start cfg).pc a) = (fun _ => none, none, none) := by
    intro a
    rw [start_pc]
    split
    · exact ⟨trivial, rfl⟩
    · split <;> exact ⟨trivial, rfl⟩
  have hnone : ∀ P, taskAt (Scheduler.start cfg) P = none := by
    intro P
    cases P with
    | submitting a n => exact congrFun (congrArg Prod.fst (hpc a).2) n
    | queued pos =>
        show Mpmc.entry _ pos = none
        unfold Mpmc.entry
        split
        · exact List.getElem?_nil
        · rfl
    | taken a =>
        show (takenTask ((Scheduler.start cfg).pc a)).bind _ = none
        rw [show takenTask ((Scheduler.start cfg).pc a) = none from
          congrArg (fun r => r.2.1) (hpc a).2]
        rfl
    | running a => rfl
    | ended a => exact congrArg (fun r => r.2.2) (hpc a).2
  constructor
  · exact fun a => (hpc a).1
  · intro P Q t hP
    rw [hnone] at hP
    cases hP
  · intro P t hP
    rw [hnone] at hP
    cases hP
  · exact fun n _ => rfl
  · intro P t _ hP
    rw [hnone] at hP
    cases hP
  · intro a t hP
    rw [hnone] at hP
    cases hP
  · intro a t hP
    rw [hnone] at hP
    cases hP
  · exact fun n => ⟨Nat.le_refl _, Nat.le_refl _, Nat.zero_le _⟩
  · intro n hret
    cases hret

end TaskInv

end Steps

end TaskDispatcher.Scheduler
