import TaskDispatcher.Scheduler.Step
import TaskDispatcher.Container.MpmcRest

/-!
# The queues of the scheduler

Every step moves one agent, and that agent is in at most one call on at most one
of the four queues.  So each queue keeps the ring invariant over all agents.
-/

namespace TaskDispatcher.Scheduler

open TaskDispatcher.Library TaskDispatcher.Container

section Steps

variable {cfg : Config} {m m' : Mem} {i f : Nat} {ch : Choice} {p p' : PC} {s s' : State} {l : Label}

/-- The agent that runs on thread `i`. -/
def Mem.running (m : Mem) (i : Nat) : Nat := (m.tls i).running

theorem step_eq_some : step cfg s l = some s' ↔
    s.mem.panic = none ∧ l.thread < cfg.numThreads ∧ ∃ m' p',
      exec cfg s.mem l.thread (s.mem.running l.thread) l.choice (s.pc (s.mem.running l.thread)) =
        some (m', p') ∧ s' = ⟨m', s.pc.set (s.mem.running l.thread) p'⟩ := by
  simp only [step, Mem.running]
  split
  · rename_i hs
    simp only [Option.map_eq_some_iff, Prod.exists, hs, true_and]
    constructor
    · rintro ⟨m', p', h, rfl⟩
      exact ⟨m', p', h, rfl⟩
    · rintro ⟨m', p', h, rfl⟩
      exact ⟨m', p', h, rfl⟩
  · rename_i hs
    simp only [reduceCtorEq, false_iff]
    rintro ⟨h1, h2, -⟩
    exact hs ⟨h1, h2⟩

end Steps

/-! ## What the agents do, one aspect at a time -/

/-- One aspect of the program counters of all agents. -/
def roles {α : Type} (g : PC → α) (pc : Table PC) : Nat → α := fun a => g (pc a)

theorem roles_set {α : Type} (g : PC → α) (pc : Table PC) (f : Nat) (p : PC) :
    roles g (pc.set f p) = Function.update (roles g pc) f (g p) :=
  Table.comp_set g pc f p

theorem roles_set_of_eq {α : Type} {g : PC → α} {pc : Table PC} {f : Nat} {p : PC}
    (h : g p = g (pc f)) : roles g (pc.set f p) = roles g pc := by
  rw [roles_set, h]
  exact Function.update_eq_self f (roles g pc)

def idleCaller : PC → Caller Nat
  | .idleEnq _ v pc => .enqueue v pc
  | .idleDeq _ pc => .dequeue pc
  | _ => .idle

def resumableCaller : PC → Caller Wake
  | .resEnq _ v pc => .enqueue v pc
  | .resDeq pc => .dequeue pc
  | _ => .idle

def taskCaller : PC → Caller Task
  | .taskEnq _ t pc => .enqueue t pc
  | .taskDeq pc => .dequeue pc
  | _ => .idle

def freeCaller : PC → Caller Nat
  | .freeEnq _ c pc => .enqueue c pc
  | .freeDeq _ pc => .dequeue pc
  | _ => .idle

/-- A continuation starts every queue call at its first access. -/
def AtRest (p : PC) : Prop :=
  (idleCaller p).atRest = true ∧ (resumableCaller p).atRest = true ∧
    (taskCaller p).atRest = true ∧ (freeCaller p).atRest = true

theorem atRest_afterClean (k : CleanK) : AtRest (afterClean k) := by
  rcases k with _ | _ | (_ | _) <;> exact ⟨rfl, rfl, rfl, rfl⟩

theorem atRest_afterScan (k : ScanK) : AtRest (afterScan k) := by
  cases k <;> exact ⟨rfl, rfl, rfl, rfl⟩

theorem atRest_nextSlot (x : Scan) (j : Nat) : AtRest (nextSlot x j) := by
  unfold nextSlot
  split
  · exact ⟨rfl, rfl, rfl, rfl⟩
  · exact atRest_afterScan x.k

theorem atRest_afterPush (reg : Nat) (k : PushK) : AtRest (afterPush reg k) := by
  cases k <;> exact ⟨rfl, rfl, rfl, rfl⟩

section Moves

variable {cfg : Config} {m m' : Mem} {i f : Nat} {ch : Choice} {p p' : PC}

theorem exec_idle (h : exec cfg m i f ch p = some (m', p')) :
    Mpmc.Moves 0 m.idleFibers (idleCaller p) m'.idleFibers (idleCaller p') := by
  cases p with
  | idleEnq k v pc =>
      simp only [exec] at h
      split at h <;> rename_i hr <;> cases h
      · exact .enqueue _ rfl (.inl (by rw [hr]; rfl))
      · exact .enqueue _ rfl (.inr (by rw [hr]; exact ⟨rfl, (atRest_afterClean k).1⟩))
  | idleDeq k pc =>
      simp only [exec] at h
      split at h <;> rename_i hr
      · cases h
        exact .dequeue _ rfl (.inl (by rw [hr]; rfl))
      · cases h
        exact .dequeue _ rfl (.inr (by rw [hr]; exact ⟨rfl, rfl⟩))
      · split at h <;> cases h <;> exact .dequeue _ rfl (.inr (by rw [hr]; exact ⟨rfl, rfl⟩))
  | _ =>
      simp only [exec, userStep, afterWait, incrementStep, submitNext, afterRelease, cleanStep,
        pinStep] at h
      (repeat' split at h) <;> cases h <;> first
        | exact .rest rfl rfl
        | exact .rest rfl (atRest_afterClean _).1
        | exact .rest rfl (atRest_nextSlot _ _).1
        | exact .rest rfl (atRest_afterPush _ _).1

theorem exec_resumable (h : exec cfg m i f ch p = some (m', p')) :
    Mpmc.Moves 0 m.resumableFibers (resumableCaller p) m'.resumableFibers (resumableCaller p') := by
  cases p with
  | resEnq k v pc =>
      simp only [exec] at h
      split at h <;> rename_i hr <;> cases h
      · exact .enqueue _ rfl (.inl (by rw [hr]; rfl))
      · have hrest := (atRest_afterPush v.reg k).2.1
        split <;> exact .enqueue _ rfl (.inr (by rw [hr]; exact ⟨rfl, hrest⟩))
  | resDeq pc =>
      simp only [exec] at h
      split at h <;> rename_i hr <;> cases h
      · exact .dequeue _ rfl (.inl (by rw [hr]; rfl))
      · exact .dequeue _ rfl (.inr (by rw [hr]; exact ⟨rfl, rfl⟩))
      · exact .dequeue _ rfl (.inr (by rw [hr]; exact ⟨rfl, rfl⟩))
  | _ =>
      simp only [exec, userStep, afterWait, incrementStep, submitNext, afterRelease, cleanStep,
        pinStep] at h
      (repeat' split at h) <;> cases h <;> first
        | exact .rest rfl rfl
        | exact .rest rfl (atRest_afterClean _).2.1
        | exact .rest rfl (atRest_nextSlot _ _).2.1

theorem exec_tasks (h : exec cfg m i f ch p = some (m', p')) :
    Mpmc.Moves 0 m.tasks (taskCaller p) m'.tasks (taskCaller p') := by
  cases p with
  | taskEnq sub t pc =>
      simp only [exec, submitNext] at h
      split at h <;> rename_i hr
      · cases h
        exact .enqueue _ rfl (.inl (by rw [hr]; rfl))
      · (repeat' split at h) <;> cases h <;>
          exact .enqueue _ rfl (.inr (by rw [hr]; exact ⟨rfl, rfl⟩))
  | taskDeq pc =>
      simp only [exec] at h
      split at h <;> rename_i hr <;> cases h
      · exact .dequeue _ rfl (.inl (by rw [hr]; rfl))
      · exact .dequeue _ rfl (.inr (by rw [hr]; exact ⟨rfl, rfl⟩))
      · exact .dequeue _ rfl (.inr (by rw [hr]; exact ⟨rfl, rfl⟩))
  | _ =>
      simp only [exec, userStep, afterWait, incrementStep, afterRelease, cleanStep,
        pinStep] at h
      (repeat' split at h) <;> cases h <;> first
        | exact .rest rfl rfl
        | exact .rest rfl (atRest_afterClean _).2.2.1
        | exact .rest rfl (atRest_nextSlot _ _).2.2.1
        | exact .rest rfl (atRest_afterPush _ _).2.2.1

theorem exec_free (h : exec cfg m i f ch p = some (m', p')) :
    Mpmc.Moves 0 m.freeCounters (freeCaller p) m'.freeCounters (freeCaller p') := by
  cases p with
  | freeEnq k c pc =>
      simp only [exec, afterRelease] at h
      split at h <;> rename_i hr
      · cases h
        exact .enqueue _ rfl (.inl (by rw [hr]; rfl))
      · (repeat' split at h) <;> cases h <;>
          exact .enqueue _ rfl (.inr (by rw [hr]; exact ⟨rfl, rfl⟩))
  | freeDeq k pc =>
      simp only [exec] at h
      split at h <;> rename_i hr <;> cases h
      · exact .dequeue _ rfl (.inl (by rw [hr]; rfl))
      · exact .dequeue _ rfl (.inr (by rw [hr]; exact ⟨rfl, rfl⟩))
      · exact .dequeue _ rfl (.inr (by rw [hr]; exact ⟨rfl, rfl⟩))
  | _ =>
      simp only [exec, userStep, afterWait, incrementStep, submitNext, afterRelease, cleanStep,
        pinStep] at h
      (repeat' split at h) <;> cases h <;> first
        | exact .rest rfl rfl
        | exact .rest rfl (atRest_afterClean _).2.2.2
        | exact .rest rfl (atRest_nextSlot _ _).2.2.2
        | exact .rest rfl (atRest_afterPush _ _).2.2.2

end Moves

section Rings

variable {cfg : Config} {m m' : Mem} {i : Nat} {ch : Choice} {p p' : PC}

/-! ## The queues of pinned fibers -/

theorem maxWaiting_capacity : Fifo.Capacity maxWaiting := ⟨by decide, by decide⟩

/-- What an access does to the ring of thread `t`. -/
inductive RingMove (q : Fifo Wake) : Fifo Wake → Prop where
  | same : RingMove q q
  | push (v : Wake) : RingMove q (q.enqueue maxWaiting v)
  | pop : RingMove q (q.dequeue maxWaiting).2

theorem RingMove.ok {q q' : Fifo Wake} (h : RingMove q q') (hq : Fifo.Ok maxWaiting q) :
    Fifo.Ok maxWaiting q' := by
  cases h with
  | same => exact hq
  | push v => exact hq.enqueue maxWaiting_capacity v
  | pop =>
      rcases hq.dequeue maxWaiting_capacity with ⟨-, hd⟩ | ⟨v, -, -, -, -, hok⟩
      · rw [hd]
        exact hq
      · exact hok

theorem ringMove_set (th : WorkerThread) (j t : Nat)
    (h : RingMove (m.threads j).pinnedResumableFibers th.pinnedResumableFibers) :
    RingMove (m.threads t).pinnedResumableFibers
      ((m.threads.set j th) t).pinnedResumableFibers := by
  rw [Table.get_set]
  split
  · rename_i htj
    rw [htj]
    exact h
  · exact .same

theorem exec_ring {f : Nat} (hx : exec cfg m i f ch p = some (m', p')) (t : Nat) :
    RingMove (m.threads t).pinnedResumableFibers (m'.threads t).pinnedResumableFibers := by
  cases p with
  | getLock =>
      simp only [exec] at hx
      split at hx <;> cases hx
      · exact .same
      · exact ringMove_set _ i t .same
  | getPop =>
      cases hx
      exact ringMove_set _ i t .pop
  | getUnlock got =>
      cases hx
      exact ringMove_set _ i t .same
  | reLock v =>
      simp only [exec] at hx
      split at hx <;> cases hx
      · exact .same
      · exact ringMove_set _ i t .same
  | rePush v =>
      cases hx
      exact ringMove_set _ i t (.push v)
  | reUnlock =>
      cases hx
      exact ringMove_set _ i t .same
  | pin x j reg th pc =>
      cases pc with
      | lock =>
          simp only [exec, pinStep] at hx
          split at hx <;> cases hx
          · exact .same
          · exact ringMove_set _ th t .same
      | push =>
          cases hx
          exact ringMove_set _ th t (.push _)
      | unlock =>
          cases hx
          exact ringMove_set _ th t .same
  | _ =>
      simp only [exec, userStep, beginWait, afterWait, incrementStep, submitNext, afterRelease,
        cleanStep] at hx
      (repeat' split at hx) <;> cases hx <;> exact .same

end Rings

/-! ## All queues -/

/-- The ring invariant of each queue over all agents. -/
structure QueueInv (s : State) : Prop where
  idle : Mpmc.Inv s.mem.idleFibers (roles idleCaller s.pc)
  resumable : Mpmc.Inv s.mem.resumableFibers (roles resumableCaller s.pc)
  tasks : Mpmc.Inv s.mem.tasks (roles taskCaller s.pc)
  free : Mpmc.Inv s.mem.freeCounters (roles freeCaller s.pc)
  pinned : ∀ t, Fifo.Ok maxWaiting (s.mem.threads t).pinnedResumableFibers

theorem QueueInv.step {cfg : Config} {s s' : State} {l : Label} (h : QueueInv s)
    (hs : step cfg s l = some s') : QueueInv s' := by
  obtain ⟨-, -, m', p', hx, rfl⟩ := step_eq_some.1 hs
  have hidle := h.idle.moves (.inl rfl) (exec_idle hx)
  have hres := h.resumable.moves (.inl rfl) (exec_resumable hx)
  have htasks := h.tasks.moves (.inl rfl) (exec_tasks hx)
  have hfree := h.free.moves (.inl rfl) (exec_free hx)
  rw [← roles_set] at hidle hres htasks hfree
  exact ⟨hidle, hres, htasks, hfree, fun t => (exec_ring hx t).ok (h.pinned t)⟩

/-! ## The initial state -/

/-- What `scheduler_config::is_valid` and the constructor of `MPMCQueue` check. -/
structure Config.Ok (cfg : Config) : Prop where
  fibers : ∃ k, 1 ≤ k ∧ cfg.numFibers = 2 ^ k
  counters : ∃ k, 1 ≤ k ∧ cfg.maxNumCounters = 2 ^ k
  tasks : ∃ k, 1 ≤ k ∧ cfg.maxNumTasks = 2 ^ k

/-- A scheduler with one thread and pools of size two. -/
def smallConfig : Config where
  numFibers := 2
  numThreads := 1
  maxNumCounters := 2
  maxNumTasks := 2

theorem smallConfig_ok : smallConfig.Ok :=
  ⟨⟨1, by decide, rfl⟩, ⟨1, by decide, rfl⟩, ⟨1, by decide, rfl⟩⟩

/-- A scheduler with two threads. -/
def pairConfig : Config where
  numFibers := 4
  numThreads := 2
  maxNumCounters := 2
  maxNumTasks := 4

theorem pairConfig_ok : pairConfig.Ok :=
  ⟨⟨2, by decide, rfl⟩, ⟨1, by decide, rfl⟩, ⟨2, by decide, rfl⟩⟩

theorem start_pc (cfg : Config) (a : Nat) :
    (start cfg).pc a = if a < cfg.numFibers then .entry
      else if a < cfg.numFibers + cfg.numThreads then .idleDeq .start .load else .done := by
  show Table.lookup PC.done (List.replicate cfg.numFibers PC.entry ++
    List.replicate cfg.numThreads (PC.idleDeq .start .load)) a = _
  rw [Table.lookup_eq_getD, List.getElem?_append, List.length_replicate]
  split
  · rename_i ha
    simp [ha]
  · rename_i ha
    rw [List.getElem?_replicate]
    by_cases hb : a < cfg.numFibers + cfg.numThreads
    · simp [hb, show a - cfg.numFibers < cfg.numThreads by omega]
    · simp [hb, show ¬ a - cfg.numFibers < cfg.numThreads by omega]

theorem start_atRest (cfg : Config) (a : Nat) : AtRest ((start cfg).pc a) := by
  rw [start_pc]
  split
  · exact ⟨rfl, rfl, rfl, rfl⟩
  · split <;> exact ⟨rfl, rfl, rfl, rfl⟩

theorem QueueInv.start {cfg : Config} (hcfg : cfg.Ok) : QueueInv (start cfg) := by
  obtain ⟨⟨k, hk, hfibers⟩, ⟨j, hj, hcounters⟩, ⟨n, hn, htasks⟩⟩ := hcfg
  refine ⟨?_, ?_, ?_, ?_, fun t => .new _ _⟩
  · have h := (Mpmc.Inv.populate (A := Unit) hk 0 (le_refl (2 ^ k))).1
    rw [← hfibers] at h
    exact h.of_rest fun a => (start_atRest cfg a).1
  · have h := Mpmc.Inv.new (A := Unit) hk ({ fiber := 0, reg := 0 } : Wake)
    rw [← hfibers] at h
    exact h.of_rest fun a => (start_atRest cfg a).2.1
  · have h := Mpmc.Inv.new (A := Unit) hn ({ metadata := 0, id := 0, life := 0 } : Task)
    rw [← htasks] at h
    exact h.of_rest fun a => (start_atRest cfg a).2.2.1
  · have h := (Mpmc.Inv.populate (A := Unit) hj 0 (le_refl (2 ^ j))).1
    rw [← hcounters] at h
    exact h.of_rest fun a => (start_atRest cfg a).2.2.2

end TaskDispatcher.Scheduler
