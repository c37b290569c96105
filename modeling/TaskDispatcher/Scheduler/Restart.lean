import TaskDispatcher.Scheduler.Startup

/-!
# Starting again

When all threads are joined no queue call is in progress, so the drains of the
shutdown empty the queues at whatever positions they have reached, and the next
`start` populates them as if they were new.
-/

namespace TaskDispatcher.Scheduler

open TaskDispatcher.Library TaskDispatcher.Container

/-- The agent that runs on each thread has come to its end. -/
def Joined (cfg : Config) (s : State) : Prop :=
  ∀ i, i < cfg.numThreads → s.pc (s.mem.running i) = .done

/-- Empty queues: the four drains at the end of `start`, `none` if one does not end. -/
def shutdown (m : Mem) : Option Mem := do
  let tasks ← m.tasks.drain (m.tasks.contents.length + 1)
  let idleFibers ← m.idleFibers.drain (m.idleFibers.contents.length + 1)
  let resumableFibers ← m.resumableFibers.drain (m.resumableFibers.contents.length + 1)
  let freeCounters ← m.freeCounters.drain (m.freeCounters.contents.length + 1)
  return { m with
    tasks := tasks
    idleFibers := idleFibers
    resumableFibers := resumableFibers
    freeCounters := freeCounters }

/-- The memory in which some call of `start` begins. -/
inductive Restarted (cfg : Config) : Mem → Prop where
  | first : Restarted cfg (construct cfg)
  | again {m m' : Mem} {σ : Nat → State} {ℓ : Nat → Label} {n : Nat} : Restarted cfg m →
      Run (step cfg) (startOn cfg m) σ ℓ n → Joined cfg (σ n) → shutdown (σ n).mem = some m' →
      Restarted cfg m'

section Joined

variable {cfg : Config} {s : State}

theorem Joined.atRest (hj : Joined cfg s) (h : RunInv cfg s) (a : Nat) : AtRest (s.pc a) := by
  have hdone : s.pc a = .done → AtRest (s.pc a) := by
    intro hd
    rw [hd]
    exact ⟨rfl, rfl, rfl, rfl⟩
  by_cases hrun : ∃ i, i < cfg.numThreads ∧ s.mem.running i = a
  · obtain ⟨i, hi, rfl⟩ := hrun
    exact hdone (hj i hi)
  · rcases Nat.lt_or_ge a cfg.numFibers with ha | ha
    · rcases h.fibers.parked a ha fun i hi heq => hrun ⟨i, hi, heq⟩ with he | ⟨k, he⟩ | he
      · rw [he]
        exact ⟨rfl, rfl, rfl, rfl⟩
      · rw [he]
        exact ⟨rfl, rfl, rfl, rfl⟩
      · exact hdone he
    · rcases Nat.lt_or_ge a (cfg.numFibers + cfg.numThreads) with ha' | ha'
      · have hi : a - cfg.numFibers < cfg.numThreads := by omega
        have hthread := h.fibers.thread (a - cfg.numFibers) hi
        rw [show cfg.numFibers + (a - cfg.numFibers) = a by omega] at hthread
        rcases hthread with ⟨-, hr, -⟩ | hd
        · exact absurd ⟨_, hi, hr⟩ hrun
        · exact hdone hd
      · exact hdone (h.outside a ha')

/-- The drains end with the queues empty and at rest. -/
theorem Joined.shutdown (hj : Joined cfg s) (h : RunInv cfg s) :
    ∃ m, shutdown s.mem = some m ∧ Quiet cfg m := by
  have hrest := hj.atRest h
  have htasks := h.queues.tasks.at_rest fun a => (hrest a).2.2.1
  have hidle := h.queues.idle.at_rest fun a => (hrest a).1
  have hres := h.queues.resumable.at_rest fun a => (hrest a).2.1
  have hfree := h.queues.free.at_rest fun a => (hrest a).2.2.2
  obtain ⟨tasks, ht, ht0, -, htinv⟩ := htasks.drain_rest (Nat.lt_succ_self _)
  obtain ⟨idle, hi, hi0, hisize, hiinv⟩ := hidle.drain_rest (Nat.lt_succ_self _)
  obtain ⟨res, hr, hr0, hrsize, hrinv⟩ := hres.drain_rest (Nat.lt_succ_self _)
  obtain ⟨free, hf, hf0, hfsize, hfinv⟩ := hfree.drain_rest (Nat.lt_succ_self _)
  refine ⟨{ s.mem with tasks := tasks, idleFibers := idle, resumableFibers := res, freeCounters := free },
    ?_, ?_⟩
  · simp only [Scheduler.shutdown, ht, hi, hr, hf]
    rfl
  · exact
      { idle := hiinv
        resumable := hrinv
        free := hfinv
        tasks := htinv
        idle_nil := hi0
        resumable_nil := hr0
        free_nil := hf0
        tasks_nil := ht0
        idle_size := hisize.trans h.sizes.idle
        resumable_size := hrsize.trans h.sizes.resumable
        free_size := hfsize.trans h.sizes.free }

theorem Restarted.quiet (hcfg : cfg.Ok) {m : Mem} (h : Restarted cfg m) : Quiet cfg m := by
  induction h with
  | first => exact .construct hcfg
  | again _ hrun hj hs ih =>
      obtain ⟨m, hm, hquiet⟩ := hj.shutdown (ih.run hrun (le_refl _)).1
      rw [hs] at hm
      obtain rfl := Option.some.inj hm
      exact hquiet

end Joined

/-! ## What every start finds and leaves -/

end TaskDispatcher.Scheduler
