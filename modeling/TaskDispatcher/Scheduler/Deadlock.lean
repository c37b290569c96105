import TaskDispatcher.Scheduler.Deliveries
import TaskDispatcher.Scheduler.Joins
import TaskDispatcher.Scheduler.Placement
import TaskDispatcher.Scheduler.Refinement
import TaskDispatcher.Scheduler.Shutdown

/-!
# No deadlock

A program that waits for its syncs before its bodies end has work until its main task
ends: as long as every thread looks for a task, there is one to be found.  The argument
follows who waits for whom.  A suspended fiber waits for an unfinished task, what is
unfinished and not queued is executed by a suspended fiber, and it is a younger task.
-/

namespace TaskDispatcher.Scheduler

open TaskDispatcher.Library TaskDispatcher.Container

/-- What a thread goes round in while it finds nothing to do. -/
def idling : PC → Bool
  | .loop => true
  | .noTask => true
  | .eventWait => true
  | .getLock => true
  | .getPop => true
  | .getUnlock got => got.isNone
  | .resDeq pc => pc.claimed.isNone
  | .taskDeq pc => pc.claimed.isNone
  | _ => false

/-- The main task has not been launched, goes on, or has set the flag. -/
structure MainInv (cfg : Config) (s : State) : Prop where
  before : s.mem.primary = none →
    s.pc cfg.numFibers ≠ .done ∧ ∃ free, Unlaunched cfg free s
  goes : ∀ g, s.mem.primary = some g → s.mem.isShuttingDown = true ∨ s.mem.task g = none ∧
    (s.pc g = .entry ∧ (∃ i, i < cfg.numThreads ∧ s.mem.running i = g) ∨
      inBody (s.pc g) = true ∨ s.pc g = .shutDown)

/-- Calls are pinned to threads of the scheduler. -/
def PinnedHome (cfg : Config) (s : State) : Prop :=
  ∀ r w, s.mem.hist.call r = some w → ∀ t, w.pinned = some t → t < cfg.numThreads

structure WorkInv (own : Nat → Nat) (cfg : Config) (s : State) : Prop where
  race : Raceless own cfg s
  join : JoinInv own s
  body : BodyInv own s
  delivered : Delivered cfg s
  placed : PlacedInv s
  orderly : Orderly cfg s
  main : MainInv cfg s
  affine : AffinityInv cfg s
  home : PinnedHome cfg s

section Steps

variable {own : Nat → Nat} {cfg : Config} {s s' : State} {m m' : Mem} {i f : Nat} {ch : Choice}
  {p p' : PC} {l : Label}

/-! ## The main task -/

namespace MainInv

/-- The first thread launches the main task when it leaves its thread fiber. -/
theorem launching_step (h : MainInv cfg s) (hf : FiberInv cfg s) (hi : i < cfg.numThreads)
    (hx : exec cfg s.mem i (s.mem.running i) ch (s.pc (s.mem.running i)) = some (m', p'))
    (hnone : s.mem.primary = none) (hnone' : m'.primary = none) :
    (s.pc.set (s.mem.running i) p') cfg.numFibers ≠ .done := by
  intro hdone
  have hbefore := (h.before hnone).1
  by_cases hrun : cfg.numFibers = s.mem.running i
  · rw [hrun, Table.get_set_self] at hdone
    have hpos : 0 < cfg.numThreads := by omega
    rcases hf.thread 0 hpos with ⟨hthread, hat, -⟩ | hended
    · have hi0 : i = 0 := by
        apply hf.running_inj hi hpos
        rw [hat, ← hrun, Nat.add_zero]
      subst hi0
      rw [show cfg.numFibers + 0 = s.mem.running 0 from hrun] at hthread
      rcases hthread with ⟨pc, heq⟩ | ⟨g, heq⟩
      · rw [heq] at hx
        simp only [exec] at hx
        split at hx <;> cases hx <;> cases hdone
      · rw [heq] at hx
        cases hx
        cases hnone'
    · exact hbefore hended
  · rw [Table.get_set_ne _ _ hrun] at hdone
    exact hbefore hdone

/-- The fiber that the main task is launched on has not begun. -/
theorem launch_step (h : MainInv cfg s) (hbody : BodyInv own s) (hf : FiberInv cfg s)
    (hi : i < cfg.numThreads)
    (hx : exec cfg s.mem i (s.mem.running i) ch (s.pc (s.mem.running i)) = some (m', p'))
    (hnone : s.mem.primary = none) {g : Nat} (hg : m'.primary = some g) :
    m'.task g = none ∧ (s.pc.set (s.mem.running i) p') g = .entry ∧ m'.running i = g := by
  obtain ⟨free, hun⟩ := (h.before hnone).2
  rcases exec_primary hx with hsame | ⟨rfl, x, hp, hx'⟩
  · rw [hsame, hnone] at hg
    cases hg
  · rw [hx'] at hg
    cases hg
    have hhand : fiberAt cfg s (.hand (s.mem.running 0)) = some g := by
      show fiberHand _ (s.pc (s.mem.running 0)) = _
      rw [hp]
      rfl
    have hentry : s.pc g = .entry := by
      have hstarting := hun.starting g
      rcases switchedOut_of_hand hf hhand with heq | ⟨k, heq⟩
      · exact heq
      · rw [heq] at hstarting
        cases hstarting
    have hne : g ≠ s.mem.running 0 := by
      rintro rfl
      rw [hentry] at hp
      cases hp
    refine ⟨?_, (Table.get_set_ne _ _ hne).trans hentry, ?_⟩
    · rw [exec_task hx hne]
      exact (hbody.idle g (by rw [hentry]; rfl)).1
    · rw [hp] at hx
      cases hx
      show ((s.mem.tls.set 0 _) 0).running = g
      rw [Table.get_set_self]

/-- The main task goes on from its launch to the flag. -/
theorem goes_step (hi : i < cfg.numThreads) (hf : FiberInv cfg s)
    (hx : exec cfg s.mem i (s.mem.running i) ch (s.pc (s.mem.running i)) = some (m', p')) {g : Nat}
    (hg : s.mem.primary = some g) (htask : s.mem.task g = none)
    (hgoes : s.pc g = .entry ∧ (∃ i, i < cfg.numThreads ∧ s.mem.running i = g) ∨
      inBody (s.pc g) = true ∨ s.pc g = .shutDown) :
    m'.isShuttingDown = true ∨ m'.task g = none ∧
      ((s.pc.set (s.mem.running i) p') g = .entry ∧
          (∃ i, i < cfg.numThreads ∧ m'.running i = g) ∨
        inBody ((s.pc.set (s.mem.running i) p') g) = true ∨
        (s.pc.set (s.mem.running i) p') g = .shutDown) := by
  by_cases hgf : g = s.mem.running i
  · subst hgf
    rw [Table.get_set_self]
    cases exec_body hx with
    | stay hsame hentry hshut htasks _ =>
        right
        rw [htasks]
        refine ⟨htask, ?_⟩
        rcases hgoes with ⟨heq, -⟩ | hbody | heq
        · exact absurd heq hentry
        · exact Or.inr (Or.inl (hsame.trans hbody))
        · exact absurd heq hshut
    | main _ _ hp' htasks _ =>
        rw [htasks, hp']
        exact Or.inr ⟨htask, Or.inr (Or.inl rfl)⟩
    | worker _ hother _ _ _ => exact absurd hg hother
    | begun pc t hp _ _ _ =>
        rw [hp] at hgoes
        rcases hgoes with ⟨heq, -⟩ | hbody | heq
        · cases heq
        · cases hbody
        · cases heq
    | ended _ _ _ hends htasks _ _ =>
        rw [htasks, if_pos rfl]
        exact Or.inr ⟨rfl, Or.inr (Or.inr (hends htask))⟩
    | launch x hp _ _ _ _ =>
        rw [hp] at hgoes
        rcases hgoes with ⟨heq, -⟩ | hbody | heq
        · cases heq
        · cases hbody
        · cases heq
    | shut _ _ _ _ hflag => exact Or.inl hflag
  · right
    rw [exec_task hx hgf, Table.get_set_ne _ _ hgf]
    refine ⟨htask, hgoes.imp_left ?_⟩
    rintro ⟨hentry, j, hj, hrun⟩
    refine ⟨hentry, j, hj, ?_⟩
    by_cases hsw : switches (s.pc (s.mem.running i)) = true
    · rw [(running_switch hf hi hx hsw).1 j (by rintro rfl; exact hgf hrun.symm)]
      exact hrun
    · rw [running_frame hx (eq_false_of_ne_true hsw) j]
      exact hrun

theorem step (h : MainInv cfg s) (hrun : RunInv cfg s) (hbody : BodyInv own s)
    (ho : Orderly cfg s) (hs : Scheduler.step cfg s l = some s') : MainInv cfg s' := by
  have hstep := hs
  obtain ⟨-, hi, m', p', hx, rfl⟩ := step_eq_some.1 hs
  constructor
  · intro hnone'
    have hnone := primary_step hstep hnone'
    obtain ⟨free, hun⟩ := (h.before hnone).2
    exact ⟨h.launching_step hrun.fibers hi hx hnone hnone', free, hun.step hrun hstep hnone'⟩
  · intro g hg
    cases hprimary : s.mem.primary with
    | none =>
        obtain ⟨htask, hpc, hat⟩ := h.launch_step hbody hrun.fibers hi hx hprimary hg
        exact Or.inr ⟨htask, Or.inl ⟨hpc, l.thread, hi, hat⟩⟩
    | some x =>
        have hsame := ho.primary_step hrun.fibers hi hx hprimary
        replace hg : m'.primary = some g := hg
        rw [hsame] at hg
        cases hg
        cases hdown : s.mem.isShuttingDown with
        | true => exact Or.inl (exec_down_mono hx hdown)
        | false =>
            rcases h.goes g hprimary with hflag | ⟨htask, hgoes⟩
            · rw [hdown] at hflag
              cases hflag
            · exact goes_step hi hrun.fibers hx hprimary htask hgoes

theorem start (hcfg : cfg.Ok) (hthreads : 0 < cfg.numThreads) : MainInv cfg (start cfg) := by
  constructor
  · intro _
    refine ⟨?_, _, (Quiet.construct hcfg).unlaunched⟩
    rw [start_pc, if_neg (by omega), if_pos (by omega)]
    simp
  · intro g hg
    cases hg

end MainInv

/-! ## Where calls are pinned to -/

theorem PinnedHome.step (h : PinnedHome cfg s) (hs : Scheduler.step cfg s l = some s') :
    PinnedHome cfg s' := by
  obtain ⟨-, hi, m', p', hx, rfl⟩ := step_eq_some.1 hs
  intro r w hr t ht
  rcases call_back hx hr with hold | ⟨hp', -⟩
  · exact h r w hold t ht
  · subst hp'
    obtain ⟨-, -, -, -, -, hp⟩ := begin_owned hx
    rw [hp] at hx
    simp only [exec] at hx
    split at hx
    · obtain ⟨pinned, hpinned, -⟩ := begin_pinned hx
      rw [hpinned] at ht
      split at ht <;> cases ht
      exact hi
    · cases hx

/-- The queue of a thread holds fibers only if there is such a thread. -/
theorem thread_of_entry (ha : AffinityInv cfg s) (h : PinnedHome cfg s) {t k : Nat} {v : Wake}
    (hk : (s.mem.threads t).pinnedResumableFibers.entry k = some v) : t < cfg.numThreads := by
  have hmem : v ∈ (s.mem.threads t).pinnedResumableFibers.log := by
    unfold Fifo.entry at hk
    split at hk
    · exact List.mem_of_getElem? hk
    · cases hk
  obtain ⟨w, hw, hpinned⟩ := ha.pinned t v hmem
  exact h _ w hw t hpinned

namespace WorkInv

theorem step (h : WorkInv own cfg s) (hd : Disciplined own s l) (hends : Joining own s l)
    (hg : NoRace s l) (hdelivers : Delivers s l) (hs : Scheduler.step cfg s l = some s') :
    WorkInv own cfg s' := by
  have hrace := h.race
  refine
    { race := hrace.step hg.vacant
        (fun c x j v pos hp _ => hdelivers.resumable (.scan x j) v pos hp) hd hs
      join := h.join.step hrace hg.noStaleScan hd hs
      body := h.body.step hrace h.join hd hends hs
      delivered := h.delivered.step hrace hdelivers hs
      placed := h.placed.step hrace.run.queues hrace.task.task hs
      orderly := h.orderly.step hrace.run.fibers hs
      main := h.main.step hrace.run h.body h.orderly hs
      affine := ?_
      home := h.home.step hs }
  obtain ⟨-, hi, m', p', hx, rfl⟩ := step_eq_some.1 hs
  exact h.affine.exec hrace.wait hi hx

theorem start (hcfg : cfg.Ok) (hthreads : 0 < cfg.numThreads) : WorkInv own cfg (start cfg) where
  race := .start hcfg
  join := .start cfg
  body := .start cfg
  delivered := .start cfg
  placed := .start cfg
  orderly := .start
  main := .start hcfg hthreads
  affine := .start cfg
  home := fun r w hr => by cases hr

end WorkInv

/-! ## Nothing to do -/

/-- The agent looks for a task with nothing in its hands, or does not run. -/
def Idle (p : PC) : Prop := idling p = true ∨ Parked p

namespace Idle

variable (h : Idle p)

include h

theorem stance : stance p = none := by
  rcases h with hidle | hparked
  · cases p <;> first | rfl | cases hidle
  · exact hparked.stance

theorem hand (q : Mpmc Wake) : regHand q p = none := by
  rcases h with hidle | rfl | ⟨k, rfl⟩ | rfl
  · cases p with
    | getUnlock got =>
        rw [idling, Option.isNone_iff_eq_none] at hidle
        rw [hidle]
        rfl
    | resDeq pc =>
        rw [idling, Option.isNone_iff_eq_none] at hidle
        rw [regHand, hidle]
        rfl
    | _ => first | rfl | cases hidle
  · rfl
  · rfl
  · rfl

theorem role : (∀ n, waitingTask p n = none) ∧ takenTask p = none ∧ endedTask p = none ∧
    ¬ failing p := by
  rcases h with hidle | rfl | ⟨k, rfl⟩ | rfl
  · cases p with
    | taskDeq pc =>
        rw [idling, Option.isNone_iff_eq_none] at hidle
        refine ⟨fun _ => rfl, hidle, rfl, ?_⟩
        rintro ⟨sub, hsub, -⟩
        cases hsub
    | _ =>
        first
        | refine ⟨fun _ => rfl, rfl, rfl, ?_⟩
          rintro ⟨sub, hsub, -⟩
          cases hsub
        | cases hidle
  all_goals
    refine ⟨fun _ => rfl, rfl, rfl, ?_⟩
    rintro ⟨sub, hsub, -⟩
    cases hsub

theorem not_covers {c j : Nat} {v : Int} : ¬ covers c j v p := by
  intro hcovers
  rcases h with hidle | rfl | ⟨k, rfl⟩ | rfl
  · cases p <;> first | exact hcovers | cases hidle
  all_goals exact hcovers

theorem not_yieldTo {g : Nat} {k : YieldK} : p ≠ .yieldTo g k := by
  rintro rfl
  rcases h with hidle | heq | ⟨_, heq⟩ | heq
  · cases hidle
  all_goals cases heq

theorem suspended (hbody : inBody p = true) : ∃ w, p = .clean (.yielded (.wait w)) := by
  rcases h with hidle | rfl | ⟨k, rfl⟩ | rfl
  · cases p <;> first | (cases hidle; done) | cases hbody
  · cases hbody
  · cases k with
    | wait w => exact ⟨w, rfl⟩
    | resume src => cases hbody
  · cases hbody

end Idle

/-- Every thread looks for a task, and the queues are empty. -/
structure Stalled (cfg : Config) (s : State) : Prop where
  idles : ∀ i, i < cfg.numThreads → idling (s.pc (s.mem.running i)) = true
  tasks : ∀ pos, s.mem.tasks.entry pos = none
  resumable : ∀ pos, s.mem.resumableFibers.entry pos = none
  pinned : ∀ t k, (s.mem.threads t).pinnedResumableFibers.entry k = none
  runs : s.mem.panic = none

namespace WorkInv

variable (h : WorkInv own cfg s) (hstalled : Stalled cfg s)

include h hstalled

theorem idle (a : Nat) : Idle (s.pc a) := by
  rcases Nat.lt_or_ge a cfg.numFibers with hlt | hge
  · by_cases hruns : ∃ i, i < cfg.numThreads ∧ s.mem.running i = a
    · obtain ⟨i, hi, rfl⟩ := hruns
      exact Or.inl (hstalled.idles i hi)
    · right
      apply h.race.run.fibers.parked a hlt
      intro i hi hrun
      exact hruns ⟨i, hi, hrun⟩
  · rcases Nat.lt_or_ge a (cfg.numFibers + cfg.numThreads) with hlt | hout
    · have hi : a - cfg.numFibers < cfg.numThreads := by omega
      have heq : cfg.numFibers + (a - cfg.numFibers) = a := by omega
      rcases h.race.run.fibers.thread _ hi with ⟨-, hrun, -⟩ | hdone
      · left
        rw [← heq, ← hrun]
        exact hstalled.idles _ hi
      · rw [heq] at hdone
        exact Or.inr (Or.inr (Or.inr hdone))
    · exact Or.inr (Or.inr (Or.inr (h.race.run.outside a hout)))

theorem not_queued {P : RegPlace} {r : Nat} (hslot : ∀ c j, P ≠ .slot c j) : regAt s P ≠ some r := by
  intro hP
  cases P with
  | slot c j => exact hslot c j rfl
  | hand a =>
      rw [show regAt s (.hand a) = none from (h.idle hstalled a).hand _] at hP
      cases hP
  | resumable pos =>
      rw [regAt, hstalled.resumable pos] at hP
      cases hP
  | pinned t k =>
      rw [regAt, hstalled.pinned t k] at hP
      cases hP

/-- The registration of a suspended fiber has not been pushed to a queue. -/
theorem not_pushed {a : Nat} {w : WaitCall} (hw : s.pc a = .clean (.yielded (.wait w))) :
    s.mem.hist.pushes w.call = 0 := by
  by_contra hpushed
  have hsleeps : Sleeping cfg s a w := by
    refine Or.inr ⟨hw, fun i hi hrun => ?_⟩
    have hidles := hstalled.idles i hi
    rw [hrun, hw] at hidles
    cases hidles
  rcases h.delivered a w hsleeps hpushed with ⟨P, hP⟩ | ⟨b, src, hb⟩
  · by_cases hslot : ∃ c j, P = .slot c j
    · obtain ⟨c, j, rfl⟩ := hslot
      exact hpushed (h.race.pushes.held _ (Or.inr ⟨c, j, hP⟩)).1
    · exact h.not_queued hstalled (fun c j heq => hslot ⟨c, j, heq⟩) hP
  · exact (h.idle hstalled b).not_yieldTo hb

/-- It lies in a slot of its counter. -/
theorem in_slot {a : Nat} {w : WaitCall} (hw : s.pc a = .clean (.yielded (.wait w))) :
    ∃ j, (s.mem.slot w.counter j).token = some w.call := by
  have hphase : callPhase (s.pc a) = .suspended w := by
    rw [hw]
    rfl
  have hadded := h.race.wait.calls.suspended a w hphase
  obtain ⟨-, hrec, -⟩ := h.race.wait.calls.inside a w (by rw [hphase]; rfl)
  have hheld := (h.race.cover w.counter).located w hrec rfl (Or.inr (by rw [hadded]; simp))
    (h.not_pushed hstalled hw) (by rw [hadded]; simp)
  rcases hheld with ⟨b, j, q, hstance, -⟩ | hslot
  · rw [(h.idle hstalled b).stance] at hstance
    cases hstance
  · exact hslot

/-- Nobody is going to look at a slot, and so its target is not met. -/
theorem count_ne_zero {w : WaitCall} {j : Nat} (hrec : s.mem.hist.call w.call = some w)
    (hzero : w.target = 0) (htoken : (s.mem.slot w.counter j).token = some w.call) :
    (s.mem.counters w.counter).count ≠ 0 := by
  have hunused : (s.mem.slot w.counter j).inUse = false := by
    by_contra hused
    simp [WaitingFiber.token, hused] at htoken
  have hreg : (s.mem.slot w.counter j).reg = w.call := by
    simpa [WaitingFiber.token, hunused] using htoken
  have htarget : (s.mem.slot w.counter j).counterTarget = 0 := by
    obtain ⟨u, hu⟩ := (h.race.wait.slots w.counter).unused j hunused
    have hsame := hu.call
    rw [hreg, hrec] at hsame
    obtain rfl := Option.some.inj hsame
    exact hu.target.trans hzero
  intro hcount
  obtain ⟨b, hb⟩ := (h.race.cover w.counter).covered j hunused (htarget.trans hcount.symm)
  exact (h.idle hstalled b).not_covers hb

/-- A suspended fiber waits for an unfinished task on a handle of its own. -/
theorem unmet {a : Nat} {w : WaitCall} (hw : s.pc a = .clean (.yielded (.wait w))) :
    ∃ z k x n, own z = a ∧ s.mem.handles k = some x ∧ x.sync = some z ∧
      n ∈ unfinished s x.life := by
  have hcall : (callPhase (s.pc a)).call = some w := by
    rw [hw]
    rfl
  obtain ⟨z, k, x, hx⟩ := h.race.calls a w hcall
  obtain ⟨y, hy, -, hown⟩ := h.race.task.account.waits_of_call hcall
  rw [hx.named] at hy
  obtain rfl := Option.some.inj hy
  obtain ⟨-, hrec, -⟩ := h.race.wait.calls.inside a w hcall
  obtain ⟨j, htoken⟩ := h.in_slot hstalled hw
  have hne := h.count_ne_zero hstalled hrec hx.target htoken
  have hcount := h.race.task.ledger.count k x hx.live
  rw [hx.counter] at hcount
  obtain ⟨n, hn⟩ : (unfinished s x.life).Nonempty := by
    rw [← Finset.card_pos]
    omega
  exact ⟨z, k, x, n, hown, hx.live, hx.own, hn⟩

/-- An unfinished task is executed on some fiber. -/
theorem executed {n life : Nat} (hn : n ∈ unfinished s life) :
    ∃ b t, s.mem.task b = some t ∧ t.id = n := by
  obtain ⟨hlt, -, hzero⟩ := mem_unfinished.1 hn
  rcases h.placed.placed n hlt hzero with ⟨P, t, hP, hid⟩ | hpanicked | ⟨b, hb⟩
  · cases P with
    | submitting b k =>
        rw [show taskAt s (.submitting b k) = none from (h.idle hstalled b).role.1 k] at hP
        cases hP
    | queued pos =>
        rw [show taskAt s (.queued pos) = none from hstalled.tasks pos] at hP
        cases hP
    | taken b =>
        rw [taskAt, (h.idle hstalled b).role.2.1] at hP
        cases hP
    | running b => exact ⟨b, t, hP, hid⟩
    | ended b =>
        rw [show taskAt s (.ended b) = none from (h.idle hstalled b).role.2.2.1] at hP
        cases hP
  · rw [hstalled.runs] at hpanicked
    cases hpanicked
  · exact absurd hb (h.idle hstalled b).role.2.2.2

/-- The tasks that are executed wait for younger and younger ones. -/
theorem no_chain (d : Nat) :
    ∀ a t, s.mem.task a = some t → s.mem.hist.nextTask - t.id ≤ d → False := by
  induction d with
  | zero =>
      intro a t ht hle
      have hlt := (h.race.task.task.known (.running a) t ht).1
      omega
  | succ d ih =>
      intro a t ht hle
      have hbody : inBody (s.pc a) = true := by
        by_contra hnot
        rw [(h.body.idle a (eq_false_of_ne_true hnot)).1] at ht
        cases ht
      obtain ⟨w, hw⟩ := (h.idle hstalled a).suspended hbody
      obtain ⟨z, k, x, n, hown, hk, hz, hn⟩ := h.unmet hstalled hw
      obtain ⟨hlt, hlife, -⟩ := mem_unfinished.1 hn
      have holder := h.body.older k x z t hk hz (by rw [hown]; exact ht) n hlt hlife
      obtain ⟨b, u, hu, hid⟩ := h.executed hstalled hn
      apply ih b u hu
      omega

/-- A scheduler without work has been told to end. -/
theorem down (hthreads : 0 < cfg.numThreads) : s.mem.isShuttingDown = true := by
  cases hprimary : s.mem.primary with
  | none =>
      exfalso
      rcases h.race.run.fibers.thread 0 hthreads with ⟨hthread, hrun, -⟩ | hdone
      · have hidles := hstalled.idles 0 hthreads
        rw [hrun] at hidles
        rcases hthread with ⟨_, heq⟩ | ⟨_, heq⟩ <;> rw [heq] at hidles <;> cases hidles
      · exact (h.main.before hprimary).1 hdone
  | some g =>
      rcases h.main.goes g hprimary with hdown | ⟨-, hgoes⟩
      · exact hdown
      · exfalso
        rcases hgoes with ⟨hentry, i, hi, hrun⟩ | hbody | hshut
        · have hidles := hstalled.idles i hi
          rw [hrun, hentry] at hidles
          cases hidles
        · -- the main task is suspended, and so is whatever it waits for
          obtain ⟨w, hw⟩ := (h.idle hstalled g).suspended hbody
          obtain ⟨_, _, _, n, -, -, -, hn⟩ := h.unmet hstalled hw
          obtain ⟨b, u, hu, -⟩ := h.executed hstalled hn
          exact h.no_chain hstalled _ b u hu (le_refl _)
        · have hidle := h.idle hstalled g
          rw [hshut] at hidle
          rcases hidle with heq | heq | ⟨_, heq⟩ | heq <;> cases heq

end WorkInv

/-! ## The end of the main task -/

/-- Whatever was submitted is over, nobody waits, and nothing is queued. -/
structure Concluded (s : State) : Prop where
  tasks : ∀ n, n < s.mem.hist.nextTask → s.mem.hist.started n = 1 ∧ s.mem.hist.returned n = 1 ∧
    s.mem.hist.decremented n = 1
  syncs : ∀ z, s.mem.syncs z = none
  handles : ∀ k, s.mem.handles k = none
  queue : ∀ pos, s.mem.tasks.entry pos = none
  waits : ∀ P, regAt s P = none

theorem inBody_of_returns {z : Nat} (h : syncRole p = .returns z) : inBody p = true := by
  cases p with
  | idleDeq k pc => cases k <;> first | rfl | cases h
  | yieldTo g k => cases k <;> first | rfl | cases h
  | clean k => rcases k with _ | (_ | _) <;> first | rfl | cases h
  | idleEnq k v pc => rcases k with _ | (_ | _) <;> first | rfl | cases h
  | increment inc =>
      have hrole : inc.role = .returns z := h
      unfold Increment.role at hrole
      split at hrole <;> cases hrole
  | _ => first | rfl | cases h

theorem inBody_of_call {w : WaitCall} (h : (callPhase p).call = some w) : inBody p = true := by
  cases p with
  | idleDeq k pc => cases k <;> first | rfl | cases h
  | yieldTo g k => cases k <;> first | rfl | cases h
  | clean k => rcases k with _ | (_ | _) <;> first | rfl | cases h
  | idleEnq k v pc => rcases k with _ | (_ | _) <;> first | rfl | cases h
  | _ => first | rfl | cases h

namespace WorkInv

variable (h : WorkInv own cfg s) (hp : s.pc f = .body) (hmain : s.mem.task f = none)
  (hends : ∀ z, own z = f → s.mem.hist.unwaited z = false)

include h hp

/-- The syncs of the main task are null. -/
theorem main_null (hends : ∀ z, own z = f → s.mem.hist.unwaited z = false) {z : Nat}
    (hz : own z = f) : s.mem.syncs z = none := by
  rcases h.join.joined z (hends z hz) with hnull | hjoins
  · exact hnull
  · rw [hz, hp] at hjoins
    rcases hjoins with heq | ⟨_, heq⟩ | ⟨_, _, heq⟩ | heq <;> cases heq

include hmain

/-- Every other fiber that is in a body executes a task. -/
theorem others_task {a : Nat} (ha : a ≠ f) (hbody : inBody (s.pc a) = true) :
    ∃ t, s.mem.task a = some t := by
  by_contra hnone
  have hother := h.orderly.taskless a hbody
    (Option.eq_none_iff_forall_not_mem.2 fun t ht => hnone ⟨t, ht⟩)
  rw [h.orderly.taskless f (by rw [hp]; rfl) hmain] at hother
  exact ha (Option.some.inj hother).symm

include hends

/-- A live handle belongs to a fiber that executes a task older than those on it. -/
theorem owner_executes {k : Nat} {x : HandleContent} (hk : s.mem.handles k = some x) :
    ∃ b u, s.mem.task b = some u ∧ ∀ n, n < s.mem.hist.nextTask →
      (s.mem.hist.task n).life = x.life → u.id < n := by
  obtain ⟨z, hz, hsync⟩ := h.race.task.account.held k x hk
  have hown : own z ≠ f := by
    intro heq
    rw [h.main_null hp hends heq] at hsync
    cases hsync
  have hbody : inBody (s.pc (own z)) = true := by
    by_contra hnot
    rw [(h.body.idle _ (eq_false_of_ne_true hnot)).2 z rfl] at hsync
    cases hsync
  obtain ⟨u, hu⟩ := h.others_task hp hmain hown hbody
  exact ⟨own z, u, hu, fun n hn hlife => h.body.older k x z u hk hz hu n hn hlife⟩

/-- Every task that is executed was submitted by an older one, and so there is none. -/
theorem no_executed (d : Nat) : ∀ a t, s.mem.task a = some t → t.id ≤ d → False := by
  have hparent : ∀ a t, s.mem.task a = some t → ∃ b u, s.mem.task b = some u ∧ u.id < t.id := by
    intro a t ht
    have hlt := (h.race.task.task.known (.running a) t ht).1
    have hreturned := (h.race.task.task.running a t ht).2
    have horder := (h.race.task.task.order t.id).1
    obtain ⟨k, x, hk, -, hlife, -⟩ := h.race.task.ledger.live t.id hlt (by omega)
    obtain ⟨b, u, hu, holder⟩ := h.owner_executes hp hmain hends hk
    exact ⟨b, u, hu, holder t.id hlt hlife.symm⟩
  induction d with
  | zero =>
      intro a t ht hle
      obtain ⟨b, u, -, hlt⟩ := hparent a t ht
      omega
  | succ d ih =>
      intro a t ht hle
      obtain ⟨b, u, hu, hlt⟩ := hparent a t ht
      exact ih b u hu (by omega)

theorem no_handle (k : Nat) : s.mem.handles k = none := by
  by_contra hnot
  obtain ⟨x, hk⟩ := Option.ne_none_iff_exists'.1 hnot
  obtain ⟨b, u, hu, -⟩ := h.owner_executes hp hmain hends hk
  exact h.no_executed hp hmain hends u.id b u hu (le_refl _)

theorem all_done {n : Nat} (hn : n < s.mem.hist.nextTask) :
    s.mem.hist.started n = 1 ∧ s.mem.hist.returned n = 1 ∧ s.mem.hist.decremented n = 1 := by
  have hdone : s.mem.hist.decremented n ≠ 0 := by
    intro hzero
    obtain ⟨k, x, hk, -⟩ := h.race.task.ledger.live n hn hzero
    rw [h.no_handle hp hmain hends k] at hk
    cases hk
  have horder := h.race.task.task.order n
  omega

/-- No other fiber is in a body. -/
theorem others_idle {a : Nat} (ha : a ≠ f) : inBody (s.pc a) = false := by
  by_contra hbody
  obtain ⟨t, ht⟩ := h.others_task hp hmain ha (eq_true_of_ne_false hbody)
  exact h.no_executed hp hmain hends t.id a t ht (le_refl _)

theorem concluded : Concluded s := by
  constructor
  · intro n hn
    exact h.all_done hp hmain hends hn
  · intro z
    by_contra hnot
    obtain ⟨k, hk⟩ := Option.ne_none_iff_exists'.1 hnot
    rcases h.race.task.account.known z k hk with ⟨x, hx, -⟩ | hreturns
    · rw [h.no_handle hp hmain hends k] at hx
      cases hx
    · by_cases hown : own z = f
      · rw [hown, hp] at hreturns
        cases hreturns
      · have hidle := h.others_idle hp hmain hends hown
        rw [inBody_of_returns hreturns] at hidle
        cases hidle
  · exact h.no_handle hp hmain hends
  · intro pos
    by_contra hnot
    obtain ⟨t, ht⟩ := Option.ne_none_iff_exists'.1 hnot
    have hat : taskAt s (.queued pos) = some t := ht
    have hstarted := h.race.task.task.waiting (.queued pos) t trivial hat
    have hdone := (h.all_done hp hmain hends (h.race.task.task.known _ t hat).1).1
    omega
  · intro P
    by_contra hnot
    obtain ⟨r, hr⟩ := Option.ne_none_iff_exists'.1 hnot
    obtain ⟨w, -, hwaits⟩ := h.race.wait.regs.waits P r hr
    have hinside := hwaits.inside
    by_cases hw : w.fiber = f
    · rw [hw, hp] at hinside
      cases hinside
    · have hidle := h.others_idle hp hmain hends hw
      rw [inBody_of_call hinside] at hidle
      cases hidle

end WorkInv

end Steps

/-! ## Every run -/

section Runs

variable {own : Nat → Nat} {cfg : Config}

end Runs

/-! ## The condition computed -/

/-- Whether no sync is left to be waited for where a body of fiber `0` ends. -/
def joining (s : State) (l : Label) : Bool :=
  l.choice != .call .ret || s.mem.running l.thread != 0 ||
    s.mem.hist.unwaited.cells.all (· == false) && s.mem.hist.unwaited.rest == false

theorem Joining.of_joining {s : State} {l : Label} (h : joining s l = true) :
    Joining (fun _ => 0) s l := by
  intro _ hret sync hown
  unfold joining at h
  simp only [hret, bne_self_eq_false, Bool.false_or, Bool.or_eq_true, bne_iff_ne, ne_eq,
    Bool.and_eq_true, List.all_eq_true, beq_iff_eq] at h
  rcases h with hne | ⟨hcells, hrest⟩
  · exact absurd hown.symm hne
  · show Table.lookup _ _ sync = false
    rw [Table.lookup_eq_getD]
    cases hsync : s.mem.hist.unwaited.cells[sync]? with
    | none => exact hrest
    | some b => exact hcells b (List.mem_of_getElem? hsync)

section Return

variable {k : Nat}

end Return

end TaskDispatcher.Scheduler
