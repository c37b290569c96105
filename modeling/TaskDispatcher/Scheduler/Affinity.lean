import TaskDispatcher.Scheduler.Resolution
import TaskDispatcher.Scheduler.Pinned

/-!
# Pinned waits

The thread of a pinned call is in its slot and decides which queue its fiber is
pushed to, and only the thread of a queue takes anything out of it.  An entry is
never used for another call than its own, so a pinned call returns where it was
made.
-/

namespace TaskDispatcher.Scheduler

open TaskDispatcher.Library TaskDispatcher.Container

/-- The registration belongs to a call that is pinned to `o`. -/
def BoundTo (hist : Hist) (r : Nat) (o : Option Nat) : Prop :=
  ∃ w, hist.call r = some w ∧ w.pinned = o

/-- A registration on its way, and the thread that may resume its fiber. -/
def carries : PC → Option (Nat × Option Nat)
  | .scan _ _ (.fiber reg) => some (reg, none)
  | .resEnq _ v _ => some (v.reg, none)
  | .tryResume .global v => some (v.reg, none)
  | .pin _ _ reg t .lock => some (reg, some t)
  | .pin _ _ reg t .push => some (reg, some t)
  | _ => none

/-- The entry an agent has taken from its thread's queue. -/
def poppedWake : PC → Option Wake
  | .getUnlock got => got
  | .tryResume .pinned v => some v
  | .reLock v => some v
  | .rePush v => some v
  | _ => none

structure AffinityInv (cfg : Config) (s : State) : Prop where
  resumable : ∀ v, v ∈ s.mem.resumableFibers.log → BoundTo s.mem.hist v.reg none
  pinned : ∀ t v, v ∈ (s.mem.threads t).pinnedResumableFibers.log →
    BoundTo s.mem.hist v.reg (some t)
  carried : ∀ a r o, carries (s.pc a) = some (r, o) → BoundTo s.mem.hist r o
  popped : ∀ i, i < cfg.numThreads → ∀ v, poppedWake (s.pc (s.mem.running i)) = some v →
    BoundTo s.mem.hist v.reg (some i)
  home : ∀ i, i < cfg.numThreads → ∀ w, (callPhase (s.pc (s.mem.running i))).call = some w →
    w.pinned = none ∨ w.pinned = some i
  resumed : ∀ i, i < cfg.numThreads → ∀ g src, s.pc (s.mem.running i) = .yieldTo g (.resume src) →
    ∀ w, callPhase (s.pc g) = .suspended w → w.pinned = none ∨ w.pinned = some i

section Steps

variable {cfg : Config} {s : State} {m m' : Mem} {i f : Nat} {ch : Choice} {p p' : PC}

theorem BoundTo.mono {hist hist' : Hist} {r : Nat} {o : Option Nat} (h : BoundTo hist r o)
    (hcall : ∀ r w, hist.call r = some w → hist'.call r = some w) : BoundTo hist' r o := by
  obtain ⟨w, hw, ho⟩ := h
  exact ⟨w, hcall r w hw, ho⟩

/-- What a claimed slot says about its registration. -/
theorem boundTo_of_stance (h : SlotInv c s) {a j reg : Nat} {found : Option Int} {pushed : Bool}
    (ha : stance (s.pc a) = some ((c, j), .hold reg found pushed)) :
    (s.mem.slot c j).reg = reg ∧ BoundTo s.mem.hist reg (s.mem.slot c j).pinnedThreadIndex := by
  obtain ⟨⟨⟨w, hw⟩, hreg, -⟩, -⟩ := h.fits a j _ ha
  exact ⟨hreg, w, hreg ▸ hw.call, hw.pinned.symm⟩

theorem carries_nextSlot (x : Scan) (j : Nat) : carries (nextSlot x j) = none := by
  unfold nextSlot
  split
  · rfl
  · cases x.k <;> rfl

theorem carries_afterClean (k : CleanK) : carries (afterClean k) = none := by
  rcases k with _ | _ | (_ | _) <;> rfl

theorem carries_afterPush (reg : Nat) (k : PushK) : carries (afterPush reg k) = none := by
  cases k <;> rfl

/-- An agent carries a registration to where its slot or its queue says. -/
theorem carried_step (h : AffinityInv cfg s) (hs : ∀ c, SlotInv c s) (hq : QueueInv s)
    (hx : exec cfg s.mem i f ch (s.pc f) = some (m', p')) {r : Nat} {o : Option Nat}
    (hr : carries p' = some (r, o)) : BoundTo s.mem.hist r o := by
  have hkeep := h.carried f
  obtain ⟨p, hp⟩ : ∃ p, s.pc f = p := ⟨_, rfl⟩
  have hfits : ∀ x j reg, p = .scan x j (.pinned reg) ∨ p = .scan x j (.fiber reg) →
      (s.mem.slot x.counter j).reg = reg ∧
        BoundTo s.mem.hist reg (s.mem.slot x.counter j).pinnedThreadIndex := by
    rintro x j reg (rfl | rfl) <;>
      exact boundTo_of_stance (hs x.counter) (by rw [hp]; rfl)
  rw [hp] at hx hkeep
  cases p with
  | scan x j pc =>
      obtain ⟨a, n, hmove, -, rfl⟩ := exec_scan hx
      cases hmove with
      | @unpinned reg hnone =>
          cases hr
          obtain ⟨-, hbound⟩ := hfits x j _ (Or.inl rfl)
          rwa [show (s.mem.slot x.counter j).pinnedThreadIndex = none from hnone] at hbound
      | @pinned reg t hthread =>
          cases hr
          obtain ⟨-, hbound⟩ := hfits x j _ (Or.inl rfl)
          rwa [show (s.mem.slot x.counter j).pinnedThreadIndex = some t from hthread] at hbound
      | @fiber reg =>
          cases hr
          obtain ⟨hreg, -⟩ := hfits x j _ (Or.inr rfl)
          rw [show ((s.mem.counters x.counter).slot j).reg = reg from hreg]
          exact hkeep reg none rfl
      | _ =>
          simp only [scanNext, carries_nextSlot] at hr
          cases hr
  | add w j pc =>
      obtain ⟨a, n, -, -, rfl⟩ := exec_add hx
      rcases n with _ | (_ | _) | _ <;> cases hr
  | pin x j reg t pc =>
      cases pc with
      | lock =>
          simp only [exec, pinStep] at hx
          split at hx <;> cases hx <;> exact hkeep r o hr
      | push =>
          cases hx
          cases hr
      | unlock =>
          cases hx
          cases hr
  | resEnq k v pc =>
      simp only [exec] at hx
      split at hx <;> cases hx
      · exact hkeep r o hr
      · rw [carries_afterPush] at hr
        cases hr
  | tryResume src v =>
      simp only [exec] at hx
      split at hx
      · cases hx
        cases hr
      · split at hx <;> cases hx
        · cases hr
        · exact hkeep r o hr
  | resDeq pc =>
      have heffect := Mpmc.dequeueStep_effect s.mem.resumableFibers (ch = .spurious) pc
      simp only [exec] at hx
      split at hx <;> rename_i hres <;> cases hx
      · cases hr
      · cases hr
      · cases hr
        rw [hres] at heffect
        cases heffect with
        | @done pos _ hpub _ _ =>
            have hok := hq.resumable.ok f
            simp only [roles, hp, resumableCaller, hpub, Mpmc.CallerOk] at hok
            refine h.resumable _ (List.mem_of_getElem? (i := pos) ?_)
            rw [hok.2.2.2.1, hok.2.2.2.2]
  | clean k =>
      simp only [exec, cleanStep] at hx
      split at hx <;> cases hx
      · rw [carries_afterClean] at hr
        cases hr
      · cases hr
      · rw [carries_afterClean] at hr
        cases hr
  | idleEnq k v pc =>
      simp only [exec] at hx
      split at hx <;> cases hx
      · cases hr
      · rw [carries_afterClean] at hr
        cases hr
  | getUnlock got =>
      cases hx
      cases got <;> cases hr
  | _ =>
      simp only [exec, userStep, beginWait, afterWait, incrementStep, submitNext, afterRelease,
        submitTasks, enqueueNext] at hx
      (repeat' split at hx) <;> cases hx <;> cases hr

/-- An agent that has an entry of its thread's queue has just taken it out, or had it. -/
theorem popped_step (h : AffinityInv cfg s) (hq : QueueInv s)
    (hkeep : ∀ v, poppedWake (s.pc f) = some v → BoundTo s.mem.hist v.reg (some i))
    (hx : exec cfg s.mem i f ch (s.pc f) = some (m', p')) {v : Wake}
    (hv : poppedWake p' = some v) : BoundTo s.mem.hist v.reg (some i) := by
  obtain ⟨p, hp⟩ : ∃ p, s.pc f = p := ⟨_, rfl⟩
  rw [hp] at hx hkeep
  cases p with
  | getPop =>
      cases hx
      rcases (hq.pinned i).dequeue maxWaiting_capacity with ⟨-, hd⟩ | ⟨u, hu, hout, -, -, -⟩
      · rw [hd] at hv
        cases hv
      · rw [hout] at hv
        cases hv
        exact h.pinned i v (List.mem_of_getElem? hu)
  | getUnlock got =>
      cases hx
      cases got with
      | none => cases hv
      | some u => exact hkeep v hv
  | tryResume src u =>
      simp only [exec] at hx
      split at hx
      · cases hx
        cases hv
      · split at hx <;> cases hx
        · exact hkeep v hv
        · cases hv
  | reLock u =>
      simp only [exec] at hx
      split at hx <;> cases hx <;> exact hkeep v hv
  | scan x j pc =>
      obtain ⟨a, n, -, -, rfl⟩ := exec_scan hx
      cases n with
      | skip =>
          simp only [scanNext, nextSlot] at hv
          split at hv
          · cases hv
          · cases hk : x.k <;> rw [hk] at hv <;> cases hv
      | _ => cases hv
  | add w j pc =>
      obtain ⟨a, n, -, -, rfl⟩ := exec_add hx
      rcases n with _ | (_ | _) | _ <;> cases hv
  | clean k =>
      simp only [exec, cleanStep] at hx
      rcases k with _ | _ | (_ | _) <;> split at hx <;> cases hx <;> cases hv
  | idleEnq k u pc =>
      simp only [exec] at hx
      rcases k with _ | _ | (_ | _) <;> split at hx <;> cases hx <;> cases hv
  | resEnq k u pc =>
      simp only [exec] at hx
      cases k <;> split at hx <;> cases hx <;> cases hv
  | _ =>
      simp only [exec, userStep, beginWait, afterWait, incrementStep, submitNext, afterRelease,
        pinStep, submitTasks, enqueueNext] at hx
      (repeat' split at hx) <;> cases hx <;> cases hv

/-- A call is pinned to the thread it is made on, or to none. -/
theorem begin_pinned {u : UserCall} {w : WaitCall} (hx : userStep m i f u = some (m', .waitStore w)) :
    ∃ pinned : Bool, w.pinned = (if pinned then some i else none) ∧
      ((∃ h target, u = .waitOn h pinned target) ∨ ∃ sync, u = .waitFor sync pinned) := by
  cases u with
  | waitOn h pinned target =>
      simp only [userStep, beginWait] at hx
      split at hx
      · split at hx <;> cases hx
        exact ⟨pinned, rfl, Or.inl ⟨h, target, rfl⟩⟩
      · cases hx
  | waitFor sync pinned =>
      simp only [userStep, beginWait] at hx
      split at hx
      · cases hx
      · split at hx <;> cases hx
        exact ⟨pinned, rfl, Or.inr ⟨sync, rfl⟩⟩
  | _ =>
      simp only [userStep, submitTasks] at hx
      (repeat' split at hx) <;> cases hx

/-- What runs on the thread after a switch has nothing of its queue in hand. -/
theorem popped_switchedOut (h : SwitchedOut p ∨ p = .done) :
    poppedWake p = none ∧ ∀ g k, p ≠ .yieldTo g k := by
  rcases h with (rfl | ⟨k, rfl⟩) | rfl <;> exact ⟨rfl, by simp⟩

namespace AffinityInv

theorem exec (h : AffinityInv cfg s) (hw : WaitInv cfg s) (hi : i < cfg.numThreads)
    (hx : exec cfg s.mem i (s.mem.running i) ch (s.pc (s.mem.running i)) = some (m', p')) :
    AffinityInv cfg ⟨m', s.pc.set (s.mem.running i) p'⟩ := by
  have hf := hw.fibers
  have hq := hw.queues
  have hcall : ∀ r w, s.mem.hist.call r = some w → m'.hist.call r = some w :=
    fun r w => hw.calls.call_mono (exec_call hx)
  have hframe : switches (s.pc (s.mem.running i)) = false → m'.running i = s.mem.running i :=
    fun hsw => running_frame hx hsw i
  -- a thread other than the one that steps runs on undisturbed
  have hother : ∀ j, j < cfg.numThreads → j ≠ i → m'.running j = s.mem.running j ∧
      (s.pc.set (s.mem.running i) p') (m'.running j) = s.pc (s.mem.running j) := by
    intro j hj hji
    have hrun : m'.running j = s.mem.running j := by
      by_cases hsw : switches (s.pc (s.mem.running i)) = true
      · exact (running_switch hf hi hx hsw).1 j hji
      · exact running_frame hx (by simpa using hsw) j
    have hne : s.mem.running j ≠ s.mem.running i := fun heq => hji (hf.running_inj hj hi heq)
    exact ⟨hrun, by rw [hrun, Table.get_set_ne _ _ hne]⟩
  constructor
  · intro v hv
    rcases mem_log_resumable hx hv with hold | ⟨k, pc, hp⟩
    · exact (h.resumable v hold).mono hcall
    · exact (h.carried (s.mem.running i) v.reg none (by rw [hp]; rfl)).mono hcall
  · intro t v hv
    rcases mem_log_pinned hq.pinned hx hv with hold | ⟨rfl, hp⟩ | ⟨x, j, reg, hp, rfl⟩
    · exact (h.pinned t v hold).mono hcall
    · exact (h.popped t hi v (by rw [hp]; rfl)).mono hcall
    · have hreg := (boundTo_of_stance (hw.slots x.counter) (a := s.mem.running i) (j := j)
        (by rw [hp]; rfl)).1
      have hbound := h.carried (s.mem.running i) reg (some t) (by rw [hp]; rfl)
      exact BoundTo.mono (by rw [← hreg] at hbound; exact hbound) hcall
  · intro a r o hr
    replace hr : carries ((s.pc.set (s.mem.running i) p') a) = some (r, o) := hr
    rw [Table.get_set] at hr
    split at hr
    · exact (carried_step h hw.slots hq hx hr).mono hcall
    · exact (h.carried a r o hr).mono hcall
  · intro j hj v hv
    replace hv : poppedWake ((s.pc.set (s.mem.running i) p') (m'.running j)) = some v := hv
    by_cases hji : j = i
    · subst hji
      by_cases hsw : switches (s.pc (s.mem.running j)) = true
      · rw [(popped_switchedOut (running_switch hf hj hx hsw).2).1] at hv
        cases hv
      · rw [hframe (by simpa using hsw), Table.get_set_self] at hv
        exact (popped_step h hq (h.popped j hj) hx hv).mono hcall
    · rw [(hother j hj hji).2] at hv
      exact (h.popped j hj v hv).mono hcall
  · intro j hj w hphase
    replace hphase : (callPhase ((s.pc.set (s.mem.running i) p') (m'.running j))).call = some w :=
      hphase
    by_cases hji : j = i
    · subst hji
      by_cases hsw : switches (s.pc (s.mem.running j)) = true
      · rcases switched_call hf hj hx hsw with hnone | ⟨src, hp, hsame⟩
        · rw [hnone] at hphase
          cases hphase
        · rw [hsame] at hphase
          have hat : fiberAt cfg s (.hand (s.mem.running j)) = some (m'.running j) := by
            simp only [fiberAt, hp, fiberHand]
          have hrest := hf.resting _ _ hat
          simp only [Resting, hp, resuming, if_true] at hrest
          obtain ⟨v, hv⟩ := hrest
          refine h.resumed j hj _ src hp w ?_
          rw [hv] at hphase ⊢
          cases hphase
          rfl
      · rw [hframe (by simpa using hsw), Table.get_set_self] at hphase
        cases exec_call hx with
        | same heq _ => exact h.home j hj w (heq ▸ hphase)
        | begin v hp _ _ hp' _ =>
            rw [hp'] at hphase
            cases hphase
            rw [hp, hp'] at hx
            simp only [Scheduler.exec] at hx
            split at hx
            · obtain ⟨pinned, hpinned, -⟩ := begin_pinned hx
              rw [hpinned]
              cases pinned
              · exact Or.inl rfl
              · exact Or.inr rfl
            · cases hx
        | added v k pc b hp hp' _ =>
            refine h.home j hj w ?_
            rw [hp]
            rw [hp'] at hphase
            cases b <;> exact hphase
        | woken v hp hp' _ =>
            refine h.home j hj w ?_
            rw [hp]
            rw [hp'] at hphase
            exact hphase
        | ended v _ hp' _ =>
            rw [hp'] at hphase
            cases hphase
    · rw [(hother j hj hji).2] at hphase
      exact h.home j hj w hphase
  · intro j hj g src hp w hphase
    replace hp : (s.pc.set (s.mem.running i) p') (m'.running j) = .yieldTo g (.resume src) := hp
    replace hphase : callPhase ((s.pc.set (s.mem.running i) p') g) = .suspended w := hphase
    by_cases hji : j = i
    · subst hji
      by_cases hsw : switches (s.pc (s.mem.running j)) = true
      · exact absurd hp ((popped_switchedOut (running_switch hf hj hx hsw).2).2 g (.resume src))
      · rw [hframe (by simpa using hsw), Table.get_set_self] at hp
        subst hp
        obtain ⟨v, hp, rfl, hflag⟩ := resume_back hx
        have hat : fiberAt cfg s (.suspended v.fiber) = some v.fiber := by
          simp only [fiberAt, hflag, if_true]
        rw [Table.get_set_ne _ _ (hf.ne_running hi hat (by simp))] at hphase
        have hrec := hw.regs.call_of_entry hw.wakes hp hphase
        cases src with
        | global =>
            obtain ⟨u, hu, hnone⟩ := h.carried _ v.reg none (by rw [hp]; rfl)
            rw [hrec] at hu
            cases hu
            exact Or.inl hnone
        | pinned =>
            obtain ⟨u, hu, hthread⟩ := h.popped j hj v (by rw [hp]; rfl)
            rw [hrec] at hu
            cases hu
            exact Or.inr hthread
    · rw [(hother j hj hji).2] at hp
      have hat : fiberAt cfg s (.hand (s.mem.running j)) = some g := by
        simp only [fiberAt, hp, fiberHand]
      rw [Table.get_set_ne _ _ (hf.ne_running hi hat (by simp))] at hphase
      exact h.resumed j hj g src hp w hphase

theorem start (cfg : Config) : AffinityInv cfg (start cfg) := by
  have hpc : ∀ a, carries ((Scheduler.start cfg).pc a) = none ∧
      poppedWake ((Scheduler.start cfg).pc a) = none ∧
      callPhase ((Scheduler.start cfg).pc a) = .none := by
    intro a
    rw [start_pc]
    split
    · exact ⟨rfl, rfl, rfl⟩
    · split <;> exact ⟨rfl, rfl, rfl⟩
  constructor
  · intro v hv
    cases hv
  · intro t v hv
    cases hv
  · intro a r o hr
    rw [(hpc a).1] at hr
    cases hr
  · intro i _ v hv
    rw [(hpc _).2.1] at hv
    cases hv
  · intro i _ w hphase
    rw [(hpc _).2.2] at hphase
    cases hphase
  · intro i _ g src _ w hphase
    rw [(hpc _).2.2] at hphase
    cases hphase

end AffinityInv

end Steps

/-! ## Runs -/

/-- The step begins the call `w` of `wait` with `pinned` set. -/
def BeginsPinned (s : State) (l : Label) (s' : State) (w : WaitCall) : Prop :=
  s.pc (s.mem.running l.thread) = .body ∧ s'.pc (s.mem.running l.thread) = .waitStore w ∧
    ((∃ h target, l.choice = .call (.waitOn h true target)) ∨
      ∃ sync, l.choice = .call (.waitFor sync true))

theorem BeginsPinned.pinned {cfg : Config} {s s' : State} {l : Label} {w : WaitCall}
    (h : BeginsPinned s l s' w) (hs : step cfg s l = some s') : w.pinned = some l.thread := by
  obtain ⟨hp, hp', hchoice⟩ := h
  obtain ⟨-, -, m', p', hx, rfl⟩ := step_eq_some.1 hs
  replace hp' : (s.pc.set (s.mem.running l.thread) p') (s.mem.running l.thread) = .waitStore w := hp'
  rw [Table.get_set_self] at hp'
  subst hp'
  rw [hp] at hx
  rcases hchoice with ⟨h, target, hchoice⟩ | ⟨sync, hchoice⟩ <;>
  · rw [hchoice] at hx
    simp only [exec] at hx
    obtain ⟨pinned, hpinned, hcall⟩ := begin_pinned hx
    rcases hcall with ⟨_, _, heq⟩ | ⟨_, heq⟩ <;> cases heq
    exact hpinned

/-- Where every registration is resolved by its own call, a pinned call of `wait`
returns on the thread it was made on. -/
theorem affine_of_run {cfg : Config} (hcfg : cfg.Ok) {σ : Nat → State} {ℓ : Nat → Label}
    {n : Nat} (h : Run (step cfg) (start cfg) σ ℓ n)
    (hg : ∀ k, k < n → ∀ c, Vacant c (σ k) (ℓ k)) {j k : Nat} (hj : j < n) (hk : k < n)
    {w : WaitCall} (hbegin : BeginsPinned (σ j) (ℓ j) (σ (j + 1)) w)
    (hreturn : (σ k).pc ((σ k).mem.running (ℓ k).thread) = .waitDone w) :
    (ℓ k).thread = (ℓ j).thread := by
  have hinv : ∀ k, k ≤ n → WaitInv cfg (σ k) ∧ AffinityInv cfg (σ k) := by
    refine h.guarded (I := fun s => WaitInv cfg s ∧ AffinityInv cfg s)
      (G := fun s l => ∀ c, Vacant c s l) ⟨.start hcfg, .start cfg⟩ ?_ hg
    rintro s l s' ⟨hw, ha⟩ hG hs
    refine ⟨hw.step hG hs, ?_⟩
    obtain ⟨-, hi, m', p', hx, rfl⟩ := step_eq_some.1 hs
    exact ha.exec hw hi hx
  obtain ⟨-, hi, -⟩ := step_eq_some.1 (h.next k hk)
  have hpinned := hbegin.pinned (h.next j hj)
  rcases (hinv k (Nat.le_of_lt hk)).2.home _ hi w (by rw [hreturn]; rfl) with hnone | hthread
  · rw [hpinned] at hnone
    cases hnone
  · rw [hpinned] at hthread
    exact (Option.some.inj hthread).symm

/-- The main task waits for its submission, which the same thread runs. -/
theorem affine_pool :
    ((goes 0 7 ++ poolLabels 61).getD 168 ⟨1, .go⟩).thread =
      ((goes 0 7 ++ poolLabels 61).getD 85 ⟨0, .go⟩).thread := by
  have hrun : follows (step pairConfig) vacant (start pairConfig) (goes 0 7 ++ poolLabels 61) =
      true := by decide +kernel
  have hbegin : (trace (step pairConfig) (start pairConfig) (goes 0 7 ++ poolLabels 61) 85).pc 0 =
        .body ∧
      (trace (step pairConfig) (start pairConfig) (goes 0 7 ++ poolLabels 61) 86).pc 0 =
        .waitStore ⟨0, 0, some 0, 0, some 0, 0, 0⟩ ∧
      (trace (step pairConfig) (start pairConfig) (goes 0 7 ++ poolLabels 61) 85).mem.running 0 = 0 ∧
      (goes 0 7 ++ poolLabels 61).getD 85 ⟨0, .go⟩ = ⟨0, .call (.waitFor 0 true)⟩ := by
    decide +kernel
  have hreturn : (trace (step pairConfig) (start pairConfig) (goes 0 7 ++ poolLabels 61) 168).pc
        ((trace (step pairConfig) (start pairConfig) (goes 0 7 ++ poolLabels 61) 168).mem.running 0) =
        .waitDone ⟨0, 0, some 0, 0, some 0, 0, 0⟩ ∧
      (goes 0 7 ++ poolLabels 61).getD 168 ⟨0, .go⟩ = ⟨0, .go⟩ ∧
      (goes 0 7 ++ poolLabels 61).getD 168 ⟨1, .go⟩ = ⟨0, .go⟩ := by
    decide +kernel
  obtain ⟨hbody, hstore, hrunning, hcall⟩ := hbegin
  obtain ⟨hdone, hgo, hgo'⟩ := hreturn
  have haffine := affine_of_run pairConfig_ok (Run.of_follows ⟨0, .go⟩ hrun)
    (fun k hk => .of_vacant (trace_ok ⟨0, .go⟩ hrun k hk)) (j := 85) (k := 168) (by decide +kernel)
    (by decide +kernel)
    ⟨by rw [hcall, hrunning, hbody], by rw [hcall, hrunning, hstore], Or.inr ⟨0, by rw [hcall]⟩⟩
    (by rw [hgo, hdone])
  rwa [hgo, ← hgo'] at haffine

/-- The waiter that returned while it was woken waits again, pinned to thread `0`,
and thread `1` takes the entry that was left in the queue. -/
def strayLabels : List Label := refillLabels ++ calls 0 (.waitOn 0 true 5) 17 ++ goes 1 18

theorem not_affine :
    ¬ ∀ (cfg : Config), cfg.Ok → ∀ (σ : Nat → State) (ℓ : Nat → Label) (n : Nat),
      Run (step cfg) (start cfg) σ ℓ n → ∀ j k, j < n → k < n → ∀ w,
        BeginsPinned (σ j) (ℓ j) (σ (j + 1)) w →
        (σ k).pc ((σ k).mem.running (ℓ k).thread) = .waitDone w →
        (ℓ k).thread = (ℓ j).thread := by
  intro h
  have hrun : follows (step pairConfig) (fun _ _ => true) (start pairConfig) strayLabels = true := by
    decide +kernel
  have hbegin : (trace (step pairConfig) (start pairConfig) strayLabels 221).pc 0 = .body ∧
      (trace (step pairConfig) (start pairConfig) strayLabels 222).pc 0 =
        .waitStore ⟨0, 0, some 0, 5, none, 2, 0⟩ ∧
      (trace (step pairConfig) (start pairConfig) strayLabels 221).mem.running 0 = 0 ∧
      strayLabels.getD 221 ⟨0, .go⟩ = ⟨0, .call (.waitOn 0 true 5)⟩ := by
    decide +kernel
  have hreturn : (trace (step pairConfig) (start pairConfig) strayLabels 256).pc
        ((trace (step pairConfig) (start pairConfig) strayLabels 256).mem.running 1) =
        .waitDone ⟨0, 0, some 0, 5, none, 2, 0⟩ ∧
      strayLabels.getD 256 ⟨0, .go⟩ = ⟨1, .go⟩ := by
    decide +kernel
  obtain ⟨hbody, hstore, hrunning, hcall⟩ := hbegin
  obtain ⟨hdone, hgo⟩ := hreturn
  have haffine := h pairConfig pairConfig_ok _ _ _ (Run.of_follows ⟨0, .go⟩ hrun) 221 256
    (by decide +kernel) (by decide +kernel) ⟨0, 0, some 0, 5, none, 2, 0⟩
    ⟨by rw [hcall, hrunning, hbody], by rw [hcall, hrunning, hstore], Or.inl ⟨0, 5, by rw [hcall]⟩⟩
    (by rw [hgo, hdone])
  rw [hgo, hcall] at haffine
  cases haffine

end TaskDispatcher.Scheduler
