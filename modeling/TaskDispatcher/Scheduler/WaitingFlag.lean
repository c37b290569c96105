import TaskDispatcher.Scheduler.Registrations
import TaskDispatcher.Scheduler.Capacity

/-!
# The flag of a waiting thread

`wait` sets `is_thread_waiting` of the thread it is called on and clears that of the
thread it returns on.  The flag says whether a fiber is suspended in a wait made on
the thread as long as no other such fiber is left when it is cleared, and one is left
when a fiber that made its wait there is resumed elsewhere.
-/

namespace TaskDispatcher.Scheduler

open TaskDispatcher.Library TaskDispatcher.Container

/-- The fiber is suspended in a call of `wait`: no thread executes it. -/
def SuspendedIn (cfg : Config) (s : State) (g : Nat) (w : WaitCall) : Prop :=
  callPhase (s.pc g) = .suspended w ∧ ∀ t, t < cfg.numThreads → s.mem.running t ≠ g

/-- Some fiber is suspended in a call that `made` attributes to thread `t`. -/
def WaitsOn (cfg : Config) (made : Nat → Nat → Prop) (s : State) (t : Nat) : Prop :=
  ∃ g w, SuspendedIn cfg s g w ∧ made w.call t

/-- The agent has entered `wait` and has not been suspended in it. -/
def Entered (p : PC) (w : WaitCall) : Prop :=
  callPhase p = .adding w ∨ callPhase p = .suspended w ∧ woken p = false

structure FlagInv (cfg : Config) (made : Nat → Nat → Prop) (s : State) : Prop where
  unique : ∀ r t t', made r t → made r t' → t = t'
  begun : ∀ r t, made r t → r < s.mem.hist.nextCall
  here : ∀ t, t < cfg.numThreads → ∀ w, Entered (s.pc (s.mem.running t)) w → made w.call t
  raised : ∀ t, t < cfg.numThreads → ∀ w, Entered (s.pc (s.mem.running t)) w →
    s.pc (s.mem.running t) ≠ .waitStore w → s.mem.isThreadWaiting t = true
  tracks : ∀ t, t < cfg.numThreads → callPhase (s.pc (s.mem.running t)) = .none →
    (s.mem.isThreadWaiting t = true ↔ WaitsOn cfg made s t)
  asleep : ∀ t, t < cfg.numThreads → s.pc (s.mem.running t) = .eventWait →
    s.mem.isThreadWaiting t = false

/-- No other wait made on the thread is left when the flag is cleared, and when a fiber is
resumed away from the thread it waited on, that thread is inside `wait` or another wait
made there is left. -/
structure Undisturbed (cfg : Config) (made : Nat → Nat → Prop) (s : State) (l : Label) : Prop where
  cleared : ∀ w, s.pc (s.mem.running l.thread) = .waitDone w → ¬ WaitsOn cfg made s l.thread
  away : ∀ g src w t, s.pc (s.mem.running l.thread) = .yieldTo g (.resume src) →
    callPhase (s.pc g) = .suspended w → made w.call t → t < cfg.numThreads → t ≠ l.thread →
      callPhase (s.pc (s.mem.running t)) = .none →
        ∃ g' w', g' ≠ g ∧ SuspendedIn cfg s g' w' ∧ made w'.call t

section Steps

variable {cfg : Config} {s s' : State} {m m' : Mem} {i f : Nat} {ch : Choice} {p p' : PC} {l : Label}
  {made made' : Nat → Nat → Prop}

/-- What an access does to the flags. -/
inductive FlagWrite (m : Mem) (i : Nat) (p : PC) (m' : Mem) : Prop where
  | same : m'.isThreadWaiting = m.isThreadWaiting → (∀ w, p ≠ .waitStore w) →
      (∀ w, p ≠ .waitDone w) → FlagWrite m i p m'
  | raised (w : WaitCall) : p = .waitStore w →
      m'.isThreadWaiting = m.isThreadWaiting.set i true → FlagWrite m i p m'
  | cleared (w : WaitCall) : p = .waitDone w →
      m'.isThreadWaiting = m.isThreadWaiting.set i false → FlagWrite m i p m'

theorem exec_flag (hx : exec cfg m i f ch p = some (m', p')) : FlagWrite m i p m' := by
  cases p with
  | waitStore w =>
      cases hx
      exact .raised w rfl rfl
  | waitDone w =>
      simp only [exec] at hx
      obtain ⟨pc, -, heq⟩ := Option.map_eq_some_iff.1 hx
      cases heq
      exact .cleared w rfl rfl
  | increment inc =>
      refine .same ?_ (by simp) (by simp)
      simp only [exec, incrementStep] at hx
      split at hx <;> cases hx <;> rfl
  | _ =>
      refine .same ?_ (by simp) (by simp)
      simp only [exec, userStep, beginWait, submitNext, afterRelease, cleanStep, pinStep,
        submitTasks, enqueueNext] at hx
      (repeat' split at hx) <;> cases hx <;> rfl

theorem FlagWrite.other (h : FlagWrite m i p m') {t : Nat} (ht : t ≠ i) :
    m'.isThreadWaiting t = m.isThreadWaiting t := by
  cases h with
  | same heq _ _ => rw [heq]
  | raised w _ heq => rw [heq, Table.get_set_ne _ _ ht]
  | cleared w _ heq => rw [heq, Table.get_set_ne _ _ ht]

/-- Outside `wait` the flag stays. -/
theorem FlagWrite.quiet (h : FlagWrite m i p m') (hp : callPhase p = .none) :
    m'.isThreadWaiting = m.isThreadWaiting := by
  cases h with
  | same heq _ _ => exact heq
  | raised w hpc _ =>
      rw [hpc] at hp
      cases hp
  | cleared w hpc _ =>
      rw [hpc] at hp
      cases hp

/-- A resumed fiber stays awake until it leaves `wait`. -/
theorem woken_next (hx : exec cfg m i f ch p = some (m', p')) (hp : woken p = true) :
    woken p' = true ∨ ∃ w, p' = .waitDone w := by
  cases p with
  | clean k =>
      rcases k with _ | w | _
      · cases hp
      · simp only [exec, cleanStep] at hx
        split at hx <;> cases hx
        · exact Or.inr ⟨w, rfl⟩
        · exact Or.inl rfl
        · exact Or.inr ⟨w, rfl⟩
      · cases hp
  | idleEnq k v pc =>
      rcases k with _ | w | _
      · cases hp
      · simp only [exec] at hx
        split at hx <;> cases hx
        · exact Or.inl rfl
        · exact Or.inr ⟨w, rfl⟩
      · cases hp
  | _ => cases hp

/-- Whoever is inside `wait` was there before, or has just called it. -/
theorem Entered.back (hx : exec cfg m i f ch p = some (m', p')) {w : WaitCall} (h : Entered p' w) :
    Entered p w ∨ p' = .waitStore w ∧ w.call = m.hist.nextCall ∧
      m'.hist.nextCall = m.hist.nextCall + 1 := by
  cases exec_call hx with
  | same hphase _ =>
      left
      rcases h with h | ⟨h, hsleeps⟩
      · exact Or.inl (hphase ▸ h)
      · refine Or.inr ⟨hphase ▸ h, ?_⟩
        by_contra hwoken
        rcases woken_next hx (by simpa using hwoken) with hw | ⟨v, rfl⟩
        · rw [hw] at hsleeps
          cases hsleeps
        · cases h
  | begin v _ hcall _ hp' hpart =>
      right
      rw [hp'] at h
      rcases h with h | ⟨h, -⟩
      · cases h
        exact ⟨hp', hcall, congrArg Prod.fst hpart⟩
      · cases h
  | added v j pc b hp hp' _ =>
      left
      rw [hp'] at h
      rw [hp]
      cases b with
      | false =>
          rcases h with h | ⟨h, -⟩
          · cases h
          · cases h
            exact Or.inl rfl
      | true => rcases h with h | ⟨h, -⟩ <;> cases h
  | woken v _ hp' _ =>
      rw [hp'] at h
      rcases h with h | ⟨h, -⟩ <;> cases h
  | ended v _ hphase _ =>
      rw [Entered, hphase] at h
      rcases h with h | ⟨h, -⟩ <;> cases h

/-- Only a call of `wait` numbers a new call. -/
theorem nextCall_step (hx : exec cfg m i f ch p = some (m', p')) :
    m'.hist.nextCall = m.hist.nextCall ∨
      m'.hist.nextCall = m.hist.nextCall + 1 ∧ ∃ w, p' = .waitStore w ∧ w.call = m.hist.nextCall := by
  cases exec_call hx with
  | same _ hpart => exact Or.inl (congrArg Prod.fst hpart)
  | begin w _ hcall _ hp' hpart => exact Or.inr ⟨congrArg Prod.fst hpart, w, hp', hcall⟩
  | added w j pc b _ _ hpart => exact Or.inl (congrArg Prod.fst hpart)
  | woken w _ _ hpart => exact Or.inl (congrArg Prod.fst hpart)
  | ended w _ _ hpart => exact Or.inl (congrArg Prod.fst hpart)

/-- The attribution of calls after one more step of thread `i`. -/
def MadeNext (made made' : Nat → Nat → Prop) (m m' : Mem) (i : Nat) : Prop :=
  ∀ r t, made' r t ↔ made r t ∨
    i = t ∧ m.hist.nextCall = r ∧ m'.hist.nextCall = r + 1

/-- A fiber that no step has touched is suspended as it was. -/
theorem suspendedIn_frame {g : Nat} {w : WaitCall} (hpc : s'.pc g = s.pc g)
    (hrun : ∀ t, t < cfg.numThreads → (s'.mem.running t = g ↔ s.mem.running t = g)) :
    SuspendedIn cfg s' g w ↔ SuspendedIn cfg s g w := by
  unfold SuspendedIn
  rw [hpc]
  constructor
  · rintro ⟨hphase, hno⟩
    exact ⟨hphase, fun t ht heq => hno t ht ((hrun t ht).2 heq)⟩
  · rintro ⟨hphase, hno⟩
    exact ⟨hphase, fun t ht heq => hno t ht ((hrun t ht).1 heq)⟩

/-- A suspended call has its number already. -/
theorem MadeNext.suspended (h : MadeNext made made' s.mem m' i) (hc : CallInv cfg s) {g : Nat}
    {w : WaitCall} (hw : callPhase (s.pc g) = .suspended w) (t : Nat) :
    made' w.call t ↔ made w.call t := by
  rw [h]
  constructor
  · rintro (hmade | ⟨-, hnext, -⟩)
    · exact hmade
    · have hlt := (hc.number _ _ (hc.inside g w (by rw [hw]; rfl)).2.1).2.2
      omega
  · exact Or.inl

/-! ## Threads that switch -/

/-- What the other threads run is not touched. -/
theorem others_frame (hf : FiberInv cfg s) (hi : i < cfg.numThreads)
    (hx : exec cfg s.mem i (s.mem.running i) ch (s.pc (s.mem.running i)) = some (m', p'))
    {t : Nat} (ht : t < cfg.numThreads) (hti : t ≠ i) :
    m'.running t = s.mem.running t ∧ s.mem.running t ≠ s.mem.running i ∧
      (s.pc.set (s.mem.running i) p') (m'.running t) = s.pc (s.mem.running t) := by
  have hne : s.mem.running t ≠ s.mem.running i := fun heq => hti (hf.running_inj ht hi heq)
  have hrun : m'.running t = s.mem.running t := by
    by_cases hsw : switches (s.pc (s.mem.running i)) = true
    · exact (running_switch hf hi hx hsw).1 t hti
    · exact running_frame hx (by simpa using hsw) t
  refine ⟨hrun, hne, ?_⟩
  rw [hrun, Table.get_set_ne _ _ hne]

/-- A switch leads to another agent. -/
theorem switched_ne (hf : FiberInv cfg s) (hi : i < cfg.numThreads)
    (hx : exec cfg s.mem i (s.mem.running i) ch (s.pc (s.mem.running i)) = some (m', p'))
    (hsw : switches (s.pc (s.mem.running i)) = true) : m'.running i ≠ s.mem.running i := by
  have hhand : ∀ g, fiberHand s.mem.idleFibers (s.pc (s.mem.running i)) = some g →
      m'.running i = g → m'.running i ≠ s.mem.running i := by
    intro g hg heq
    rw [heq]
    exact hf.ne_running hi (P := .hand (s.mem.running i)) hg (by simp)
  have hrun : ∀ u : Tls, m'.tls = s.mem.tls.set i u → m'.running i = u.running := by
    intro u hu
    rw [Mem.running, hu, Table.get_set_self]
  obtain ⟨p, hp⟩ : ∃ p, s.pc (s.mem.running i) = p := ⟨_, rfl⟩
  have hx' := hx
  rw [hp] at hx'
  cases p with
  | startSwitch g =>
      cases hx'
      exact hhand g (by rw [hp]; rfl) (hrun _ rfl)
  | yieldTo g k =>
      cases hx'
      exact hhand g (by rw [hp]; rfl) (hrun _ rfl)
  | exitSwitch =>
      cases hx'
      rw [hrun _ rfl]
      intro heq
      replace heq : cfg.numFibers + i = s.mem.running i := heq
      -- a thread fiber never comes to leave the task loop
      rcases hf.thread i hi with ⟨⟨pc, hthread⟩ | ⟨g, hthread⟩, -⟩ | hthread <;>
        rw [heq, hp] at hthread <;> cases hthread
  | _ =>
      rw [hp] at hsw
      cases hsw

/-- The agent that a thread switches to is outside `wait`, or a fiber that is resumed. -/
theorem switched_awake (hf : FiberInv cfg s) (hi : i < cfg.numThreads)
    (hx : exec cfg s.mem i (s.mem.running i) ch (s.pc (s.mem.running i)) = some (m', p'))
    (hsw : switches (s.pc (s.mem.running i)) = true) :
    callPhase ((s.pc.set (s.mem.running i) p') (m'.running i)) = .none ∨
      woken ((s.pc.set (s.mem.running i) p') (m'.running i)) = true ∧
        ∃ src, s.pc (s.mem.running i) = .yieldTo (m'.running i) (.resume src) := by
  rcases switched_call hf hi hx hsw with hnone | ⟨src, hp, hsame⟩
  · exact Or.inl hnone
  · right
    have hrest := hf.resting (.hand (s.mem.running i)) (m'.running i)
      (by simp only [fiberAt, hp, fiberHand])
    simp only [Resting, hp, resuming, if_true] at hrest
    obtain ⟨w, hw⟩ := hrest
    refine ⟨?_, src, hp⟩
    rw [hsame, hw]
    rfl

theorem Entered.not_none {w : WaitCall} (h : Entered p w) : callPhase p ≠ .none := by
  intro hnone
  rw [Entered, hnone] at h
  rcases h with h | ⟨h, -⟩ <;> cases h

theorem phase_of_woken (hp : woken p = true) : ∃ w, callPhase p = .suspended w := by
  cases p with
  | clean k => rcases k with _ | w | _ <;> first | exact ⟨w, rfl⟩ | cases hp
  | idleEnq k v pc => rcases k with _ | w | _ <;> first | exact ⟨w, rfl⟩ | cases hp
  | _ => cases hp

theorem not_entered_switched (hf : FiberInv cfg s) (hi : i < cfg.numThreads)
    (hx : exec cfg s.mem i (s.mem.running i) ch (s.pc (s.mem.running i)) = some (m', p'))
    (hsw : switches (s.pc (s.mem.running i)) = true) (w : WaitCall) :
    ¬ Entered ((s.pc.set (s.mem.running i) p') (m'.running i)) w := by
  intro hin
  rcases switched_awake hf hi hx hsw with hnone | ⟨hwoken, -⟩
  · exact hin.not_none hnone
  · rcases hin with hadd | ⟨-, hsleeps⟩
    · obtain ⟨v, hv⟩ := phase_of_woken hwoken
      rw [hadd] at hv
      cases hv
    · rw [hwoken] at hsleeps
      cases hsleeps

/-- A switch leaves the agent in the call it was in. -/
theorem switched_phase (hx : exec cfg m i f ch p = some (m', p')) (hsw : switches p = true) :
    callPhase p' = callPhase p := by
  cases p with
  | startSwitch g =>
      cases hx
      rfl
  | exitSwitch =>
      cases hx
      rfl
  | yieldTo g k =>
      cases hx
      cases k <;> rfl
  | _ => cases hsw

/-- Who is suspended after a switch: the agent that was running if it is in `wait`, and not
the one that runs now. -/
theorem suspendedIn_switched (hf : FiberInv cfg s) (hi : i < cfg.numThreads)
    (hx : exec cfg s.mem i (s.mem.running i) ch (s.pc (s.mem.running i)) = some (m', p'))
    (hsw : switches (s.pc (s.mem.running i)) = true) (g : Nat) (w : WaitCall) :
    SuspendedIn cfg ⟨m', s.pc.set (s.mem.running i) p'⟩ g w ↔ g ≠ m'.running i ∧
      (g = s.mem.running i ∧ callPhase (s.pc (s.mem.running i)) = .suspended w ∨
        SuspendedIn cfg s g w) := by
  have hne := switched_ne hf hi hx hsw
  have hphase := switched_phase hx hsw
  constructor
  · rintro ⟨hw, hno⟩
    refine ⟨fun heq => hno i hi heq.symm, ?_⟩
    replace hw : callPhase ((s.pc.set (s.mem.running i) p') g) = .suspended w := hw
    by_cases hgf : g = s.mem.running i
    · rw [hgf, Table.get_set_self, hphase] at hw
      exact Or.inl ⟨hgf, hw⟩
    · rw [Table.get_set_ne _ _ hgf] at hw
      refine Or.inr ⟨hw, fun t ht heq => ?_⟩
      by_cases hti : t = i
      · exact hgf (hti ▸ heq.symm)
      · exact hno t ht ((others_frame hf hi hx ht hti).1.trans heq)
  · rintro ⟨hgn, ⟨rfl, hw⟩ | ⟨hw, hno⟩⟩
    · refine ⟨?_, fun t ht heq => ?_⟩
      · show callPhase ((s.pc.set (s.mem.running i) p') (s.mem.running i)) = _
        rw [Table.get_set_self, hphase, hw]
      · by_cases hti : t = i
        · exact hne (hti ▸ heq)
        · obtain ⟨hrun, hother, -⟩ := others_frame hf hi hx ht hti
          exact hother (hrun.symm.trans heq)
    · have hgf : g ≠ s.mem.running i := fun heq => hno i hi heq.symm
      refine ⟨?_, fun t ht heq => ?_⟩
      · show callPhase ((s.pc.set (s.mem.running i) p') g) = _
        rw [Table.get_set_ne _ _ hgf, hw]
      · by_cases hti : t = i
        · exact hgn (hti ▸ heq.symm)
        · exact hno t ht ((others_frame hf hi hx ht hti).1.symm.trans heq)

/-- Without a switch the same fibers stay suspended. -/
theorem suspendedIn_stay
    (hx : exec cfg s.mem i (s.mem.running i) ch (s.pc (s.mem.running i)) = some (m', p'))
    (hi : i < cfg.numThreads) (hsw : switches (s.pc (s.mem.running i)) = false) (g : Nat)
    (w : WaitCall) :
    SuspendedIn cfg ⟨m', s.pc.set (s.mem.running i) p'⟩ g w ↔ SuspendedIn cfg s g w := by
  have hrun := running_frame hx hsw
  by_cases hgf : g = s.mem.running i
  · constructor
    · intro h
      exact absurd ((hrun i).trans hgf.symm) (h.2 i hi)
    · intro h
      exact absurd hgf.symm (h.2 i hi)
  · apply suspendedIn_frame
    · exact Table.get_set_ne _ _ hgf
    · intro t _
      exact iff_of_eq (congrArg (· = g) (hrun t))

/-- A thread goes to sleep with its flag down. -/
theorem eventWait_back (hx : exec cfg m i f ch p = some (m', .eventWait)) :
    p = .noTask ∧ m.isThreadWaiting i = false := by
  cases p with
  | noTask =>
      simp only [exec] at hx
      split at hx
      · rename_i hidle
        exact ⟨rfl, hidle.2⟩
      · cases hx
  | add w j pc =>
      obtain ⟨a, r, -, -, hr⟩ := exec_add hx
      rcases r with _ | (_ | _) | _ <;> cases hr
  | scan x j pc =>
      obtain ⟨a, r, -, -, hr⟩ := exec_scan hx
      cases r with
      | skip =>
          simp only [scanNext, nextSlot] at hr
          split at hr
          · cases hr
          · cases hk : x.k <;> rw [hk] at hr <;> cases hr
      | _ => cases hr
  | clean k =>
      simp only [exec, cleanStep] at hx
      rcases k with _ | _ | (_ | _) <;> split at hx <;> cases hx
  | idleEnq k v pc =>
      simp only [exec] at hx
      rcases k with _ | _ | (_ | _) <;> split at hx <;> cases hx
  | resEnq k v pc =>
      simp only [exec] at hx
      cases k <;> split at hx <;> cases hx
  | getUnlock got => cases got <;> cases hx
  | loop =>
      simp only [exec] at hx
      split at hx <;> cases hx
  | entry =>
      simp only [exec] at hx
      split at hx <;> cases hx
  | resetSlot c j k =>
      simp only [exec] at hx
      split at hx <;> cases hx
  | waitDone w =>
      simp only [exec, afterWait] at hx
      split at hx
      · cases hx
      · split at hx <;> cases hx
  | _ =>
      simp only [exec, userStep, beginWait, incrementStep, submitNext, afterRelease, pinStep,
        submitTasks, enqueueNext] at hx
      (repeat' split at hx) <;> cases hx

/-- The agent that switches away inside `wait` has called it on this thread. -/
theorem entered_of_switch (hsw : switches p = true) {w : WaitCall}
    (hp : callPhase p = .suspended w) : Entered p w := by
  cases p with
  | yieldTo g k =>
      cases k with
      | wait w => exact Or.inr ⟨hp, rfl⟩
      | resume src => cases hp
  | startSwitch g => cases hp
  | exitSwitch => cases hp
  | _ => cases hsw

/-- A switch leads away from code outside `wait`, or suspends a wait. -/
theorem phase_of_switch (hsw : switches p = true) :
    callPhase p = .none ∨ ∃ w, callPhase p = .suspended w := by
  cases p with
  | yieldTo g k =>
      cases k with
      | wait w => exact Or.inr ⟨w, rfl⟩
      | resume src => exact Or.inl rfl
  | startSwitch g => exact Or.inl rfl
  | exitSwitch => exact Or.inl rfl
  | _ => cases hsw

theorem FlagWrite.switched (h : FlagWrite m i p m') (hsw : switches p = true) :
    m'.isThreadWaiting = m.isThreadWaiting := by
  cases h with
  | same heq _ _ => exact heq
  | raised w hp _ =>
      rw [hp] at hsw
      cases hsw
  | cleared w hp _ =>
      rw [hp] at hsw
      cases hsw

/-! ## The invariant -/

namespace FlagInv

section Step

variable (h : FlagInv cfg made s) (hf : FiberInv cfg s) (hc : CallInv cfg s)
  (hi : i < cfg.numThreads) (hmade : MadeNext made made' s.mem m' i)
  (hx : Scheduler.exec cfg s.mem i (s.mem.running i) ch (s.pc (s.mem.running i)) = some (m', p'))

include h hf hi hmade hx

theorem here_exec {t : Nat} (ht : t < cfg.numThreads) {w : WaitCall}
    (hin : Entered ((s.pc.set (s.mem.running i) p') (m'.running t)) w) : made' w.call t := by
  have hold : ∀ r t, made r t → made' r t := fun r t hr => (hmade r t).2 (Or.inl hr)
  by_cases hti : t = i
  · subst hti
    by_cases hsw : switches (s.pc (s.mem.running t)) = true
    · exact absurd hin (not_entered_switched hf hi hx hsw w)
    · rw [running_frame hx (by simpa using hsw), Table.get_set_self] at hin
      rcases hin.back hx with hbefore | ⟨-, hcall, hnext⟩
      · exact hold _ _ (h.here t ht w hbefore)
      · refine (hmade _ _).2 (Or.inr ⟨rfl, hcall.symm, ?_⟩)
        rw [hcall]
        exact hnext
  · rw [(others_frame hf hi hx ht hti).2.2] at hin
    exact hold _ _ (h.here t ht w hin)

omit hmade in
theorem raised_exec {t : Nat} (ht : t < cfg.numThreads) {w : WaitCall}
    (hin : Entered ((s.pc.set (s.mem.running i) p') (m'.running t)) w)
    (hpc : (s.pc.set (s.mem.running i) p') (m'.running t) ≠ .waitStore w) :
    m'.isThreadWaiting t = true := by
  have hflag := exec_flag hx
  by_cases hti : t = i
  · subst hti
    by_cases hsw : switches (s.pc (s.mem.running t)) = true
    · exact absurd hin (not_entered_switched hf hi hx hsw w)
    · rw [running_frame hx (by simpa using hsw), Table.get_set_self] at hin hpc
      rcases hin.back hx with hbefore | ⟨hp', -⟩
      · cases hflag with
        | same heq hstore _ =>
            rw [heq]
            exact h.raised t ht w hbefore (hstore w)
        | raised v _ heq => rw [heq, Table.get_set_self]
        | cleared v hp _ =>
            rw [hp] at hbefore
            rcases hbefore with hadd | ⟨hsusp, -⟩
            · cases hadd
            · cases hsusp
      · exact absurd hp' hpc
  · obtain ⟨-, -, hsame⟩ := others_frame hf hi hx ht hti
    rw [hsame] at hin hpc
    rw [hflag.other hti]
    exact h.raised t ht w hin hpc

include hc

/-- The thread that switches. -/
theorem tracks_switch (hsw : switches (s.pc (s.mem.running i)) = true)
    (hnone : callPhase ((s.pc.set (s.mem.running i) p') (m'.running i)) = .none) :
    m'.isThreadWaiting i = true ↔ WaitsOn cfg made' ⟨m', s.pc.set (s.mem.running i) p'⟩ i := by
  have hold : ∀ r t, made r t → made' r t := fun r t hr => (hmade r t).2 (Or.inl hr)
  have hsusp := suspendedIn_switched hf hi hx hsw
  have hne := switched_ne hf hi hx hsw
  rw [(exec_flag hx).switched hsw]
  rcases phase_of_switch hsw with hquiet | ⟨w, hw⟩
  · rw [h.tracks i hi hquiet]
    constructor
    · rintro ⟨g, w, hw, hr⟩
      refine ⟨g, w, (hsusp g w).2 ⟨?_, Or.inr hw⟩, hold _ _ hr⟩
      rintro rfl
      rw [Table.get_set_ne _ _ hne, hw.1] at hnone
      cases hnone
    · rintro ⟨g, w, hw, hr⟩
      rcases ((hsusp g w).1 hw).2 with ⟨-, hphase⟩ | hw
      · rw [hquiet] at hphase
        cases hphase
      · exact ⟨g, w, hw, (hmade.suspended hc hw.1 i).1 hr⟩
  · -- the agent that was running is suspended in the wait it has made here
    have hin := entered_of_switch hsw hw
    have hraised := h.raised i hi w hin (by
      intro hp
      rw [hp] at hw
      cases hw)
    exact iff_of_true hraised ⟨s.mem.running i, w, (hsusp _ _).2 ⟨hne.symm, Or.inl ⟨rfl, hw⟩⟩,
      hold _ _ (h.here i hi w hin)⟩

/-- Another thread, while this one switches. -/
theorem tracks_switch_other (hg : Undisturbed cfg made s ⟨i, ch⟩)
    (hsw : switches (s.pc (s.mem.running i)) = true) {t : Nat} (ht : t < cfg.numThreads)
    (hti : t ≠ i) (hnone : callPhase ((s.pc.set (s.mem.running i) p') (m'.running t)) = .none) :
    m'.isThreadWaiting t = true ↔ WaitsOn cfg made' ⟨m', s.pc.set (s.mem.running i) p'⟩ t := by
  have hold : ∀ r t, made r t → made' r t := fun r t hr => (hmade r t).2 (Or.inl hr)
  have hsusp := suspendedIn_switched hf hi hx hsw
  rw [(others_frame hf hi hx ht hti).2.2] at hnone
  rw [(exec_flag hx).switched hsw, h.tracks t ht hnone]
  constructor
  · rintro ⟨g, w, hw, hr⟩
    by_cases hgn : g = m'.running i
    · subst hgn
      rcases switched_call hf hi hx hsw with hnot | ⟨src, hp, -⟩
      · rw [Table.get_set_ne _ _ (switched_ne hf hi hx hsw), hw.1] at hnot
        cases hnot
      · obtain ⟨g, v, hg', hv, hr'⟩ := hg.away _ src w t hp hw.1 hr ht hti hnone
        exact ⟨g, v, (hsusp g v).2 ⟨hg', Or.inr hv⟩, hold _ _ hr'⟩
    · exact ⟨g, w, (hsusp g w).2 ⟨hgn, Or.inr hw⟩, hold _ _ hr⟩
  · rintro ⟨g, w, hw, hr⟩
    rcases ((hsusp g w).1 hw).2 with ⟨-, hphase⟩ | hw
    · -- that wait was made on the thread that switches
      have hr' := (hmade.suspended hc hphase t).1 hr
      exact absurd (h.unique _ _ _ hr' (h.here i hi w (entered_of_switch hsw hphase))) hti
    · exact ⟨g, w, hw, (hmade.suspended hc hw.1 t).1 hr⟩

/-- Any thread, while no one switches. -/
theorem tracks_stay (hg : Undisturbed cfg made s ⟨i, ch⟩)
    (hsw : switches (s.pc (s.mem.running i)) = false) {t : Nat} (ht : t < cfg.numThreads)
    (hnone : callPhase ((s.pc.set (s.mem.running i) p') (m'.running t)) = .none) :
    m'.isThreadWaiting t = true ↔ WaitsOn cfg made' ⟨m', s.pc.set (s.mem.running i) p'⟩ t := by
  have hflag := exec_flag hx
  have hwaits : WaitsOn cfg made' ⟨m', s.pc.set (s.mem.running i) p'⟩ t ↔ WaitsOn cfg made s t := by
    constructor
    · rintro ⟨g, w, hw, hr⟩
      have hw' := (suspendedIn_stay hx hi hsw g w).1 hw
      exact ⟨g, w, hw', (hmade.suspended hc hw'.1 t).1 hr⟩
    · rintro ⟨g, w, hw, hr⟩
      exact ⟨g, w, (suspendedIn_stay hx hi hsw g w).2 hw, (hmade _ _).2 (Or.inl hr)⟩
  rw [hwaits]
  by_cases hti : t = i
  · subst hti
    rw [running_frame hx hsw, Table.get_set_self] at hnone
    cases exec_call hx with
    | same hphase _ =>
        have hquiet := hphase.symm.trans hnone
        rw [hflag.quiet hquiet]
        exact h.tracks t ht hquiet
    | ended w hp _ _ =>
        cases hflag with
        | same _ _ hdone => exact absurd hp (hdone w)
        | raised v hp' _ =>
            rw [hp] at hp'
            cases hp'
        | cleared v _ heq =>
            rw [heq, Table.get_set_self]
            exact iff_of_false (by simp) (hg.cleared w hp)
    | begin w _ _ _ hp' _ =>
        rw [hp'] at hnone
        cases hnone
    | added w j pc b _ hp' _ =>
        rw [hp'] at hnone
        cases b <;> cases hnone
    | woken w _ hp' _ =>
        rw [hp'] at hnone
        cases hnone
  · rw [(others_frame hf hi hx ht hti).2.2] at hnone
    rw [hflag.other hti]
    exact h.tracks t ht hnone

omit hc hmade in
theorem asleep_exec {t : Nat} (ht : t < cfg.numThreads)
    (hpc : (s.pc.set (s.mem.running i) p') (m'.running t) = .eventWait) :
    m'.isThreadWaiting t = false := by
  have hflag := exec_flag hx
  by_cases hti : t = i
  · subst hti
    by_cases hsw : switches (s.pc (s.mem.running t)) = true
    · rcases (running_switch hf hi hx hsw).2 with (he | ⟨k, he⟩) | hd
      · rw [he] at hpc
        cases hpc
      · rw [he] at hpc
        cases hpc
      · rw [hd] at hpc
        cases hpc
    · rw [running_frame hx (by simpa using hsw), Table.get_set_self] at hpc
      subst hpc
      obtain ⟨hp, hdown⟩ := eventWait_back hx
      rw [hflag.quiet (by rw [hp]; rfl)]
      exact hdown
  · obtain ⟨-, -, hsame⟩ := others_frame hf hi hx ht hti
    rw [hsame] at hpc
    rw [hflag.other hti]
    exact h.asleep t ht hpc

end Step

theorem exec (h : FlagInv cfg made s) (hf : FiberInv cfg s) (hc : CallInv cfg s)
    (hi : l.thread < cfg.numThreads) (hg : Undisturbed cfg made s l)
    (hmade : MadeNext made made' s.mem m' l.thread)
    (hx : exec cfg s.mem l.thread (s.mem.running l.thread) l.choice
      (s.pc (s.mem.running l.thread)) = some (m', p')) :
    FlagInv cfg made' ⟨m', s.pc.set (s.mem.running l.thread) p'⟩ where
  unique r t t' ht ht' := by
    rcases (hmade r t).1 ht with ht | ⟨hit, hnext, -⟩ <;>
      rcases (hmade r t').1 ht' with ht' | ⟨hit', hnext', -⟩
    · exact h.unique r t t' ht ht'
    · have hlt := h.begun r t ht
      omega
    · have hlt := h.begun r t' ht'
      omega
    · exact hit.symm.trans hit'
  begun r t ht := by
    show r < m'.hist.nextCall
    rcases (hmade r t).1 ht with ht | ⟨-, -, hnext⟩
    · have hlt := h.begun r t ht
      rcases nextCall_step hx with heq | ⟨heq, -⟩ <;> omega
    · omega
  here _ ht _ hin := h.here_exec hf hi hmade hx ht hin
  raised _ ht _ hin hpc := h.raised_exec hf hi hx ht hin hpc
  tracks t ht hnone := by
    by_cases hsw : switches (s.pc (s.mem.running l.thread)) = true
    · by_cases hti : t = l.thread
      · subst hti
        exact h.tracks_switch hf hc hi hmade hx hsw hnone
      · exact h.tracks_switch_other hf hc hi hmade hx hg hsw ht hti hnone
    · exact h.tracks_stay hf hc hi hmade hx hg (by simpa using hsw) ht hnone
  asleep _ ht hpc := h.asleep_exec hf hi hx ht hpc

theorem start (cfg : Config) (hmade : ∀ r t, ¬ made r t) : FlagInv cfg made (start cfg) := by
  have hpc : ∀ a, callPhase ((Scheduler.start cfg).pc a) = .none ∧
      (Scheduler.start cfg).pc a ≠ .eventWait := by
    intro a
    rw [start_pc]
    split
    · exact ⟨rfl, by simp⟩
    · split <;> exact ⟨rfl, by simp⟩
  constructor
  · intro r t t' ht
    exact absurd ht (hmade r t)
  · intro r t ht
    exact absurd ht (hmade r t)
  · intro t _ w hin
    exact absurd (hpc _).1 hin.not_none
  · intro t _ w hin
    exact absurd (hpc _).1 hin.not_none
  · intro t _ _
    apply iff_of_false
    · intro hup
      cases hup
    · rintro ⟨g, w, -, hr⟩
      exact hmade _ _ hr
  · intro t _ hp
    exact absurd hp (hpc _).2

end FlagInv

end Steps

/-! ## Runs -/

/-- Call `r` was begun on thread `t` in the first `k` steps. -/
def BegunOn (σ : Nat → State) (ℓ : Nat → Label) (k r t : Nat) : Prop :=
  ∃ j, j < k ∧ (ℓ j).thread = t ∧ (σ j).mem.hist.nextCall = r ∧ (σ (j + 1)).mem.hist.nextCall = r + 1

theorem BegunOn.next (σ : Nat → State) (ℓ : Nat → Label) (k : Nat) :
    MadeNext (BegunOn σ ℓ k) (BegunOn σ ℓ (k + 1)) (σ k).mem (σ (k + 1)).mem (ℓ k).thread := by
  intro r t
  constructor
  · rintro ⟨j, hj, ht, hr, hr'⟩
    rcases Nat.lt_or_eq_of_le (Nat.le_of_lt_succ hj) with hlt | rfl
    · exact Or.inl ⟨j, hlt, ht, hr, hr'⟩
    · exact Or.inr ⟨ht, hr, hr'⟩
  · rintro (⟨j, hj, ht, hr, hr'⟩ | ⟨ht, hr, hr'⟩)
    · exact ⟨j, Nat.lt_succ_of_lt hj, ht, hr, hr'⟩
    · exact ⟨k, Nat.lt_succ_self k, ht, hr, hr'⟩

/-- The flag of a thread that runs other code than `wait` says whether a fiber is suspended
in a wait made on the thread, and a thread only sleeps while there is none. -/
structure FlagTracks (cfg : Config) (made : Nat → Nat → Prop) (s : State) : Prop where
  flag : ∀ t, t < cfg.numThreads → callPhase (s.pc (s.mem.running t)) = .none →
    (s.mem.isThreadWaiting t = true ↔ WaitsOn cfg made s t)
  sleeps : ∀ t, t < cfg.numThreads → s.pc (s.mem.running t) = .eventWait → ¬ WaitsOn cfg made s t

theorem FlagInv.flagTracks {cfg : Config} {made : Nat → Nat → Prop} {s : State}
    (h : FlagInv cfg made s) : FlagTracks cfg made s where
  flag := h.tracks
  sleeps t ht hp hwaits := by
    have hdown := h.asleep t ht hp
    rw [(h.tracks t ht (by rw [hp]; rfl)).2 hwaits] at hdown
    cases hdown

/-- While no flag is cleared over another wait, and no fiber is resumed away from the only
wait of a thread, the flags track the suspended waits. -/
theorem flagTracks_of_run {cfg : Config} (hcfg : cfg.Ok) {σ : Nat → State} {ℓ : Nat → Label}
    {n : Nat} (h : Run (step cfg) (start cfg) σ ℓ n)
    (hg : ∀ k, k < n → Undisturbed cfg (BegunOn σ ℓ k) (σ k) (ℓ k)) :
    ∀ k, k ≤ n → FlagTracks cfg (BegunOn σ ℓ k) (σ k) := by
  have hbase := h.invariant (I := BaseInv cfg) (.start hcfg) fun s l s' hI hs => hI.step hs
  have hinv : ∀ k, k ≤ n → FlagInv cfg (BegunOn σ ℓ k) (σ k) := by
    intro k
    induction k with
    | zero =>
        intro _
        rw [h.start]
        apply FlagInv.start
        rintro r t ⟨j, hj, -⟩
        omega
    | succ k ih =>
        intro hk
        obtain ⟨-, hi, m', p', hx, hnext⟩ := step_eq_some.1 (h.next k hk)
        have hmade := BegunOn.next σ ℓ k
        have hbase := hbase k (by omega)
        rw [hnext] at hmade ⊢
        exact (ih (by omega)).exec hbase.fibers hbase.calls hi (hg k hk) hmade hx
  intro k hk
  exact (hinv k hk).flagTracks

/-! ## The condition computed -/

def suspended (p : PC) : Bool :=
  match callPhase p with
  | .suspended _ => true
  | _ => false

/-- Whether nobody is suspended in `wait` where the step clears a flag. -/
def undisturbed (s : State) (l : Label) : Bool :=
  match s.pc (s.mem.running l.thread) with
  | .waitDone _ => !somePC suspended s
  | _ => true

/-- On a single thread no fiber is resumed away from its thread. -/
theorem Undisturbed.of_undisturbed {cfg : Config} {σ : Nat → State} {ℓ : Nat → Label} {k : Nat}
    (hthread : ∀ j, (ℓ j).thread = 0) (h : undisturbed (σ k) (ℓ k) = true) :
    Undisturbed cfg (BegunOn σ ℓ k) (σ k) (ℓ k) where
  cleared w hp := by
    rintro ⟨g, v, ⟨hphase, -⟩, -⟩
    simp only [undisturbed, hp, Bool.not_eq_true'] at h
    have hno := not_of_somePC_false h g
    rw [suspended, hphase] at hno
    cases hno
  away g src w t _ _ hmade _ ht := by
    obtain ⟨j, -, hj, -⟩ := hmade
    exact absurd (hj.symm.trans ((hthread j).trans (hthread k).symm)) ht

theorem flagTracks_pool : FlagTracks pairConfig
    (BegunOn (trace (step pairConfig) (start pairConfig) (goes 0 7 ++ poolLabels 61))
      (fun k => (goes 0 7 ++ poolLabels 61).getD k ⟨0, .go⟩) 130)
    (trace (step pairConfig) (start pairConfig) (goes 0 7 ++ poolLabels 61) 130) := by
  have hrun : follows (step pairConfig) undisturbed (start pairConfig) (goes 0 7 ++ poolLabels 61) =
      true := by decide +kernel
  have hall : ∀ l ∈ goes 0 7 ++ poolLabels 61, l.thread = 0 := by decide +kernel
  have hthread : ∀ j, ((goes 0 7 ++ poolLabels 61).getD j ⟨0, .go⟩).thread = 0 := by
    intro j
    rw [List.getD_eq_getElem?_getD]
    cases hj : (goes 0 7 ++ poolLabels 61)[j]? with
    | none => rfl
    | some l => exact hall l (List.mem_of_getElem? hj)
  exact flagTracks_of_run pairConfig_ok (Run.of_follows ⟨0, .go⟩ hrun)
    (fun k hk => .of_undisturbed hthread (trace_ok ⟨0, .go⟩ hrun k hk)) 130 (by decide +kernel)

/-! ## A flag that is cleared too early

The main task waits on thread `0` for a task it has submitted.  The task runs on the same
thread and makes a wait that is over at once. -/

def nestedLabels : List Label :=
  goes 0 7 ++ calls 0 (.submit 0 1) 38 ++ [⟨0, .handle 0⟩] ++ goes 0 38 ++
    calls 0 (.waitFor 0 true) 28 ++ calls 0 .acquire 38 ++ [⟨0, .handle 1⟩] ++
    calls 0 (.waitOn 1 false 0) 12

/-- The flag is down while the main task is still suspended. -/
theorem not_flagTracks :
    ¬ ∀ (cfg : Config), cfg.Ok → ∀ (σ : Nat → State) (ℓ : Nat → Label) (n : Nat),
      Run (step cfg) (start cfg) σ ℓ n → ∀ k, k ≤ n → FlagTracks cfg (BegunOn σ ℓ k) (σ k) := by
  intro h
  have hrun : follows (step pairConfig) (fun _ _ => true) (start pairConfig) nestedLabels = true := by
    decide +kernel
  have htracks := h pairConfig pairConfig_ok _ _ _ (Run.of_follows ⟨0, .go⟩ hrun) 167
    (by decide +kernel)
  let s := trace (step pairConfig) (start pairConfig) nestedLabels 167
  have hphase : ∃ w, callPhase (s.pc 0) = .suspended w ∧ w.call = 0 := ⟨_, rfl, rfl⟩
  obtain ⟨w, hw, hcall⟩ := hphase
  have hwaits : WaitsOn pairConfig (BegunOn (trace (step pairConfig) (start pairConfig) nestedLabels)
      (fun k => nestedLabels.getD k ⟨0, .go⟩) 167) s 0 := by
    refine ⟨0, w, ⟨hw, by decide +kernel⟩, 85, by decide, ?_⟩
    rw [hcall]
    decide +kernel
  have hup := (htracks.flag 0 (by decide) (by rfl)).2 hwaits
  have hdown : s.mem.isThreadWaiting 0 = false := by decide +kernel
  exact Bool.false_ne_true (hdown.symm.trans hup)

end TaskDispatcher.Scheduler
