import TaskDispatcher.Scheduler.EarlyWakes
import TaskDispatcher.Scheduler.LostWakes
import TaskDispatcher.Scheduler.Startup

/-!
# Runs without races

What a disciplined program keeps on any number of threads as long as no waiter takes a slot
that somebody stands at, and no wake-up is dropped by the queue it is put into.
-/

namespace TaskDispatcher.Scheduler

open TaskDispatcher.Library TaskDispatcher.Container

/-! ## Calls and their handles -/

/-- The call waits for zero on the live handle that its sync holds. -/
structure HeldBySync (s : State) (w : WaitCall) (sync h : Nat) (x : HandleContent) : Prop where
  named : w.sync = some sync
  held : s.mem.syncs sync = some h
  live : s.mem.handles h = some x
  own : x.sync = some sync
  counter : x.counterIndex = w.counter
  life : x.life = w.life
  target : w.target = 0

def CallHeld (s : State) (w : WaitCall) : Prop := ∃ sync h x, HeldBySync s w sync h x

def CallsHeld (s : State) : Prop :=
  ∀ a w, (callPhase (s.pc a)).call = some w → CallHeld s w

section Steps

variable {own : Nat → Nat} {cfg : Config} {s s' : State} {m m' : Mem} {i f c : Nat} {ch : Choice}
  {p p' : PC} {l : Label}

theorem syncRole_of_call {w : WaitCall} (h : (callPhase p).call = some w) : syncRole p = w.role := by
  cases p with
  | idleDeq k pc => cases k <;> first | (cases h; rfl) | cases h
  | yieldTo g k => cases k <;> first | (cases h; rfl) | cases h
  | clean k => rcases k with _ | (_ | _) <;> first | (cases h; rfl) | cases h
  | idleEnq k v pc => rcases k with _ | (_ | _) <;> first | (cases h; rfl) | cases h
  | waitStore v =>
      cases h
      rfl
  | add v j pc =>
      cases h
      rfl
  | waitDone v =>
      cases h
      rfl
  | _ => cases h

/-- In a disciplined program every call is one of `wait_for`, on a sync of its fiber. -/
theorem AccountInv.waits_of_call (h : AccountInv own s) {a : Nat} {w : WaitCall}
    (ha : (callPhase (s.pc a)).call = some w) :
    ∃ sync, w.sync = some sync ∧ syncRole (s.pc a) = .waits sync ∧ own sync = a := by
  have hrole := h.role a
  rw [syncRole_of_call ha] at hrole ⊢
  unfold WaitCall.role at hrole ⊢
  cases hsync : w.sync with
  | none =>
      rw [hsync] at hrole
      exact absurd hrole id
  | some sync =>
      rw [hsync] at hrole
      exact ⟨sync, rfl, rfl, hrole⟩

/-- A sync and its handle stay until the owner gives the handle back. -/
theorem SyncStep.kept (hx : SyncStep own s f m' p') (h : AccountInv own s) {sync k : Nat}
    {x : HandleContent} (hreleases : ∀ k c, syncRole (s.pc (own sync)) ≠ .releases k c sync)
    (hreturns : syncRole (s.pc (own sync)) ≠ .returns sync) (hk : s.mem.syncs sync = some k) (hlive : s.mem.handles k = some x)
    (hsync : x.sync = some sync) : m'.syncs sync = some k ∧ m'.handles k = some x := by
  have hown := h.role f
  have hsame : syncPart m' = syncPart s.mem → m'.syncs sync = some k ∧ m'.handles k = some x := by
    intro hpart
    simp only [syncPart, Prod.mk.injEq] at hpart
    rw [hpart.1, hpart.2.1]
    exact ⟨hk, hlive⟩
  cases hx with
  | quiet hpart _ _ => exact hsame hpart
  | acquires _ _ _ hpart _ _ => exact hsame hpart
  | submits _ _ _ _ _ hpart _ _ _ _ => exact hsame hpart
  | waits _ _ _ hpart _ => exact hsame hpart
  | waited _ _ _ _ hpart _ => exact hsame hpart
  | tested _ _ _ _ hpart => exact hsame hpart
  | onTarget _ _ _ _ _ hpart _ _ => exact hsame hpart
  | released j c sync' y hbefore _ hy hpart =>
      simp only [syncPart, Prod.mk.injEq] at hpart
      rw [hbefore] at hown
      obtain ⟨hf, -, z, hz, hzsync, -⟩ := hown
      have hne : k ≠ j := by
        intro heq
        rw [← heq, hlive] at hz
        cases hz
        rw [hsync] at hzsync
        cases hzsync
        rw [hf] at hreleases
        exact hreleases j c hbefore
      rw [hpart.1, hpart.2.1]
      exact ⟨hk, (Table.get_set_ne _ _ hne).trans hlive⟩
  | returned sync' hbefore _ hpart =>
      simp only [syncPart, Prod.mk.injEq] at hpart
      rw [hbefore] at hown
      have hne : sync ≠ sync' := by
        intro heq
        rw [heq, hown.1] at hreturns
        exact hreturns hbefore
      rw [hpart.1, hpart.2.1]
      exact ⟨(Table.get_set_ne _ _ hne).trans hk, hlive⟩
  | acquired d j num sync' hp _ hnone hpart =>
      simp only [syncPart, Prod.mk.injEq] at hpart
      rw [hp] at hown
      have hne : sync ≠ sync' := by
        intro heq
        rw [heq, hown.2] at hk
        cases hk
      have hne' : k ≠ j := by
        intro heq
        rw [heq, hnone] at hlive
        cases hlive
      rw [hpart.1, hpart.2.1]
      exact ⟨(Table.get_set_ne _ _ hne).trans hk, (Table.get_set_ne _ _ hne').trans hlive⟩
  | announced inc num sync' _ _ _ hpart =>
      simp only [syncPart, Prod.mk.injEq] at hpart
      rw [hpart.1, hpart.2.1]
      exact ⟨hk, hlive⟩
  | done inc n _ _ _ hpart =>
      simp only [syncPart, Prod.mk.injEq] at hpart
      rw [hpart.1, hpart.2.1]
      exact ⟨hk, hlive⟩

/-- A call of `wait_for` begins with the handle that its sync holds. -/
theorem begin_held {w : WaitCall} (hx : exec cfg m i f ch .body = some (m', .waitStore w))
    (hd : ∀ u, ch = .call u → Permitted own m f u) :
    ∃ sync h x, w.sync = some sync ∧ own sync = f ∧ m.syncs sync = some h ∧
      m.handles h = some x ∧ x.counterIndex = w.counter ∧ x.life = w.life ∧ w.target = 0 ∧
      m'.syncs = m.syncs ∧ m'.handles = m.handles := by
  simp only [exec] at hx
  split at hx
  · rename_i u
    have hperm := hd u rfl
    cases u with
    | waitFor sync pinned =>
        simp only [userStep, beginWait] at hx
        split at hx
        · cases hx
        · rename_i h hsync
          split at hx
          · rename_i x hlive
            cases hx
            exact ⟨sync, h, x, rfl, hperm, hsync, hlive, rfl, rfl, rfl, rfl, rfl⟩
          · cases hx
    | submit sync num =>
        simp only [userStep, submitTasks] at hx
        (repeat' split at hx) <;> cases hx
    | ret =>
        simp only [userStep] at hx
        split at hx <;> cases hx
    | _ => exact absurd hperm id
  · cases hx

/-- A call that goes on finds its sync and its handle as they were. -/
theorem CallHeld.exec {a : Nat} {w : WaitCall} (h : CallHeld s w) (haccount : AccountInv own s)
    (ha : (callPhase (s.pc a)).call = some w) (hsync : SyncStep own s f m' p') :
    CallHeld ⟨m', s.pc.set f p'⟩ w := by
  obtain ⟨sync, k, x, h⟩ := h
  obtain ⟨sync', hw', hrole, hown⟩ := haccount.waits_of_call ha
  have heq : sync' = sync := by
    rw [h.named] at hw'
    exact (Option.some.inj hw').symm
  rw [heq] at hrole hown
  have hrole' : syncRole (s.pc (own sync)) = .waits sync := by
    rw [hown]
    exact hrole
  have hkept := hsync.kept haccount (by simp [hrole']) (by simp [hrole']) h.held h.live h.own
  exact ⟨sync, k, x, { h with held := hkept.1, live := hkept.2 }⟩

theorem CallsHeld.step (h : CallsHeld s) (haccount : AccountInv own s) (hd : Disciplined own s l)
    (hs : Scheduler.step cfg s l = some s') : CallsHeld s' := by
  obtain ⟨-, -, m', p', hx, rfl⟩ := step_eq_some.1 hs
  have hforeign : syncRole (s.pc (s.mem.running l.thread)) ≠ .foreign := by
    intro heq
    have hrole := haccount.role (s.mem.running l.thread)
    rw [heq] at hrole
    exact hrole
  have hsync := exec_sync hforeign hd hx
  have hgoes : ∀ a w, (callPhase (s.pc a)).call = some w →
      CallHeld ⟨m', s.pc.set (s.mem.running l.thread) p'⟩ w :=
    fun a w ha => (h a w ha).exec haccount ha hsync
  intro a w ha
  replace ha : (callPhase ((s.pc.set (s.mem.running l.thread) p') a)).call = some w := ha
  by_cases haf : a = s.mem.running l.thread
  · rw [haf, Table.get_set_self] at ha
    cases exec_call hx with
    | same hphase _ =>
        rw [hphase] at ha
        exact hgoes _ w ha
    | begin v hp _ _ hp' _ =>
        subst hp'
        cases ha
        rw [hp] at hx
        obtain ⟨sync, k, x, hw, hown, hk, hlive, hcounter, hlife, htarget,
            hsyncs, hhandles⟩ :=
          begin_held hx (fun u hu => hd u hp hu)
        have hknown := haccount.known sync k hk
        have hquiet : syncRole (s.pc (own sync)) ≠ .returns sync := by
          rw [hown, hp]
          intro heq
          cases heq
        obtain ⟨y, hy, hysync⟩ := hknown.resolve_right hquiet
        rw [hlive] at hy
        cases hy
        refine ⟨sync, k, x, hw, ?_, ?_, hysync, hcounter, hlife, htarget⟩
        · exact (congrArg (fun t : Table (Option Nat) => t sync) hsyncs).trans hk
        · exact (congrArg (fun t : Table (Option HandleContent) => t k) hhandles).trans hlive
    | added v j pc b hp hp' _ =>
        have hv : (callPhase p').call = some v := by
          rw [hp']
          cases b <;> rfl
        rw [hv] at ha
        cases ha
        apply hgoes (s.mem.running l.thread)
        rw [hp]
        rfl
    | woken v hp hp' _ =>
        rw [hp'] at ha
        cases ha
        apply hgoes (s.mem.running l.thread)
        rw [hp]
        rfl
    | ended v _ hnone _ =>
        rw [hnone] at ha
        cases ha
  · rw [Table.get_set_ne _ _ haf] at ha
    exact hgoes a w ha

theorem CallsHeld.start (cfg : Config) : CallsHeld (start cfg) := by
  intro a w ha
  rw [start_pc] at ha
  split at ha
  · cases ha
  · split at ha <;> cases ha

/-! ## A counter without a waiter -/

/-- Who has registered at a counter keeps its handle alive. -/
theorem CallsHeld.owned (h : CallsHeld s) {a : Nat} {w : WaitCall}
    (ha : (callPhase (s.pc a)).call = some w) : Owned w.counter s := by
  obtain ⟨sync, k, x, hheld⟩ := h a w ha
  exact ⟨k, x, hheld.live, hheld.counter⟩

theorem WaitInv.owned_of_unused (h : WaitInv cfg s) (hcalls : CallsHeld s) {j : Nat}
    (hj : (s.mem.slot c j).inUse = false) : Owned c s := by
  obtain ⟨w, hw⟩ := (h.slots c).unused j hj
  have htoken : regAt s (.slot c j) = some (s.mem.slot c j).reg := by
    simp only [regAt, WaitingFiber.token, hj, Bool.false_eq_true, if_false]
  obtain ⟨v, hv, hwaits⟩ := h.regs.waits _ _ htoken
  rw [hw.call] at hv
  cases hv
  rw [← hw.counter]
  exact hcalls.owned hwaits.inside

theorem owned_of_fill (hcalls : CallsHeld s) {a j : Nat} {w : WaitCall} {pc : AddPC}
    (ha : stance (s.pc a) = some ((c, j), .fill w pc)) : Owned c s := by
  have hin : (callPhase (s.pc a)).call = some w ∧ w.counter = c := by
    generalize s.pc a = q at ha
    cases q with
    | add v k q => cases q <;> cases ha <;> exact ⟨rfl, rfl⟩
    | scan x k q => cases q <;> cases ha
    | pin x k reg t q => cases q <;> cases ha
    | resEnq k v q => cases k <;> cases ha
    | _ => cases ha
  rw [← hin.2]
  exact hcalls.owned hin.1

/-- Resetting a counter nobody waits on. -/
theorem CoverInv.reset (h : CoverInv c s) (hunused : ∀ j, (s.mem.slot c j).inUse = true)
    (hfill : ∀ a j w pc, stance (s.pc a) ≠ some ((c, j), .fill w pc))
    (hslot : m'.slot = s.mem.slot) (hhist : m'.hist = s.mem.hist)
    (hp : stance (s.pc f) = none) (hp' : stance p' = none)
    (hadd : ∀ w j pc, p' ≠ .add w j pc) :
    CoverInv c ⟨m', s.pc.set f p'⟩ := by
  have hused : ∀ j, (Mem.slot m' c j).inUse ≠ false := by
    intro j hj
    rw [hslot, hunused j] at hj
    cases hj
  have hstance : ∀ a, stance ((s.pc.set f p') a) = stance (s.pc a) := by
    intro a
    rw [Table.get_set]
    split
    · rename_i haf
      rw [haf, hp, hp']
    · rfl
  constructor
  · intro j hj
    exact absurd hj (hused j)
  · intro a j w pc ha
    replace ha : stance ((s.pc.set f p') a) = some ((c, j), .fill w pc) := ha
    rw [hstance a] at ha
    exact absurd ha (hfill a j w pc)
  · intro j hj
    exact absurd hj (hused j)
  · intro j hj
    exact absurd hj (hused j)
  · intro w hw hcounter hsigned hpushes hadded
    replace hw : m'.hist.call w.call = some w := hw
    replace hpushes : m'.hist.pushes w.call = 0 := hpushes
    replace hadded : m'.hist.added w.call ≠ some true := hadded
    rw [hhist] at hw hpushes hadded
    have hsigned' : Signed s w := by
      rcases hsigned with ⟨j, pc, hpc, hadds⟩ | hadded'
      · left
        refine ⟨j, pc, hpc, ?_⟩
        replace hadds : (s.pc.set f p') w.fiber = .add w j pc := hadds
        rw [Table.get_set] at hadds
        split at hadds
        · exact absurd hadds (hadd w j pc)
        · exact hadds
      · right
        replace hadded' : m'.hist.added w.call ≠ none := hadded'
        rwa [hhist] at hadded'
    rcases h.located w hw hcounter hsigned' hpushes hadded with ⟨a, j, q, ha, hq⟩ | ⟨j, hj⟩
    · exact Or.inl ⟨a, j, q, (hstance a).trans ha, hq⟩
    · right
      refine ⟨j, ?_⟩
      show (Mem.slot m' c j).token = some w.call
      rw [hslot]
      exact hj

/-! ## The invariant -/

structure Raceless (own : Nat → Nat) (cfg : Config) (s : State) : Prop where
  run : RunInv cfg s
  wait : WaitInv cfg s
  capacity : CapacityInv cfg s
  range : SlotRange s
  task : TaskState own cfg s
  calls : CallsHeld s
  cover : ∀ c, CoverInv c s
  pushes : PushInv s

namespace Raceless

theorem cover_step (h : Raceless own cfg s) (hspaced : ∀ c, ScanSpaced c s l)
    (hs : Scheduler.step cfg s l = some s') (c : Nat) : CoverInv c s' := by
  obtain ⟨-, -, m', p', hx, rfl⟩ := step_eq_some.1 hs
  have hfree : counterHand s.mem.freeCounters (s.pc (s.mem.running l.thread)) = some c →
      ¬ Owned c s := fun hhand howned => howned.not_hand h.capacity.counters hhand
  have hunused : ¬ Owned c s → ∀ j, (s.mem.slot c j).inUse = true := by
    intro hnot j
    by_contra hj
    exact hnot (h.wait.owned_of_unused h.calls (Bool.eq_false_of_not_eq_true hj))
  have hfill : ¬ Owned c s → ∀ a j w pc, stance (s.pc a) ≠ some ((c, j), .fill w pc) :=
    fun hnot a j w pc ha => hnot (owned_of_fill h.calls ha)
  by_cases hcount : ∃ k, s.pc (s.mem.running l.thread) = .resetCount c k
  · obtain ⟨k, hp⟩ := hcount
    have hnot := hfree (by rw [hp]; rfl)
    rw [hp] at hx
    cases hx
    apply (h.cover c).reset (hunused hnot) (hfill hnot)
    · exact slot_same (d := c) (a := { s.mem.counters c with count := 0 }) rfl fun _ => rfl
    · rfl
    · rw [hp]
      rfl
    · rfl
    · intro w j pc hadd
      cases hadd
  · by_cases hslot : ∃ j k, s.pc (s.mem.running l.thread) = .resetSlot c j k
    · obtain ⟨j, k, hp⟩ := hslot
      have hnot := hfree (by rw [hp]; rfl)
      rw [hp] at hx
      cases hx
      apply (h.cover c).reset (hunused hnot) (hfill hnot)
      · exact slot_same (d := c) (a := (s.mem.counters c).setFree j true) rfl fun _ => rfl
      · rfl
      · rw [hp]
        rfl
      · split <;> rfl
      · intro w j' pc hadd
        split at hadd <;> cases hadd
    · exact (h.cover c).exec (h.wait.slots c) h.wait.slots h.wait.calls h.range
        ((hspaced c).not_drops h.wait h.capacity) (fun k hp => hcount ⟨k, hp⟩)
        (fun j k hp => hslot ⟨j, k, hp⟩) hx

theorem step (h : Raceless own cfg s) (hvacant : ∀ c, Vacant c s l)
    (hspaced : ∀ c, ScanSpaced c s l) (hd : Disciplined own s l)
    (hs : Scheduler.step cfg s l = some s') : Raceless own cfg s' := by
  have honce : ReturnedOnce s l := fun k v pc hpc hclaimed pos u hu =>
    h.wait.not_queued hpc hclaimed hu
  have hrange : SlotRange s' ∧ PushInv s' := by
    obtain ⟨-, -, m', p', hx, rfl⟩ := step_eq_some.1 hs
    exact ⟨slotRange_exec h.range hx,
      h.pushes.exec h.wait.regs h.wait.queues h.wait.calls h.wait.slots hx⟩
  exact
    { run := h.run.step hs
      wait := h.wait.step hvacant hs
      capacity := h.capacity.step honce hs
      range := hrange.1
      task := h.task.step hd hs
      calls := h.calls.step h.task.account hd hs
      cover := h.cover_step hspaced hs
      pushes := hrange.2 }

theorem start (hcfg : cfg.Ok) : Raceless own cfg (start cfg) := by
  have hwait : WaitInv cfg (Scheduler.start cfg) := .start hcfg
  have hentry : ∀ a, (Scheduler.start cfg).pc a = .entry ∨
      (Scheduler.start cfg).pc a = .idleDeq .start .load ∨ (Scheduler.start cfg).pc a = .done := by
    intro a
    rw [start_pc]
    split
    · exact Or.inl rfl
    · split
      · exact Or.inr (Or.inl rfl)
      · exact Or.inr (Or.inr rfl)
  constructor
  · constructor
    · exact .start hcfg
    · exact hwait.fibers
    · exact .start hcfg
    · intro a ha
      rw [start_pc, if_neg (by omega), if_neg (by omega)]
  · exact hwait
  · exact .start hcfg
  · intro a w j pc ha
    rcases hentry a with heq | heq | heq <;> rw [heq] at ha <;> cases ha
  · exact ⟨.start hcfg, .start own cfg⟩
  · exact .start cfg
  · intro c
    apply CoverInv.of_untouched (fun r w hr => ?_) (hwait.slots c) hwait.calls
    cases hr
  · exact .start cfg

end Raceless

end Steps

end TaskDispatcher.Scheduler
