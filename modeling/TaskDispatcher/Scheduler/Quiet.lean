import TaskDispatcher.Scheduler.Deliveries
import TaskDispatcher.Scheduler.Joins
import TaskDispatcher.Scheduler.SingleThread

/-!
# How a single thread hands on a wake-up

The scan that ends a task finds at most one waiter, and the fiber that made it looks
into the queues next.  So at most one wake-up is ever queued, the queues are empty
wherever a task body runs, and who is taken out of them can always be resumed.
-/

namespace TaskDispatcher.Scheduler

open TaskDispatcher.Library TaskDispatcher.Container

/-- The scanner has claimed its slot and not pushed the registration. -/
def ScanPC.holding : ScanPC → Bool
  | .pinned _ => true
  | .fiber _ => true
  | _ => false

/-- Where the thread may stand while a wake-up lies in `mResumableFibers`. -/
def mayResumable : PC → Bool
  | .resEnq _ _ pc => pc.claimed
  | .scan x _ pc => !x.k.byBody && !pc.holding
  | .loop => true
  | .getLock => true
  | .getPop => true
  | .getUnlock none => true
  | .resDeq pc => pc.claimed.isNone
  | .exitSwitch => true
  | .done => true
  | _ => false

/-- Where the thread may stand while a wake-up lies in its own queue. -/
def mayPinned : PC → Bool
  | .pin _ _ _ _ .unlock => true
  | .scan x _ pc => !x.k.byBody && !pc.holding
  | .loop => true
  | .getLock => true
  | .getPop => true
  | .exitSwitch => true
  | .done => true
  | _ => false

/-- A scan of a submission finds nobody on its value, and nobody is put back. -/
def Steady : PC → Prop
  | .scan x _ (.claim _) => x.k.byBody = false
  | .scan x _ (.pinned _) => x.k.byBody = false
  | .scan x _ (.fiber _) => x.k.byBody = false
  | .scan x _ (.release _) => x.k.byBody = false
  | .scan x _ _ => x.k.byBody = true → 0 < x.value
  | .pin x _ _ t _ => x.k.byBody = false ∧ t = 0
  | .resEnq (.scan x _) _ _ => x.k.byBody = false
  | .resEnq .getNextTask _ _ => False
  | .reLock _ => False
  | .rePush _ => False
  | .reUnlock => False
  | _ => True

/-- What lies in `mResumableFibers`, and in the queue of the thread. -/
def resumableLength (m : Mem) : Nat := m.resumableFibers.log.length - m.resumableFibers.dequeuePos

def pinnedLength (m : Mem) : Nat :=
  (m.threads 0).pinnedResumableFibers.log.length - (m.threads 0).pinnedResumableFibers.taken

/-- The wake-up is in one of the two queues. -/
def Queued (m : Mem) (v : Wake) : Prop :=
  (∃ pos, m.resumableFibers.entry pos = some v) ∨
    ∃ k, (m.threads 0).pinnedResumableFibers.entry k = some v

structure QuietInv (s : State) : Prop where
  resumable : mayResumable (s.pc (s.mem.running 0)) = false → resumableLength s.mem = 0
  pinned : mayPinned (s.pc (s.mem.running 0)) = false → pinnedLength s.mem = 0
  one : resumableLength s.mem + pinnedLength s.mem ≤ 1
  /-- the wake-up that is queued during a scan comes from the counter that is scanned -/
  scanned : ∀ x v w, walk (s.pc (s.mem.running 0)) = some x → Queued s.mem v →
    s.mem.hist.call v.reg = some w → w.counter = x.counter
  steady : Steady (s.pc (s.mem.running 0))
  plain : ∀ r w, s.mem.hist.call r = some w → w.target = 0 ∧ ∀ t, w.pinned = some t → t = 0

section Steps

variable {own : Nat → Nat} {cfg : Config} {s s' : State} {m m' : Mem} {i f c : Nat} {ch : Choice}
  {p p' : PC} {l : Label}

theorem Still.lengths (h : Still m m') :
    resumableLength m' = resumableLength m ∧ pinnedLength m' = pinnedLength m := by
  unfold resumableLength pinnedLength
  rw [h.resumable, h.pinned]
  exact ⟨rfl, rfl⟩

theorem Still.queued (h : Still m m') (v : Wake) : Queued m' v ↔ Queued m v := by
  unfold Queued
  rw [h.resumable, h.pinned]

/-- A queued wake-up counts. -/
theorem length_of_queued {v : Wake} (h : Queued m v) :
    0 < resumableLength m ∨ 0 < pinnedLength m := by
  unfold resumableLength pinnedLength
  rcases h with ⟨pos, hpos⟩ | ⟨k, hk⟩
  · left
    unfold Mpmc.entry at hpos
    split at hpos
    · have hlt := (List.getElem?_eq_some_iff.1 hpos).1
      omega
    · cases hpos
  · right
    unfold Fifo.entry at hk
    split at hk
    · have hlt := (List.getElem?_eq_some_iff.1 hk).1
      omega
    · cases hk

/-- An access that does not touch the queues only goes on to where a wake-up may lie
in them, unless a scanner claims a slot or the thread switches. -/
theorem may_step (hx : exec cfg m i f ch p = some (m', p')) (hp : handles p = false)
    (hsw : switches p = false) (hclaim : ∀ x j reg, p ≠ .scan x j (.claim reg))
    (hsteady : Steady p) :
    (mayResumable p' = false → mayResumable p = false) ∧
      (mayPinned p' = false → mayPinned p = false) := by
  cases p with
  | resEnq k v pc => cases hp
  | resDeq pc => cases hp
  | getPop => cases hp
  | rePush v => cases hp
  | exitSwitch => cases hsw
  | done => cases hx
  | loop =>
      simp only [exec, Option.some.injEq, Prod.mk.injEq] at hx
      rw [← hx.2]
      constructor <;> intro hfalse <;> split at hfalse <;> cases hfalse
  | getLock =>
      simp only [exec] at hx
      split at hx <;> cases hx <;> exact ⟨id, id⟩
  | getUnlock got =>
      cases hx
      cases got with
      | none =>
          constructor
          · intro hfalse
            cases hfalse
          · exact id
      | some v => exact ⟨id, id⟩
  | scan x j pc =>
      obtain ⟨a, r, hmove, -, rfl⟩ := exec_scan hx
      have hskip : (mayResumable (nextSlot x j) = false → x.k.byBody = true) ∧
          (mayPinned (nextSlot x j) = false → x.k.byBody = true) := by
        unfold nextSlot
        split
        · simp [mayResumable, mayPinned, ScanPC.holding]
        · cases x.k <;> simp [afterScan, mayResumable, mayPinned, ScanK.byBody, enqueueNext]
      have hbody : x.k.byBody = true → mayResumable (.scan x j pc) = false ∧
          mayPinned (.scan x j pc) = false := by
        intro heq
        simp [mayResumable, mayPinned, heq]
      have hgoes : (mayResumable (nextSlot x j) = false → mayResumable (.scan x j pc) = false) ∧
          (mayPinned (nextSlot x j) = false → mayPinned (.scan x j pc) = false) :=
        ⟨fun hfalse => (hbody (hskip.1 hfalse)).1, fun hfalse => (hbody (hskip.2 hfalse)).2⟩
      cases hmove with
      | won _ => exact absurd rfl (hclaim x j _)
      | free _ => exact hgoes
      | used _ => exact hgoes
      | offTarget _ => exact hgoes
      | lost _ => exact hgoes
      | release => exact hgoes
      | occupied _ => exact ⟨id, id⟩
      | unused _ => exact ⟨id, id⟩
      | onTarget _ => exact ⟨id, id⟩
      | unpinned _ => exact ⟨id, id⟩
      | pinned _ => simp [mayResumable, mayPinned, ScanPC.holding]
      | fiber => simp [mayResumable, mayPinned, ScanPC.holding]
  | pin x j reg t pc =>
      cases pc with
      | lock =>
          simp only [exec, pinStep] at hx
          split at hx <;> cases hx <;> exact ⟨id, id⟩
      | push => cases hp
      | unlock =>
          cases hx
          have hbody : x.k.byBody = false := hsteady.1
          constructor
          · intro _
            rfl
          · intro hfalse
            simp [mayPinned, hbody, ScanPC.holding] at hfalse
  | yieldTo g k => cases hsw
  | startSwitch g => cases hsw
  | _ => exact ⟨fun _ => rfl, fun _ => rfl⟩

/-- A dequeue that finds nothing, while no enqueue is between its claim and its
publication, meets an empty queue. -/
theorem empty_of_fails {T : Type} {q : Mpmc T} {caller : Nat → Caller T} (hq : Mpmc.Inv q caller)
    {a pos : Nat} (ha : caller a = .dequeue (.sequence pos))
    (hquiet : ∀ b, b ≠ a → caller b = .idle) (hfail : (q.cell pos).sequence < pos + 1) :
    q.log.length = q.dequeuePos := by
  have hpos : pos ≤ q.dequeuePos := by
    have hok := hq.ok a
    rw [ha] at hok
    exact hok
  rw [hq.log_length]
  obtain ⟨-, hempty | ⟨b, hb⟩⟩ := hq.empty_or_stalled hpos hfail
  · exact hempty
  · by_cases hba : b = a
    · rw [hba, ha] at hb
      cases hb
    · rw [hquiet b hba] at hb
      cases hb

/-! ## Who is taken out of a queue is resumed -/

/-- On one thread the fiber of a wake-up that is being handled has been cleaned up. -/
theorem SoloInv.cleanedUp (h : SoloInv own cfg s) (hone : cfg.numThreads = 1) {src : ResumeSource}
    {v : Wake} (hp : s.pc (s.mem.running 0) = .tryResume src v) :
    s.mem.isWaitingCleanedUp v.fiber = true := by
  have hhand : regAt s (.hand (s.mem.running 0)) = some v.reg := by
    show regHand _ (s.pc (s.mem.running 0)) = _
    rw [hp]
    rfl
  obtain ⟨w, hw, hwaits⟩ := h.wait.regs.waits _ _ hhand
  obtain ⟨w', hw', hfiber⟩ := h.wait.wakes.held (s.mem.running 0) v (by rw [hp]; rfl)
  rw [hw] at hw'
  cases hw'
  have hne : v.fiber ≠ s.mem.running 0 := by
    intro heq
    have hin := hwaits.inside
    rw [hfiber, heq, hp] at hin
    cases hin
  have hlt : v.fiber < cfg.numFibers := by
    rw [← hfiber]
    exact (h.wait.calls.number _ _ hw).2.1
  have hpc : ∃ w, s.pc v.fiber = .clean (.yielded (.wait w)) := by
    have hin := hwaits.inside
    rw [hfiber] at hin
    rcases h.run.parked hone hne with heq | ⟨k, heq⟩ | heq
    · rw [heq] at hin
      cases hin
    · rw [heq] at hin ⊢
      cases k with
      | wait u => exact ⟨u, rfl⟩
      | resume src => cases hin
    · rw [heq] at hin
      cases hin
  obtain ⟨u, hu⟩ := hpc
  obtain ⟨P, hP⟩ := h.recoverable.fibers v.fiber hlt
  have hrest := h.run.fibers.resting P v.fiber hP
  have hpool : ¬ PoolPC (s.pc v.fiber) := by
    rw [hu]
    intro hpool
    rcases hpool with heq | ⟨src, heq⟩ <;> cases heq
  cases P with
  | idle pos => exact absurd hrest hpool
  | hand a =>
      replace hP : fiberHand s.mem.idleFibers (s.pc a) = some v.fiber := hP
      by_cases ha : a = s.mem.running 0
      · rw [ha, hp] at hP
        cases hP
      · rcases h.run.parked hone ha with heq | ⟨k, heq⟩ | heq <;> rw [heq] at hP <;> cases hP
  | current j =>
      have hj : j < cfg.numThreads := by
        by_contra hnot
        simp [fiberAt, hnot] at hP
      have hj0 : j = 0 := by omega
      subst hj0
      have hruns := h.run.fibers.current_of_pc hj
        (by
          rw [hp]
          intro hthread
          rcases hthread with ⟨_, heq⟩ | ⟨_, heq⟩ <;> cases heq)
        (by rw [hp]; simp)
      simp only [fiberAt, if_pos hj, hruns] at hP
      exact absurd (Option.some.inj hP).symm hne
  | previous j =>
      have hj : j < cfg.numThreads := by
        by_contra hnot
        simp [fiberAt, hnot] at hP
      have hj0 : j = 0 := by omega
      subst hj0
      rw [previous_eq_none h.capacity.clean hj (by rw [hp]; rfl)] at hP
      cases hP
  | suspended g =>
      simp only [fiberAt] at hP
      split at hP
      · rename_i hflag
        rw [← Option.some.inj hP]
        exact hflag
      · cases hP

/-- Two calls in progress on one counter are the same. -/
theorem SoloInv.call_unique (h : SoloInv own cfg s) {w v : WaitCall} (hw : Waits s w)
    (hv : Waits s v) (hcounter : w.counter = v.counter) : w = v := by
  obtain ⟨z, j, x, hx⟩ := h.calls w.fiber w hw.inside
  obtain ⟨z', j', x', hx'⟩ := h.calls v.fiber v hv.inside
  obtain ⟨y, hy, -, hown⟩ := h.task.account.waits_of_call hw.inside
  obtain ⟨y', hy', -, hown'⟩ := h.task.account.waits_of_call hv.inside
  have hhandle := h.capacity.counters.handle_unique hx.live hx'.live
    (by rw [hx.counter, hx'.counter, hcounter])
  have hsync : z = z' := by
    have hlive := hx.live
    rw [hhandle, hx'.live] at hlive
    have hsame := hx.own
    rw [← Option.some.inj hlive, hx'.own] at hsame
    exact (Option.some.inj hsame).symm
  rw [hx.named] at hy
  rw [hx'.named] at hy'
  have hfiber : w.fiber = v.fiber := by
    rw [← hown, ← hown', ← Option.some.inj hy, ← Option.some.inj hy', hsync]
  have hinside := hw.inside
  rw [hfiber, hv.inside] at hinside
  exact (Option.some.inj hinside).symm

/-- A wake-up that is queued belongs to a call in progress, and to no slot. -/
theorem SoloInv.queued_call (h : SoloInv own cfg s) {v : Wake} (hv : Queued s.mem v) :
    ∃ w, s.mem.hist.call v.reg = some w ∧ Waits s w ∧
      ∀ d j, regAt s (.slot d j) ≠ some v.reg := by
  have hplace : ∃ P, regAt s P = some v.reg ∧ ∀ d j, P ≠ .slot d j := by
    rcases hv with ⟨pos, hpos⟩ | ⟨k, hk⟩
    · exact ⟨.resumable pos, by simp only [regAt, hpos, Option.map_some], by simp⟩
    · exact ⟨.pinned 0 k, by simp only [regAt, hk, Option.map_some], by simp⟩
  obtain ⟨P, hP, hslot⟩ := hplace
  obtain ⟨w, hw, hwaits⟩ := h.wait.regs.waits P v.reg hP
  refine ⟨w, hw, hwaits, fun d j hdj => ?_⟩
  exact hslot d j (h.wait.regs.linear P _ _ hP hdj)

theorem exists_queued (h : 0 < resumableLength s.mem + pinnedLength s.mem) :
    ∃ v, Queued s.mem v := by
  by_cases hres : 0 < resumableLength s.mem
  · unfold resumableLength at hres
    obtain ⟨v, hv⟩ : ∃ v, s.mem.resumableFibers.log[s.mem.resumableFibers.dequeuePos]? = some v :=
      ⟨_, List.getElem?_eq_getElem (by omega)⟩
    refine ⟨v, Or.inl ⟨s.mem.resumableFibers.dequeuePos, ?_⟩⟩
    rw [Mpmc.entry_dequeuePos]
    exact hv
  · have hpin : 0 < pinnedLength s.mem := by omega
    unfold pinnedLength at hpin
    obtain ⟨v, hv⟩ : ∃ v, (s.mem.threads 0).pinnedResumableFibers.log[
        (s.mem.threads 0).pinnedResumableFibers.taken]? = some v :=
      ⟨_, List.getElem?_eq_getElem (by omega)⟩
    refine ⟨v, Or.inr ⟨(s.mem.threads 0).pinnedResumableFibers.taken, ?_⟩⟩
    unfold Fifo.entry
    rw [if_pos (Nat.le_refl _)]
    exact hv

/-! ## One wake-up at a time -/

namespace QuietInv

/-- The invariant after a step that stays on its fiber. -/
theorem of_stay (hrun : m'.running 0 = s.mem.running 0)
    (hres : mayResumable p' = false → resumableLength m' = 0)
    (hpin : mayPinned p' = false → pinnedLength m' = 0)
    (hone : resumableLength m' + pinnedLength m' ≤ 1)
    (hscanned : ∀ x v w, walk p' = some x → Queued m' v → m'.hist.call v.reg = some w →
      w.counter = x.counter)
    (hsteady : Steady p')
    (hplain : ∀ r w, m'.hist.call r = some w → w.target = 0 ∧ ∀ t, w.pinned = some t → t = 0) :
    QuietInv ⟨m', s.pc.set (s.mem.running 0) p'⟩ := by
  have hpc : (s.pc.set (s.mem.running 0) p') (m'.running 0) = p' := by
    rw [hrun, Table.get_set_self]
  constructor
  · show mayResumable ((s.pc.set (s.mem.running 0) p') (m'.running 0)) = false → _
    rw [hpc]
    exact hres
  · show mayPinned ((s.pc.set (s.mem.running 0) p') (m'.running 0)) = false → _
    rw [hpc]
    exact hpin
  · exact hone
  · show ∀ x v w, walk ((s.pc.set (s.mem.running 0) p') (m'.running 0)) = some x → _
    rw [hpc]
    exact hscanned
  · show Steady ((s.pc.set (s.mem.running 0) p') (m'.running 0))
    rw [hpc]
    exact hsteady
  · exact hplain

variable (h : QuietInv s) (hsolo : SoloInv own cfg s) (hone : cfg.numThreads = 1)
  (hd : ∀ u, s.pc (s.mem.running 0) = .body → ch = .call u →
    Permitted own s.mem (s.mem.running 0) u)
  (hx : exec cfg s.mem 0 (s.mem.running 0) ch (s.pc (s.mem.running 0)) = some (m', p'))

include h hd hx in
theorem plain_step {r : Nat} {w : WaitCall} (hr : m'.hist.call r = some w) :
    w.target = 0 ∧ ∀ t, w.pinned = some t → t = 0 := by
  rcases call_back hx hr with hold | ⟨hp', -⟩
  · exact h.plain r w hold
  · subst hp'
    obtain ⟨-, -, -, -, -, hp⟩ := begin_owned hx
    rw [hp] at hx
    obtain ⟨-, -, -, -, -, -, -, -, -, htarget, -⟩ := begin_held hx fun u hu => hd u hp hu
    refine ⟨htarget, fun t ht => ?_⟩
    simp only [exec] at hx
    split at hx
    · obtain ⟨pinned, hpinned, -⟩ := begin_pinned hx
      rw [hpinned] at ht
      split at ht <;> cases ht
      rfl
    · cases hx

include h in
/-- A published slot waits for zero, and for the first thread or for none. -/
theorem slot_plain {d j : Nat} {w : WaitCall}
    (hw : Filled s.mem.hist d (s.mem.slot d j) w) : (s.mem.slot d j).counterTarget = 0 ∧
      ∀ t, (s.mem.slot d j).pinnedThreadIndex = some t → t = 0 := by
  have hplain := h.plain _ w hw.call
  rw [hw.target, hw.pinned]
  exact hplain

include h hsolo hone hx in
theorem steady_step (hsw : switches (s.pc (s.mem.running 0)) = false) : Steady p' := by
  have hsteady := h.steady
  have hfits : ∀ d j q, stance (s.pc (s.mem.running 0)) = some ((d, j), q) →
      Fits s.mem.hist d (s.mem.slot d j) q := fun d j q hq => (hsolo.wait.slots d).fits _ j q hq
  cases hp : s.pc (s.mem.running 0) with
  | scan x j pc =>
      rw [hp] at hx hsteady
      obtain ⟨a, r, hmove, -, rfl⟩ := exec_scan hx
      have hskip : (x.k.byBody = true → 0 < x.value) → Steady (nextSlot x j) := by
        intro hpos
        unfold nextSlot
        split
        · exact hpos
        · cases x.k <;> trivial
      have hvacuous : x.k.byBody = false → x.k.byBody = true → 0 < x.value := by
        intro hfalse htrue
        rw [hfalse] at htrue
        cases htrue
      cases hmove with
      | free _ => exact hskip hsteady
      | occupied _ => exact hsteady
      | used _ => exact hskip hsteady
      | unused _ => exact hsteady
      | onTarget htarget =>
          show x.k.byBody = false
          by_contra hbody
          have hpos := hsteady (Bool.eq_true_of_not_eq_false hbody)
          obtain ⟨⟨w, hw⟩, -⟩ := hfits x.counter j (.look none none) (by rw [hp]; rfl)
          have hzero := (h.slot_plain hw).1
          have heq : (s.mem.slot x.counter j).counterTarget = x.value := htarget
          omega
      | offTarget _ => exact hskip hsteady
      | lost _ => exact hskip (hvacuous hsteady)
      | won _ => exact hsteady
      | unpinned _ => exact hsteady
      | pinned hpinned =>
          refine ⟨hsteady, ?_⟩
          obtain ⟨⟨⟨w, hw⟩, -⟩, -⟩ := hfits x.counter j _ (by rw [hp]; rfl)
          exact (h.slot_plain hw).2 _ hpinned
      | fiber => exact hsteady
      | release => exact hskip (hvacuous hsteady)
  | pin x j reg t pc =>
      rw [hp] at hx hsteady
      cases pc with
      | lock =>
          simp only [exec, pinStep] at hx
          split at hx <;> cases hx <;> exact hsteady
      | push =>
          cases hx
          exact hsteady
      | unlock =>
          cases hx
          exact hsteady.1
  | resEnq k v pc =>
      rw [hp] at hx hsteady
      cases k with
      | getNextTask => exact absurd hsteady id
      | scan x j =>
          simp only [exec] at hx
          split at hx <;> cases hx
          · exact hsteady
          · exact hsteady
  | tryResume src v =>
      rw [hp] at hx
      simp only [exec, hsolo.cleanedUp hone hp, if_true] at hx
      cases hx
      trivial
  | reLock v =>
      rw [hp] at hsteady
      exact absurd hsteady id
  | rePush v =>
      rw [hp] at hsteady
      exact absurd hsteady id
  | reUnlock =>
      rw [hp] at hsteady
      exact absurd hsteady id
  | increment inc =>
      have hformed := hsolo.task.task.formed (s.mem.running 0)
      rw [hp] at hx hformed
      simp only [exec, incrementStep] at hx
      split at hx <;> rename_i hk <;> cases hx
      · exact absurd hk (hsolo.task.ledger.manual _ _ hp)
      · intro hbody
        cases hbody
      · rename_i num sync
        intro _
        obtain ⟨j, y, hj, hcounter, -⟩ := hsolo.task.ledger.submits _ _ _ _ hp hk
        have hcount := hsolo.task.ledger.count j y hj
        rw [hcounter] at hcount
        have hnum : 0 < num ∧ inc.amount = num := by
          obtain ⟨c, life, amount, k⟩ := inc
          cases hk
          exact hformed
        show 0 < (s.mem.counters inc.counter).count + inc.amount
        rw [hcount, hnum.2]
        omega
  | yieldTo g k =>
      rw [hp] at hsw
      cases hsw
  | startSwitch g =>
      rw [hp] at hsw
      cases hsw
  | exitSwitch =>
      rw [hp] at hsw
      cases hsw
  | add w j pc =>
      rw [hp] at hx
      obtain ⟨a, r, -, -, rfl⟩ := exec_add hx
      rcases r with _ | (_ | _) | _ <;> trivial
  | clean k =>
      rw [hp] at hx
      simp only [exec, cleanStep] at hx
      rcases k with _ | _ | (_ | _) <;> split at hx <;> cases hx <;> trivial
  | idleEnq k v pc =>
      rw [hp] at hx
      simp only [exec] at hx
      rcases k with _ | _ | (_ | _) <;> split at hx <;> cases hx <;> trivial
  | getUnlock got =>
      rw [hp] at hx
      cases hx
      cases got <;> trivial
  | waitDone w =>
      rw [hp] at hx
      simp only [exec, afterWait, Option.map_eq_some_iff] at hx
      obtain ⟨q, hq, hm⟩ := hx
      cases hm
      (repeat' split at hq) <;> cases hq <;> trivial
  | _ =>
      rw [hp] at hx
      simp only [exec, userStep, beginWait, submitNext, afterRelease, submitTasks, enqueueNext] at hx
      (repeat' split at hx) <;> cases hx <;> trivial

include h hsolo in
/-- Nothing is queued where a scanner claims a slot. -/
theorem nothing_claimed {x : Scan} {j reg : Nat}
    (hp : s.pc (s.mem.running 0) = .scan x j (.claim reg))
    (hunused : (s.mem.slot x.counter j).inUse = false) :
    resumableLength s.mem + pinnedLength s.mem = 0 := by
  by_contra hsome
  obtain ⟨v, hv⟩ := exists_queued (Nat.pos_of_ne_zero hsome)
  obtain ⟨w, hw, hwaits, hslot⟩ := hsolo.queued_call hv
  have hcounter := h.scanned x v w (by rw [hp]; rfl) hv hw
  have htoken : regAt s (.slot x.counter j) = some (s.mem.slot x.counter j).reg := by
    simp only [regAt, WaitingFiber.token, hunused, Bool.false_eq_true, if_false]
  obtain ⟨u, hu, huwaits⟩ := hsolo.wait.regs.waits _ _ htoken
  obtain ⟨w', hfilled⟩ := (hsolo.wait.slots x.counter).unused j hunused
  rw [hfilled.call] at hu
  cases hu
  have heq := hsolo.call_unique hwaits huwaits (hcounter.trans hfilled.counter.symm)
  apply hslot x.counter j
  rw [htoken, ← (hsolo.wait.calls.number _ _ hw).1, ← (hsolo.wait.calls.number _ _ hfilled.call).1,
    heq]

include h hsolo hx in
/-- What was queued during a scan comes from the counter that is scanned. -/
theorem scanned_old (hqueued : ∀ v, Queued m' v → Queued s.mem v)
    (hlength : resumableLength s.mem + pinnedLength s.mem = 0 ∨
      ∀ x, walk p' = some x → walk (s.pc (s.mem.running 0)) = some x) :
    ∀ x v w, walk p' = some x → Queued m' v → m'.hist.call v.reg = some w →
      w.counter = x.counter := by
  intro x v w hwalk hv hw
  have hv₀ := hqueued v hv
  rcases hlength with hzero | hback
  · have hpos := length_of_queued hv₀
    omega
  · obtain ⟨u, hu, -⟩ := hsolo.queued_call hv₀
    have hu' := hsolo.wait.calls.call_mono (exec_call hx) hu
    rw [hw] at hu'
    cases hu'
    exact h.scanned x v w (hback x hwalk) hv₀ hu

include h hsolo hone hd hx in
/-- An access that stays on its fiber and off the queues. -/
theorem still_step (hp : handles (s.pc (s.mem.running 0)) = false)
    (hsw : switches (s.pc (s.mem.running 0)) = false) :
    QuietInv ⟨m', s.pc.set (s.mem.running 0) p'⟩ := by
  have hstill := exec_still hx hp
  have hrun := running_frame hx hsw 0
  have hlengths := hstill.lengths
  have hmay : (mayResumable p' = false → resumableLength s.mem = 0) ∧
      (mayPinned p' = false → pinnedLength s.mem = 0) := by
    by_cases hclaim : ∃ x j reg, s.pc (s.mem.running 0) = .scan x j (.claim reg)
    · obtain ⟨x, j, reg, hclaim⟩ := hclaim
      have hbefore := h.steady
      rw [hclaim] at hx hbefore
      obtain ⟨a, r, hmove, -, rfl⟩ := exec_scan hx
      cases hmove with
      | won hunused =>
          have hzero := h.nothing_claimed hsolo hclaim hunused
          constructor <;> intro _ <;> omega
      | lost _ =>
          have hbody : x.k.byBody = false := hbefore
          have htrue : mayResumable (nextSlot x j) = true ∧ mayPinned (nextSlot x j) = true := by
            unfold nextSlot
            split
            · simp [mayResumable, mayPinned, ScanPC.holding, hbody]
            · cases hk : x.k with
              | taskDone => exact ⟨rfl, rfl⟩
              | _ =>
                  rw [hk] at hbody
                  cases hbody
          constructor
          · intro hfalse
            rw [show scanNext x j .skip = nextSlot x j from rfl, htrue.1] at hfalse
            cases hfalse
          · intro hfalse
            rw [show scanNext x j .skip = nextSlot x j from rfl, htrue.2] at hfalse
            cases hfalse
    · have hgo := may_step hx hp hsw (fun x j reg heq => hclaim ⟨x, j, reg, heq⟩) h.steady
      exact ⟨fun hfalse => h.resumable (hgo.1 hfalse), fun hfalse => h.pinned (hgo.2 hfalse)⟩
  have hback : resumableLength s.mem + pinnedLength s.mem = 0 ∨
      ∀ x, walk p' = some x → walk (s.pc (s.mem.running 0)) = some x := by
    by_cases hinc : ∃ inc, s.pc (s.mem.running 0) = .increment inc
    · obtain ⟨inc, hinc⟩ := hinc
      left
      have hres := h.resumable (by rw [hinc]; rfl)
      have hpin := h.pinned (by rw [hinc]; rfl)
      omega
    · right
      intro x hwalk
      rcases walk_begin hx hwalk with hold | ⟨inc, heq, -⟩
      · exact hold
      · exact absurd ⟨inc, heq⟩ hinc
  refine of_stay hrun ?_ ?_ ?_ ?_ ?_ ?_
  · intro hfalse
    exact hlengths.1.trans (hmay.1 hfalse)
  · intro hfalse
    exact hlengths.2.trans (hmay.2 hfalse)
  · rw [hlengths.1, hlengths.2]
    exact h.one
  · exact h.scanned_old hsolo hx (fun v => (hstill.queued v).1) hback
  · exact h.steady_step hsolo hone hx hsw
  · intro r w hr
    exact h.plain_step hd hx hr

/-! ### The accesses to the queues -/

include h hsolo in
/-- What lies in `mResumableFibers` after an enqueue or a dequeue on it. -/
theorem scanned_resumable {v : Wake} {x : Scan} {j : Nat}
    (hwalk : walk (s.pc (s.mem.running 0)) = some x) (hwalk' : ∀ y, walk p' = some y → y = x)
    (hstance : stance (s.pc (s.mem.running 0)) =
      some ((x.counter, j), .hold v.reg (some x.value) false))
    (hqueued : ∀ u, Queued m' u → Queued s.mem u ∨ u = v)
    (hcall : ∀ r, m'.hist.call r = s.mem.hist.call r) :
    ∀ y u w, walk p' = some y → Queued m' u → m'.hist.call u.reg = some w →
      w.counter = y.counter := by
  intro y u w hy hu hw
  rw [hcall] at hw
  rw [hwalk' y hy]
  rcases hqueued u hu with hold | rfl
  · exact h.scanned x u w hwalk hold hw
  · obtain ⟨⟨⟨w', hfilled⟩, hreg, -⟩, -⟩ := (hsolo.wait.slots x.counter).fits _ j _ hstance
    have hcall' := hfilled.call
    rw [show (s.mem.slot x.counter j).reg = u.reg from hreg, hw] at hcall'
    rw [Option.some.inj hcall']
    exact hfilled.counter

include h hsolo hone hd hx in
theorem resEnq_step {k : PushK} {v : Wake} {pc : EnqueuePC}
    (hp : s.pc (s.mem.running 0) = .resEnq k v pc) :
    QuietInv ⟨m', s.pc.set (s.mem.running 0) p'⟩ := by
  have hstep := h.steady_step hsolo hone hx (by rw [hp]; rfl)
  have hplain := fun r w hr => h.plain_step hd hx (r := r) (w := w) hr
  have hrun := running_frame hx (by rw [hp]; rfl) 0
  have hsteady := h.steady
  rw [hp] at hsteady
  cases k with
  | getNextTask => exact absurd hsteady id
  | scan x j =>
  have hbody : x.k.byBody = false := hsteady
  have hpinned := h.pinned (by rw [hp]; rfl)
  have hcount : pc.claimed = false → resumableLength s.mem = 0 := by
    intro hfalse
    apply h.resumable
    rw [hp]
    exact hfalse
  have hle : s.mem.resumableFibers.dequeuePos ≤ s.mem.resumableFibers.log.length := by
    rw [hsolo.run.queues.resumable.log_length]
    exact hsolo.run.queues.resumable.deq_le
  have hsome := h.one
  rw [hp] at hx
  obtain ⟨hmove, hthreads⟩ := exec_resEnq hx
  have hpin : pinnedLength m' = 0 := by
    unfold pinnedLength at hpinned ⊢
    rw [hthreads]
    exact hpinned
  -- only the claim puts something into the queue
  have hscanned : (∀ y, walk p' = some y → y = x) →
      (∀ u pos, m'.resumableFibers.entry pos = some u →
        s.mem.resumableFibers.entry pos = some u ∨ u = v) →
      (∀ r, m'.hist.call r = s.mem.hist.call r) →
      ∀ y u w, walk p' = some y → Queued m' u → m'.hist.call u.reg = some w →
        w.counter = y.counter := by
    intro hwalk hentry hcall
    refine h.scanned_resumable hsolo (by rw [hp]; rfl) hwalk (by rw [hp]; rfl) ?_ hcall
    rintro u (⟨pos, hpos⟩ | ⟨n, hn⟩)
    · exact (hentry u pos hpos).imp_left fun hold => Or.inl ⟨pos, hold⟩
    · rw [hthreads] at hn
      exact Or.inl (Or.inr ⟨n, hn⟩)
  have hback : afterPush v.reg (.scan x j) = .scan x j (.release v.reg) := rfl
  have hmay : mayResumable (.scan x j (.release v.reg)) = true := by
    simp [mayResumable, hbody, ScanPC.holding]
  have hmay' : mayPinned (.scan x j (.release v.reg)) = true := by
    simp [mayPinned, hbody, ScanPC.holding]
  cases hmove with
  | quiet pc' hp' hclaimed hlog hdeq hhist =>
      have hlength : resumableLength m' = resumableLength s.mem := by
        unfold resumableLength
        rw [hlog, hdeq]
      subst hp'
      refine of_stay hrun ?_ (fun _ => hpin) (by omega) ?_ hstep hplain
      · intro hfalse
        rw [hlength]
        exact hcount (hclaimed.symm.trans hfalse)
      · refine hscanned (fun y hy => (Option.some.inj hy).symm) ?_ (fun r => by rw [hhist])
        intro u pos hpos
        rw [Mpmc.entry_congr hlog hdeq] at hpos
        exact Or.inl hpos
  | put pc' hp' hbefore hafter hlog hdeq hhist =>
      have hzero := hcount hbefore
      have hlength : resumableLength m' = 1 := by
        unfold resumableLength at hzero ⊢
        rw [hlog, hdeq, List.length_append, List.length_singleton]
        omega
      subst hp'
      refine of_stay hrun ?_ (fun _ => hpin) (by omega) ?_ hstep hplain
      · intro hfalse
        rw [show mayResumable (.resEnq (.scan x j) v pc') = pc'.claimed from rfl, hafter] at hfalse
        cases hfalse
      · refine hscanned (fun y hy => (Option.some.inj hy).symm) ?_ (fun r => by rw [hhist])
        intro u pos hpos
        rw [Mpmc.entry_put hlog hdeq hle] at hpos
        split at hpos
        · exact Or.inr (Option.some.inj hpos).symm
        · exact Or.inl hpos
  | done hp' hclaimed hlog hdeq hhist =>
      have hlength : resumableLength m' = resumableLength s.mem := by
        unfold resumableLength
        rw [hlog, hdeq]
      subst hp'
      refine of_stay hrun ?_ (fun _ => hpin) (by omega) ?_ hstep hplain
      · intro hfalse
        rw [hback, hmay] at hfalse
        cases hfalse
      · refine hscanned (fun y hy => (Option.some.inj hy).symm) ?_ (fun r => by rw [hhist]; rfl)
        intro u pos hpos
        rw [Mpmc.entry_congr hlog hdeq] at hpos
        exact Or.inl hpos
  | full pos hp' _ _ hsame hhist =>
      have hlength : resumableLength m' = resumableLength s.mem := by
        unfold resumableLength
        rw [hsame]
      subst hp'
      refine of_stay hrun ?_ (fun _ => hpin) (by omega) ?_ hstep hplain
      · intro hfalse
        rw [hback, hmay] at hfalse
        cases hfalse
      · refine hscanned (fun y hy => (Option.some.inj hy).symm) ?_ (fun r => by rw [hhist])
        intro u pos hpos
        rw [hsame] at hpos
        exact Or.inl hpos

include h hsolo hone hd hx in
theorem resDeq_step {pc : DequeuePC Wake} (hp : s.pc (s.mem.running 0) = .resDeq pc) :
    QuietInv ⟨m', s.pc.set (s.mem.running 0) p'⟩ := by
  have hstep := h.steady_step hsolo hone hx (by rw [hp]; rfl)
  have hplain := fun r w hr => h.plain_step hd hx (r := r) (w := w) hr
  have hrun := running_frame hx (by rw [hp]; rfl) 0
  have hpinned := h.pinned (by rw [hp]; rfl)
  have hsome := h.one
  have hempty : ∀ pos, pc = .sequence pos →
      (s.mem.resumableFibers.cell pos).sequence < pos + 1 → resumableLength s.mem = 0 := by
    intro pos hpos hseq
    have hzero := empty_of_fails hsolo.run.queues.resumable (a := s.mem.running 0)
      (by simp only [roles, hp, resumableCaller, hpos])
      (fun b hb => (hsolo.run.parked hone hb).callers.2.1) hseq
    unfold resumableLength
    omega
  have hclaimed : pc.claimed ≠ none → resumableLength s.mem = 0 := by
    intro hne
    apply h.resumable
    rw [hp]
    simpa [mayResumable] using Option.isSome_iff_ne_none.2 hne
  rw [hp] at hx
  obtain ⟨hmove, hthreads, hhist⟩ := exec_resDeq hx
  have hpin : pinnedLength m' = 0 := by
    unfold pinnedLength at hpinned ⊢
    rw [hthreads]
    exact hpinned
  cases hmove with
  | quiet pc' hp' hsame hlog hdeq =>
      have hlength : resumableLength m' = resumableLength s.mem := by
        unfold resumableLength
        rw [hlog, hdeq]
      subst hp'
      refine of_stay hrun ?_ (fun _ => hpin) (by omega) (fun y _ _ hy => by cases hy) hstep hplain
      intro hfalse
      rw [hlength]
      apply hclaimed
      rw [← hsame]
      simpa [mayResumable, Option.isSome_iff_ne_none] using hfalse
  | take pc' hp' hnone hafter hlog hdeq =>
      have hlength : resumableLength m' = 0 := by
        unfold resumableLength at hsome ⊢
        rw [hlog, hdeq]
        omega
      subst hp'
      exact of_stay hrun (fun _ => hlength) (fun _ => hpin) (by omega) (fun y _ _ hy => by cases hy)
        hstep hplain
  | done v pos hp' hpc hlog hdeq =>
      have hlength : resumableLength m' = 0 := by
        have hzero := hclaimed (by rw [hpc]; simp [DequeuePC.claimed])
        unfold resumableLength at hzero ⊢
        rw [hlog, hdeq]
        exact hzero
      subst hp'
      exact of_stay hrun (fun _ => hlength) (fun _ => hpin) (by omega) (fun y _ _ hy => by cases hy)
        hstep hplain
  | empty pos hp' hpc hseq hsame =>
      have hlength : resumableLength m' = 0 := by
        have hzero := hempty pos hpc hseq
        unfold resumableLength at hzero ⊢
        rw [hsame]
        exact hzero
      subst hp'
      exact of_stay hrun (fun _ => hlength) (fun _ => hpin) (by omega) (fun y _ _ hy => by cases hy)
        hstep hplain

include h hsolo in
/-- The queue of the thread has room for the wake-up that is pushed to it. -/
theorem push_fits {x : Scan} {j reg t : Nat}
    (hp : s.pc (s.mem.running 0) = .pin x j reg t .push) :
    t = 0 ∧ (s.mem.threads 0).pinnedResumableFibers.full maxWaiting = false := by
  have hsteady := h.steady
  rw [hp] at hsteady
  refine ⟨hsteady.2, ?_⟩
  have hok := hsolo.run.queues.pinned 0
  have hpinned := h.pinned (by rw [hp]; rfl)
  have hpos : 0 < maxWaiting := maxWaiting_capacity.pos
  have hle := hok.taken_le
  rw [← Bool.not_eq_true, hok.full_iff maxWaiting_capacity]
  unfold pinnedLength at hpinned
  omega

include h hsolo hone hd hx in
theorem pinPush_step {x : Scan} {j reg t : Nat}
    (hp : s.pc (s.mem.running 0) = .pin x j reg t .push) :
    QuietInv ⟨m', s.pc.set (s.mem.running 0) p'⟩ := by
  have hstep := h.steady_step hsolo hone hx (by rw [hp]; rfl)
  have hplain := fun r w hr => h.plain_step hd hx (r := r) (w := w) hr
  have hrun := running_frame hx (by rw [hp]; rfl) 0
  obtain ⟨rfl, hnotfull⟩ := h.push_fits hsolo hp
  have hresumable := h.resumable (by rw [hp]; rfl)
  have hpinned := h.pinned (by rw [hp]; rfl)
  have hle := (hsolo.run.queues.pinned 0).taken_le
  have hfits := (hsolo.wait.slots x.counter).fits _ j (.hold reg (some x.value) false)
    (by rw [hp]; rfl)
  obtain ⟨⟨⟨w', hfilled⟩, hreg, -⟩, -⟩ := hfits
  have hp₀ := hp
  rw [hp] at hx
  simp only [exec, pinStep, Option.some.injEq, Prod.mk.injEq] at hx
  obtain ⟨hm, hp'⟩ := hx
  subst hp'
  set v : Wake := ⟨(s.mem.slot x.counter j).fiberIndex, (s.mem.slot x.counter j).reg⟩ with hv
  have hqueue : (m'.threads 0).pinnedResumableFibers =
      (s.mem.threads 0).pinnedResumableFibers.enqueue maxWaiting v := by
    rw [← hm]
    show ((s.mem.threads.set 0 _) 0).pinnedResumableFibers = _
    rw [Table.get_set_self]
    rfl
  have hres : m'.resumableFibers = s.mem.resumableFibers := by
    rw [← hm]
  have hcall : m'.hist.call = s.mem.hist.call := by
    rw [← hm]
  have hlength : resumableLength m' = 0 := by
    unfold resumableLength at hresumable ⊢
    rw [hres]
    exact hresumable
  have hlength' : pinnedLength m' = 1 := by
    unfold pinnedLength at hpinned ⊢
    rw [hqueue]
    simp only [Fifo.enqueue, hnotfull, Bool.false_eq_true, if_false, List.length_append,
      List.length_singleton]
    omega
  refine of_stay hrun (fun _ => hlength) (fun hfalse => by cases hfalse) (by omega) ?_ hstep hplain
  intro y u w hy hu hw
  rw [← Option.some.inj hy]
  rw [hcall] at hw
  rcases hu with ⟨pos, hpos⟩ | ⟨n, hn⟩
  · rw [hres] at hpos
    exact h.scanned x u w (by rw [hp₀]; rfl) (Or.inl ⟨pos, hpos⟩) hw
  · rw [hqueue, Fifo.entry_enqueue hle] at hn
    split at hn
    · rw [← Option.some.inj hn] at hw
      rw [show v.reg = (s.mem.slot x.counter j).reg from rfl, hfilled.call] at hw
      rw [← Option.some.inj hw]
      exact hfilled.counter
    · rw [if_neg (by rw [hnotfull]; simp)] at hn
      exact h.scanned x u w (by rw [hp₀]; rfl) (Or.inr ⟨n, hn⟩) hw

include h hsolo hone hd hx in
theorem getPop_step (hp : s.pc (s.mem.running 0) = .getPop) :
    QuietInv ⟨m', s.pc.set (s.mem.running 0) p'⟩ := by
  have hstep := h.steady_step hsolo hone hx (by rw [hp]; rfl)
  have hplain := fun r w hr => h.plain_step hd hx (r := r) (w := w) hr
  have hrun := running_frame hx (by rw [hp]; rfl) 0
  have hsome := h.one
  rw [hp] at hx
  simp only [exec, Option.some.injEq, Prod.mk.injEq] at hx
  obtain ⟨hm, rfl⟩ := hx
  have hqueue : (m'.threads 0).pinnedResumableFibers =
      ((s.mem.threads 0).pinnedResumableFibers.dequeue maxWaiting).2 := by
    rw [← hm]
    show ((s.mem.threads.set 0 _) 0).pinnedResumableFibers = _
    rw [Table.get_set_self]
  have hres : resumableLength m' = resumableLength s.mem := by
    rw [← hm]
    rfl
  rcases (hsolo.run.queues.pinned 0).dequeue maxWaiting_capacity with
    ⟨hempty, hsame⟩ | ⟨v, -, hgot, hlog, htaken, -⟩
  · -- nothing lies in the queue of the thread
    have hpin : pinnedLength m' = 0 := by
      unfold pinnedLength
      rw [hqueue, hsame]
      show (s.mem.threads 0).pinnedResumableFibers.log.length - _ = 0
      exact Nat.sub_eq_zero_of_le hempty.le
    rw [hsame] at hstep ⊢
    exact of_stay hrun (fun hfalse => by cases hfalse) (fun _ => hpin) (by omega)
      (fun y _ _ hy => by cases hy) hstep hplain
  · have hpin : pinnedLength s.mem = 1 ∧ pinnedLength m' = 0 := by
      have hlt : (s.mem.threads 0).pinnedResumableFibers.taken + 1 ≤
          (s.mem.threads 0).pinnedResumableFibers.log.length := by
        have hok := (hsolo.run.queues.pinned 0).dequeue maxWaiting_capacity
        rcases hok with ⟨_, hsame⟩ | ⟨_, hlt, -⟩
        · rw [hsame] at hgot
          cases hgot
        · have := (List.getElem?_eq_some_iff.1 hlt).1
          omega
      unfold pinnedLength at hsome ⊢
      rw [hqueue, hlog, htaken]
      omega
    exact of_stay hrun (fun _ => by omega) (fun _ => hpin.2) (by omega)
      (fun y _ _ hy => by cases hy) hstep hplain

include h hsolo hone hd hx in
/-- A switch finds the queues empty, or ends the thread. -/
theorem switch_step (hsw : switches (s.pc (s.mem.running 0)) = true) :
    QuietInv ⟨m', s.pc.set (s.mem.running 0) p'⟩ := by
  have hi : 0 < cfg.numThreads := by omega
  have hstill := exec_still hx (by
    cases hp : s.pc (s.mem.running 0) <;> rw [hp] at hsw <;> first | rfl | cases hsw)
  have hlengths := hstill.lengths
  have hto : Parked ((s.pc.set (s.mem.running 0) p') (m'.running 0)) ∧
      (s.pc (s.mem.running 0) = .exitSwitch →
        (s.pc.set (s.mem.running 0) p') (m'.running 0) = .done) := by
    constructor
    · rcases (running_switch hsolo.run.fibers hi hx hsw).2 with (hentry | hclean) | hdone
      · exact Or.inl hentry
      · exact Or.inr (Or.inl hclean)
      · exact Or.inr (Or.inr hdone)
    · intro hp
      rw [hp] at hx
      simp only [exec, Option.some.injEq, Prod.mk.injEq] at hx
      have hrun : m'.running 0 = cfg.numFibers + 0 := by
        rw [← hx.1]
        show ((s.mem.tls.set 0 _) 0).running = _
        rw [Table.get_set_self]
      rcases hsolo.run.fibers.thread 0 hi with ⟨hthread, hat, -⟩ | hdone
      · rw [← hat, hp] at hthread
        rcases hthread with ⟨_, heq⟩ | ⟨_, heq⟩ <;> cases heq
      · rw [hrun, Table.get_set]
        split
        · exact hx.2.symm
        · exact hdone
  have hnowalk : walk ((s.pc.set (s.mem.running 0) p') (m'.running 0)) = none := hto.1.walk
  have hmay : (mayResumable ((s.pc.set (s.mem.running 0) p') (m'.running 0)) = false →
      mayResumable (s.pc (s.mem.running 0)) = false) ∧
      (mayPinned ((s.pc.set (s.mem.running 0) p') (m'.running 0)) = false →
        mayPinned (s.pc (s.mem.running 0)) = false) := by
    cases hp : s.pc (s.mem.running 0) with
    | exitSwitch =>
        rw [hto.2 hp]
        exact ⟨id, id⟩
    | startSwitch g => exact ⟨fun _ => rfl, fun _ => rfl⟩
    | yieldTo g k => exact ⟨fun _ => rfl, fun _ => rfl⟩
    | _ =>
        rw [hp] at hsw
        cases hsw
  constructor
  · intro hfalse
    exact hlengths.1.trans (h.resumable (hmay.1 hfalse))
  · intro hfalse
    exact hlengths.2.trans (h.pinned (hmay.2 hfalse))
  · show resumableLength m' + pinnedLength m' ≤ 1
    rw [hlengths.1, hlengths.2]
    exact h.one
  · intro y _ _ hy
    have hwalk : walk ((s.pc.set (s.mem.running 0) p') (m'.running 0)) = some y := hy
    rw [hnowalk] at hwalk
    cases hwalk
  · show Steady ((s.pc.set (s.mem.running 0) p') (m'.running 0))
    rcases hto.1 with heq | ⟨k, heq⟩ | heq <;> rw [heq] <;> trivial
  · intro r w hr
    exact h.plain_step hd hx hr

theorem step (h : QuietInv s) (hsolo : SoloInv own cfg s) (hone : cfg.numThreads = 1)
    (hd : Disciplined own s l) (hs : Scheduler.step cfg s l = some s') : QuietInv s' := by
  obtain ⟨-, hi, m', p', hx, rfl⟩ := step_eq_some.1 hs
  have hthread : l.thread = 0 := by omega
  unfold Disciplined at hd
  rw [hthread] at hx hd ⊢
  by_cases hsw : switches (s.pc (s.mem.running 0)) = true
  · exact h.switch_step hsolo hone hd hx hsw
  replace hsw := eq_false_of_ne_true hsw
  cases hp : s.pc (s.mem.running 0) with
  | resEnq k v pc => exact h.resEnq_step hsolo hone hd hx hp
  | resDeq pc => exact h.resDeq_step hsolo hone hd hx hp
  | getPop => exact h.getPop_step hsolo hone hd hx hp
  | rePush v =>
      have hsteady := h.steady
      rw [hp] at hsteady
      exact absurd hsteady id
  | pin x j reg t pc =>
      cases pc with
      | push => exact h.pinPush_step hsolo hone hd hx hp
      | _ => exact h.still_step hsolo hone hd hx (by rw [hp]; rfl) hsw
  | _ => exact h.still_step hsolo hone hd hx (by rw [hp]; rfl) hsw

theorem start (hone : cfg.numThreads = 1) : QuietInv (start cfg) := by
  have hrun : (Scheduler.start cfg).mem.running 0 = cfg.numFibers := by
    show ((Scheduler.start cfg).mem.tls 0).running = cfg.numFibers
    simp [Scheduler.start, hone, Table.get, Table.lookup]
  have hpc : (Scheduler.start cfg).pc ((Scheduler.start cfg).mem.running 0) =
      .idleDeq .start .load := by
    rw [hrun, start_pc, if_neg (by omega), if_pos (by omega)]
  constructor
  · intro _
    rfl
  · intro _
    rfl
  · exact Nat.zero_le _
  · intro x v w hx
    rw [hpc] at hx
    cases hx
  · rw [hpc]
    trivial
  · intro r w hr
    cases hr

end QuietInv

end Steps

end TaskDispatcher.Scheduler
