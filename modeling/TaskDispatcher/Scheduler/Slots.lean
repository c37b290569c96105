import TaskDispatcher.Scheduler.Wakes
import TaskDispatcher.Library.Tokens

/-!
# The slots of a counter

A waiter that has taken a slot fills it while nobody else stands there.  From
then on the fields of the slot are those of its registration, and whoever stands
at the slot goes by them, as long as no waiter takes the slot before all others
have left it.
-/

namespace TaskDispatcher.Scheduler

open TaskDispatcher.Library TaskDispatcher.Container

/-! ## Standing at a slot -/

/-- How an agent stands at a slot: it fills it, it has looked at it and may claim it,
or it has claimed it.  `reg` is the registration it goes by and `found` the target it
has compared; `pushed` says that the fiber is in a queue of resumable fibers. -/
inductive Stance where
  | fill (w : WaitCall) (pc : AddPC)
  | look (reg : Option Nat) (found : Option Int)
  | hold (reg : Nat) (found : Option Int) (pushed : Bool)
  deriving DecidableEq

/-- The slot an agent stands at. -/
def stance : PC → Option ((Nat × Nat) × Stance)
  | .add _ _ .acquire => none
  | .add w j .load => some ((w.counter, j), .look (some w.call) none)
  | .add w j (.recheck _) => some ((w.counter, j), .look (some w.call) none)
  | .add w j (.compare _) => some ((w.counter, j), .look (some w.call) none)
  | .add w j .claim => some ((w.counter, j), .look (some w.call) none)
  | .add w j .free => some ((w.counter, j), .hold w.call none false)
  | .add w j pc => some ((w.counter, j), .fill w pc)
  | .scan _ _ .free => none
  | .scan _ _ .inUse => none
  | .scan x j .target => some ((x.counter, j), .look none none)
  | .scan x j (.claim reg) => some ((x.counter, j), .look (some reg) (some x.value))
  | .scan x j (.pinned reg) => some ((x.counter, j), .hold reg (some x.value) false)
  | .scan x j (.fiber reg) => some ((x.counter, j), .hold reg (some x.value) false)
  | .scan x j (.release reg) => some ((x.counter, j), .hold reg (some x.value) true)
  | .pin x j reg _ .unlock => some ((x.counter, j), .hold reg (some x.value) true)
  | .pin x j reg _ _ => some ((x.counter, j), .hold reg (some x.value) false)
  | .resEnq (.scan x j) v _ => some ((x.counter, j), .hold v.reg (some x.value) false)
  | _ => none

/-- A waiter takes a slot of counter `c` only when the slot is claimed and nobody stands
there. -/
def Vacant (c : Nat) (s : State) (l : Label) : Prop :=
  ∀ w j, s.pc (s.mem.running l.thread) = .add w j .acquire → w.counter = c →
    (s.mem.counters c).freeWaitingSlots j = true →
      ((s.mem.counters c).slot j).inUse = true ∧ ∀ a q, stance (s.pc a) ≠ some ((c, j), q)

def Mem.slot (m : Mem) (c j : Nat) : WaitingFiber := (m.counters c).slot j

/-- The slot holds the registration of call `w`. -/
structure Filled (hist : Hist) (c : Nat) (g : WaitingFiber) (w : WaitCall) : Prop where
  call : hist.call g.reg = some w
  counter : w.counter = c
  fiber : g.fiberIndex = w.fiber
  target : g.counterTarget = w.target
  pinned : g.pinnedThreadIndex = w.pinned

/-- What a waiter at `pc` has written so far. -/
def FilledUpTo (w : WaitCall) (g : WaitingFiber) : AddPC → Prop
  | .writeTarget => g.reg = w.call ∧ g.fiberIndex = w.fiber
  | .writePinned => (g.reg = w.call ∧ g.fiberIndex = w.fiber) ∧ g.counterTarget = w.target
  | .publish => ((g.reg = w.call ∧ g.fiberIndex = w.fiber) ∧ g.counterTarget = w.target) ∧
      g.pinnedThreadIndex = w.pinned
  | _ => True

/-- The slot is as an agent takes it to be. -/
def Fits (hist : Hist) (c : Nat) (g : WaitingFiber) : Stance → Prop
  | .fill w pc => g.inUse = true ∧ FilledUpTo w g pc
  | .look reg found => (∃ w, Filled hist c g w) ∧ (∀ r, reg = some r → g.reg = r) ∧
      ∀ v, found = some v → g.counterTarget = v
  | .hold reg found _ => ((∃ w, Filled hist c g w) ∧ g.reg = reg ∧
      ∀ v, found = some v → g.counterTarget = v) ∧ g.inUse = true

def Stance.fills : Stance → Bool
  | .fill _ _ => true
  | _ => false

def Stance.holds : Stance → Bool
  | .hold _ _ _ => true
  | _ => false

structure SlotInv (c : Nat) (s : State) : Prop where
  fits : ∀ a j q, stance (s.pc a) = some ((c, j), q) → Fits s.mem.hist c (s.mem.slot c j) q
  unused : ∀ j, (s.mem.slot c j).inUse = false → ∃ w, Filled s.mem.hist c (s.mem.slot c j) w
  filler : ∀ a b j q q', stance (s.pc a) = some ((c, j), q) → q.fills = true →
    stance (s.pc b) = some ((c, j), q') → b = a
  holder : ∀ a b j q q', stance (s.pc a) = some ((c, j), q) → q.holds = true →
    stance (s.pc b) = some ((c, j), q') → q'.holds = true → b = a

/-! ## What an access does at the slots -/

section Steps

variable {cfg : Config} {s s' : State} {m m' : Mem} {i f c : Nat} {ch : Choice} {p p' : PC}

/-- Slot `j` of counter `c` has become `g`. -/
def SlotSet (m m' : Mem) (c j : Nat) (g : WaitingFiber) : Prop :=
  ∀ d k, m'.slot d k = if d = c ∧ k = j then g else m.slot d k

/-- What an access does to the slots and to the standing of its agent. -/
inductive StanceMove (ch : Choice) (m : Mem) (p : PC) (m' : Mem) (p' : PC) : Prop where
  | stay : m'.slot = m.slot → m'.hist.pushes = m.hist.pushes → stance p' = stance p →
      StanceMove ch m p m' p'
  | leave (cj) (q : Stance) : m'.slot = m.slot → m'.hist.pushes = m.hist.pushes →
      stance p = some (cj, q) → (q.fills = false ∧ ∀ r v, q ≠ .hold r v false) →
      stance p' = none → StanceMove ch m p m' p'
  | freed (w : WaitCall) (j : Nat) : p = .add w j .free → p' = .waitDone w → m'.slot = m.slot →
      m'.hist.pushes = m.hist.pushes → StanceMove ch m p m' p'
  | take (w : WaitCall) (j : Nat) : p = .add w j .acquire → p' = .add w j .writeFiber →
      (m.counters w.counter).freeWaitingSlots j = true → m'.slot = m.slot →
      m'.hist.pushes = m.hist.pushes → StanceMove ch m p m' p'
  | write (w : WaitCall) (j : Nat) (pc pc' : AddPC) (g : WaitingFiber) :
      stance p = some ((w.counter, j), .fill w pc) → stance p' = some ((w.counter, j), .fill w pc') →
      g.inUse = (m.slot w.counter j).inUse →
      (FilledUpTo w (m.slot w.counter j) pc → FilledUpTo w g pc') →
      SlotSet m m' w.counter j g → m'.hist.pushes = m.hist.pushes → StanceMove ch m p m' p'
  | publish (w : WaitCall) (j : Nat) : p = .add w j .publish → p' = .add w j .load →
      SlotSet m m' w.counter j { m.slot w.counter j with inUse := false } →
      m'.hist.pushes = m.hist.pushes → StanceMove ch m p m' p'
  | enter (d j : Nat) : stance p = none → stance p' = some ((d, j), .look none none) →
      (m.slot d j).inUse = false → m'.slot = m.slot → m'.hist.pushes = m.hist.pushes →
      StanceMove ch m p m' p'
  | find (d j : Nat) : stance p = some ((d, j), .look none none) →
      stance p' = some ((d, j), .look (some (m.slot d j).reg) (some (m.slot d j).counterTarget)) →
      m'.slot = m.slot → m'.hist.pushes = m.hist.pushes → StanceMove ch m p m' p'
  | claim (d j r : Nat) (found : Option Int) : stance p = some ((d, j), .look (some r) found) →
      stance p' = some ((d, j), .hold r found false) → (m.slot d j).inUse = false →
      SlotSet m m' d j { m.slot d j with inUse := true } →
      m'.hist.pushes = m.hist.pushes → StanceMove ch m p m' p'
  | copy (d j r : Nat) (found : Option Int) : stance p = some ((d, j), .hold r found false) →
      stance p' = some ((d, j), .hold (m.slot d j).reg found false) → m'.slot = m.slot →
      m'.hist.pushes = m.hist.pushes → StanceMove ch m p m' p'
  | push (d j r : Nat) (found : Option Int) : stance p = some ((d, j), .hold r found false) →
      stance p' = some ((d, j), .hold r found true) → m'.slot = m.slot →
      (m'.hist.pushes = Hist.count m.hist.pushes r ∨
        m'.hist.pushes = Hist.count m.hist.pushes (m.slot d j).reg) → StanceMove ch m p m' p'
  | drop (x : Scan) (j : Nat) (v : Wake) (pc : EnqueuePC) : p = .resEnq (.scan x j) v pc →
      (Mpmc.enqueueStep 0 v (ch = .spurious) m.resumableFibers pc).2 = .inr false →
      p' = .scan x j (.release v.reg) → m'.slot = m.slot →
      m'.hist.pushes = m.hist.pushes → StanceMove ch m p m' p'

theorem stance_nextSlot (x : Scan) (j : Nat) : stance (nextSlot x j) = none := by
  unfold nextSlot
  split
  · rfl
  · cases x.k <;> rfl

theorem stance_afterClean (k : CleanK) : stance (afterClean k) = none := by
  rcases k with _ | _ | (_ | _) <;> rfl

theorem slot_counters (m : Mem) (d : Nat) (a : AtomicCounter) (c j : Nat) :
    Mem.slot { m with counters := m.counters.set d a } c j =
      if c = d then a.slot j else m.slot c j := by
  show ((m.counters.set d a) c).slot j = _
  rw [Table.get_set]
  split <;> rfl

/-- The slots of a counter whose count or flags have been written. -/
theorem slot_same {d : Nat} {a : AtomicCounter} (hm : m'.counters = m.counters.set d a)
    (ha : ∀ j, a.slot j = (m.counters d).slot j) : m'.slot = m.slot := by
  funext c j
  show (m'.counters c).slot j = (m.counters c).slot j
  rw [hm, Table.get_set]
  split
  · rename_i hc
    rw [ha, hc]
  · rfl

theorem slotSet_of {d k : Nat} {g : WaitingFiber}
    (hm : m'.counters = m.counters.set d ((m.counters d).setSlot k g)) : SlotSet m m' d k g := by
  intro c j
  show (m'.counters c).slot j = _
  rw [hm, Table.get_set]
  split
  · rename_i hc
    rw [AtomicCounter.slot_setSlot, hc]
    by_cases hj : j = k
    · rw [if_pos hj, if_pos ⟨rfl, hj⟩]
    · rw [if_neg hj, if_neg fun h => hj h.2]
      rfl
  · rename_i hc
    rw [if_neg fun h => hc h.1]
    rfl

theorem stanceMove_add {w : WaitCall} {j : Nat} {pc : AddPC}
    (hx : exec cfg m i f ch (.add w j pc) = some (m', p')) :
    StanceMove ch m (.add w j pc) m' p' := by
  obtain ⟨a, r, hmove, rfl, rfl⟩ := exec_add hx
  have hcounters : (addMem m w a r).counters = m.counters.set w.counter a := by cases r <;> rfl
  have hpushes : (addMem m w a r).hist.pushes = m.hist.pushes := by cases r <;> rfl
  cases hmove with
  | acquire hfree => exact .take w j rfl rfl hfree (slot_same hcounters fun _ => rfl) rfl
  | writeFiber =>
      exact .write w j .writeFiber .writeTarget
        { m.slot w.counter j with fiberIndex := w.fiber, reg := w.call } rfl rfl rfl (fun _ => ⟨rfl, rfl⟩)
        (slotSet_of hcounters) rfl
  | writeTarget =>
      exact .write w j .writeTarget .writePinned
        { m.slot w.counter j with counterTarget := w.target } rfl rfl rfl (fun h => ⟨h, rfl⟩)
        (slotSet_of hcounters) rfl
  | writePinned =>
      exact .write w j .writePinned .publish
        { m.slot w.counter j with pinnedThreadIndex := w.pinned } rfl rfl rfl (fun h => ⟨h, rfl⟩)
        (slotSet_of hcounters) rfl
  | publish => exact .publish w j rfl rfl (slotSet_of hcounters) rfl
  | won hfree => exact .claim w.counter j w.call none rfl rfl hfree (slotSet_of hcounters) rfl
  | free => exact .freed w j rfl rfl (slot_same hcounters fun _ => rfl) rfl
  | occupied _ _ => exact .stay (slot_same hcounters fun _ => rfl) rfl rfl
  | full _ _ => exact .stay (slot_same hcounters fun _ => rfl) rfl rfl
  | load => exact .stay (slot_same hcounters fun _ => rfl) rfl rfl
  | unclaimed _ => exact .stay (slot_same hcounters fun _ => rfl) rfl rfl
  | onTarget _ => exact .stay (slot_same hcounters fun _ => rfl) rfl rfl
  | taken _ =>
      exact .leave _ _ (slot_same hcounters fun _ => rfl) rfl rfl ⟨rfl, by simp⟩ rfl
  | offTarget _ =>
      exact .leave _ _ (slot_same hcounters fun _ => rfl) rfl rfl ⟨rfl, by simp⟩ rfl
  | lost _ =>
      exact .leave _ _ (slot_same hcounters fun _ => rfl) rfl rfl ⟨rfl, by simp⟩ rfl

theorem stanceMove_scan {x : Scan} {j : Nat} {pc : ScanPC}
    (hx : exec cfg m i f ch (.scan x j pc) = some (m', p')) :
    StanceMove ch m (.scan x j pc) m' p' := by
  obtain ⟨a, r, hmove, rfl, rfl⟩ := exec_scan hx
  have hnext := stance_nextSlot x j
  cases hmove with
  | free _ => exact .stay (slot_same rfl fun _ => rfl) rfl hnext
  | used _ => exact .stay (slot_same rfl fun _ => rfl) rfl hnext
  | occupied _ => exact .stay (slot_same rfl fun _ => rfl) rfl rfl
  | unused hfree => exact .enter x.counter j rfl rfl hfree (slot_same rfl fun _ => rfl) rfl
  | onTarget htarget =>
      refine .find x.counter j rfl ?_ (slot_same rfl fun _ => rfl) rfl
      show some (_, Stance.look _ (some x.value)) = _
      rw [show x.value = (m.slot x.counter j).counterTarget from htarget.symm]
      rfl
  | offTarget _ =>
      exact .leave _ _ (slot_same rfl fun _ => rfl) rfl rfl ⟨rfl, by simp⟩ hnext
  | lost _ => exact .leave _ _ (slot_same rfl fun _ => rfl) rfl rfl ⟨rfl, by simp⟩ hnext
  | won hfree => exact .claim x.counter j _ (some x.value) rfl rfl hfree (slotSet_of rfl) rfl
  | unpinned _ => exact .stay (slot_same rfl fun _ => rfl) rfl rfl
  | pinned _ => exact .stay (slot_same rfl fun _ => rfl) rfl rfl
  | fiber => exact .copy x.counter j _ (some x.value) rfl rfl (slot_same rfl fun _ => rfl) rfl
  | release => exact .leave _ _ (slot_same rfl fun _ => rfl) rfl rfl ⟨rfl, by simp⟩ hnext

theorem stanceMove_pin {x : Scan} {j reg t : Nat} {pc : PinPC}
    (hx : exec cfg m i f ch (.pin x j reg t pc) = some (m', p')) :
    StanceMove ch m (.pin x j reg t pc) m' p' := by
  cases pc with
  | lock =>
      simp only [exec, pinStep] at hx
      split at hx <;> cases hx <;> exact .stay rfl rfl rfl
  | push =>
      cases hx
      exact .push x.counter j reg (some x.value) rfl rfl rfl (Or.inr rfl)
  | unlock =>
      cases hx
      exact .stay rfl rfl rfl

theorem stanceMove_resEnq {k : PushK} {v : Wake} {pc : EnqueuePC}
    (hx : exec cfg m i f ch (.resEnq k v pc) = some (m', p')) :
    StanceMove ch m (.resEnq k v pc) m' p' := by
  cases k with
  | getNextTask =>
      simp only [exec] at hx
      split at hx <;> cases hx <;> exact .stay rfl rfl rfl
  | scan x j =>
      simp only [exec] at hx
      split at hx
      · cases hx
        exact .stay rfl rfl rfl
      · rename_i b hr
        cases hx
        cases b with
        | true => exact .push x.counter j v.reg (some x.value) rfl rfl rfl (Or.inl rfl)
        | false => exact .drop x j v pc rfl hr rfl rfl rfl

theorem exec_stance (hx : exec cfg m i f ch p = some (m', p')) : StanceMove ch m p m' p' := by
  cases p with
  | add w j pc => exact stanceMove_add hx
  | scan x j pc => exact stanceMove_scan hx
  | pin x j reg t pc => exact stanceMove_pin hx
  | resEnq k v pc => exact stanceMove_resEnq hx
  | increment inc =>
      simp only [exec, incrementStep] at hx
      split at hx <;> cases hx
      · exact .stay (slot_same (a := { m.counters inc.counter with
          count := (m.counters inc.counter).count + inc.amount }) rfl fun _ => rfl) rfl rfl
      · exact .stay (slot_same (a := { m.counters inc.counter with
          count := (m.counters inc.counter).count + inc.amount }) rfl fun _ => rfl) rfl rfl
      · refine .stay (slot_same (a := { m.counters inc.counter with
          count := (m.counters inc.counter).count + inc.amount }) rfl fun _ => rfl) ?_ rfl
        show (Hist.announce _ _ _).pushes = _
        rw [Hist.announce_eq]
  | resetCount d k =>
      cases hx
      exact .stay (slot_same (a := { m.counters d with count := 0 }) rfl fun _ => rfl) rfl rfl
  | resetSlot d k q =>
      simp only [exec] at hx
      split at hx <;> cases hx <;>
        exact .stay (slot_same (a := (m.counters d).setFree k true) rfl fun _ => rfl) rfl rfl
  | clean k =>
      simp only [exec, cleanStep] at hx
      split at hx <;> cases hx
      · exact .stay rfl rfl (stance_afterClean k)
      · exact .stay rfl rfl rfl
      · exact .stay rfl rfl (stance_afterClean k)
  | idleEnq k v pc =>
      simp only [exec] at hx
      split at hx <;> cases hx
      · exact .stay rfl rfl rfl
      · exact .stay rfl rfl (stance_afterClean k)
  | _ =>
      simp only [exec, userStep, beginWait, afterWait, submitNext, afterRelease, submitTasks,
        enqueueNext] at hx
      (repeat' split at hx) <;> cases hx <;> exact .stay rfl rfl rfl

/-! ## The invariant -/

theorem Filled.mono {hist hist' : Hist} {g : WaitingFiber} {w : WaitCall}
    (hcall : ∀ r w, hist.call r = some w → hist'.call r = some w) (h : Filled hist c g w) :
    Filled hist' c g w :=
  ⟨hcall _ _ h.call, h.counter, h.fiber, h.target, h.pinned⟩

theorem Fits.mono {hist hist' : Hist} {g : WaitingFiber} {q : Stance}
    (hcall : ∀ r w, hist.call r = some w → hist'.call r = some w) (h : Fits hist c g q) :
    Fits hist' c g q := by
  cases q with
  | fill w pc => exact h
  | look reg found =>
      obtain ⟨⟨w, hw⟩, hreg⟩ := h
      exact ⟨⟨w, hw.mono hcall⟩, hreg⟩
  | hold reg found pushed =>
      obtain ⟨⟨⟨w, hw⟩, hreg⟩, huse⟩ := h
      exact ⟨⟨⟨w, hw.mono hcall⟩, hreg⟩, huse⟩

/-- Whoever fills or holds a slot has found it claimed. -/
theorem Fits.claimed {hist : Hist} {g : WaitingFiber} {q : Stance} (h : Fits hist c g q)
    (hq : q.fills = true ∨ q.holds = true) : g.inUse = true := by
  cases q with
  | fill w pc => exact h.1
  | look reg found => rcases hq with hq | hq <;> cases hq
  | hold reg found pushed => exact h.2

/-- Claiming a slot leaves what the others go by. -/
theorem Fits.claim {hist : Hist} {g : WaitingFiber} {q : Stance} (h : Fits hist c g q) :
    Fits hist c { g with inUse := true } q := by
  cases q with
  | fill w pc =>
      refine ⟨rfl, ?_⟩
      cases pc <;> exact h.2
  | look reg found =>
      obtain ⟨⟨w, hw⟩, hreg⟩ := h
      exact ⟨⟨w, hw.call, hw.counter, hw.fiber, hw.target, hw.pinned⟩, hreg⟩
  | hold reg found pushed =>
      obtain ⟨⟨⟨w, hw⟩, hreg⟩, -⟩ := h
      exact ⟨⟨⟨w, hw.call, hw.counter, hw.fiber, hw.target, hw.pinned⟩, hreg⟩, rfl⟩

namespace SlotInv

/-- The invariant after a step of agent `f`, from what holds of the others and of
where `f` now stands. -/
theorem build (h : SlotInv c s)
    (hother : ∀ b j q, b ≠ f → stance (s.pc b) = some ((c, j), q) →
      Fits m'.hist c (m'.slot c j) q)
    (hunused : ∀ j, (m'.slot c j).inUse = false → ∃ w, Filled m'.hist c (m'.slot c j) w)
    (hfits : ∀ j q, stance p' = some ((c, j), q) → Fits m'.hist c (m'.slot c j) q)
    (hfill : ∀ b j q q', b ≠ f → stance p' = some ((c, j), q') →
      stance (s.pc b) = some ((c, j), q) → q.fills = false ∧ q'.fills = false)
    (hhold : ∀ b j q q', b ≠ f → stance p' = some ((c, j), q') →
      stance (s.pc b) = some ((c, j), q) → ¬ (q.holds = true ∧ q'.holds = true)) :
    SlotInv c ⟨m', s.pc.set f p'⟩ := by
  have hpc : ∀ a, stance ((s.pc.set f p') a) = if a = f then stance p' else stance (s.pc a) := by
    intro a
    rw [Table.get_set]
    split <;> rfl
  constructor
  · intro a j q ha
    replace ha : stance ((s.pc.set f p') a) = some ((c, j), q) := ha
    rw [hpc] at ha
    split at ha
    · exact hfits j q ha
    · rename_i haf
      exact hother a j q haf ha
  · exact hunused
  · intro a b j q q' ha hq hb
    replace ha : stance ((s.pc.set f p') a) = some ((c, j), q) := ha
    replace hb : stance ((s.pc.set f p') b) = some ((c, j), q') := hb
    rw [hpc] at ha hb
    split at ha <;> split at hb <;> rename_i haf hbf
    · exact hbf.trans haf.symm
    · have hnot := (hfill b j q' q hbf ha hb).2
      rw [hnot] at hq
      cases hq
    · have hnot := (hfill a j q q' haf hb ha).1
      rw [hnot] at hq
      cases hq
    · exact h.filler a b j q q' ha hq hb
  · intro a b j q q' ha hq hb hq'
    replace ha : stance ((s.pc.set f p') a) = some ((c, j), q) := ha
    replace hb : stance ((s.pc.set f p') b) = some ((c, j), q') := hb
    rw [hpc] at ha hb
    split at ha <;> split at hb <;> rename_i haf hbf
    · exact hbf.trans haf.symm
    · exact absurd ⟨hq', hq⟩ (hhold b j q' q hbf ha hb)
    · exact absurd ⟨hq, hq'⟩ (hhold a j q q' haf hb ha)
    · exact h.holder a b j q q' ha hq hb hq'

/-- A step that leaves the slots of `c` as they are. -/
theorem same (h : SlotInv c s)
    (hcall : ∀ r w, s.mem.hist.call r = some w → m'.hist.call r = some w)
    (hslot : ∀ j, m'.slot c j = s.mem.slot c j)
    (hq : ∀ j q', stance p' = some ((c, j), q') → ∃ q, stance (s.pc f) = some ((c, j), q) ∧
      (q'.fills = true → q.fills = true) ∧ (q'.holds = true → q.holds = true) ∧
      (Fits s.mem.hist c (s.mem.slot c j) q → Fits s.mem.hist c (s.mem.slot c j) q')) :
    SlotInv c ⟨m', s.pc.set f p'⟩ := by
  refine h.build ?_ ?_ ?_ ?_ ?_
  · intro b j q _ hb
    rw [hslot]
    exact (h.fits b j q hb).mono hcall
  · intro j huse
    rw [hslot] at huse ⊢
    obtain ⟨w, hw⟩ := h.unused j huse
    exact ⟨w, hw.mono hcall⟩
  · intro j q' hp'
    obtain ⟨q, hf, -, -, hfits⟩ := hq j q' hp'
    rw [hslot]
    exact (hfits (h.fits f j q hf)).mono hcall
  · intro b j q q' hbf hp' hb
    obtain ⟨q₀, hf, hfills, -, -⟩ := hq j q' hp'
    constructor
    · by_contra hne
      exact hbf (h.filler b f j q q₀ hb (by simpa using hne) hf).symm
    · by_contra hne
      exact hbf (h.filler f b j q₀ q hf (hfills (by simpa using hne)) hb)
  · rintro b j q q' hbf hp' hb ⟨hholds, hholds'⟩
    obtain ⟨q₀, hf, -, hback, -⟩ := hq j q' hp'
    exact hbf (h.holder f b j q₀ q hf (hback hholds') hb hholds)

/-- A step that leaves the slots as they are and its agent where it stood. -/
theorem keep (h : SlotInv c s)
    (hcall : ∀ r w, s.mem.hist.call r = some w → m'.hist.call r = some w)
    (hslot : m'.slot = s.mem.slot) {d k : Nat} {q q' : Stance}
    (hf : stance (s.pc f) = some ((d, k), q)) (hp' : stance p' = some ((d, k), q'))
    (hfills : q'.fills = q.fills) (hholds : q'.holds = q.holds)
    (hfits : Fits s.mem.hist d (s.mem.slot d k) q → Fits s.mem.hist d (s.mem.slot d k) q') :
    SlotInv c ⟨m', s.pc.set f p'⟩ := by
  refine h.same hcall (fun j => by rw [hslot]) fun j q₁ hq₁ => ?_
  rw [hp'] at hq₁
  cases hq₁
  exact ⟨q, hf, fun hq => hfills ▸ hq, fun hq => hholds ▸ hq, hfits⟩

/-- A step at a slot of another counter. -/
theorem other (h : SlotInv c s)
    (hcall : ∀ r w, s.mem.hist.call r = some w → m'.hist.call r = some w)
    {d k : Nat} (hd : d ≠ c) {g : WaitingFiber} (hset : SlotSet s.mem m' d k g)
    {q' : Stance} (hp' : stance p' = some ((d, k), q')) : SlotInv c ⟨m', s.pc.set f p'⟩ := by
  refine h.same hcall (fun j => ?_) fun j q₁ hq₁ => ?_
  · rw [hset c j, if_neg fun heq => hd heq.1.symm]
  · rw [hp'] at hq₁
    cases hq₁
    exact absurd rfl hd

/-- A step that leaves a slot and its agent to it: the agent may have written the
slot when nobody else stands there, and only claimed it otherwise. -/
theorem written (h : SlotInv c s)
    (hcall : ∀ r w, s.mem.hist.call r = some w → m'.hist.call r = some w)
    {k : Nat} {g : WaitingFiber} (hset : SlotSet s.mem m' c k g) {q q' : Stance}
    (hf : stance (s.pc f) = some ((c, k), q)) (hp' : stance p' = some ((c, k), q'))
    (hfills : q'.fills = true → q.fills = true)
    (hfits : Fits s.mem.hist c g q')
    (halone : q.fills = true ∨ g = { s.mem.slot c k with inUse := true } ∧
      (s.mem.slot c k).inUse = false)
    (hunused : g.inUse = false → ∃ w, Filled s.mem.hist c g w) :
    SlotInv c ⟨m', s.pc.set f p'⟩ := by
  have hslot : ∀ j, m'.slot c j = if j = k then g else s.mem.slot c j := by
    intro j
    rw [hset c j]
    by_cases hj : j = k
    · rw [if_pos ⟨rfl, hj⟩, if_pos hj]
    · rw [if_neg fun heq => hj heq.2, if_neg hj]
  have hplace : ∀ j q₁, stance p' = some ((c, j), q₁) → j = k ∧ q₁ = q' := by
    intro j q₁ hq₁
    rw [hp'] at hq₁
    cases hq₁
    exact ⟨rfl, rfl⟩
  -- another agent at the slot only looks at it
  have hlook : ∀ b q₁, b ≠ f → stance (s.pc b) = some ((c, k), q₁) → q₁.fills = false := by
    intro b q₁ hbf hb
    by_contra hne
    exact hbf (h.filler b f k q₁ q hb (by simpa using hne) hf).symm
  refine h.build ?_ ?_ ?_ ?_ ?_
  · intro b j q₁ hbf hb
    rw [hslot]
    split
    · rename_i hj
      subst hj
      rcases halone with hq | ⟨rfl, -⟩
      · exact absurd (h.filler f b j q q₁ hf hq hb) hbf
      · exact ((h.fits b j q₁ hb).claim).mono hcall
    · exact (h.fits b j q₁ hb).mono hcall
  · intro j huse
    rw [hslot] at huse ⊢
    split at huse
    · rename_i hj
      rw [if_pos hj]
      obtain ⟨w, hw⟩ := hunused huse
      exact ⟨w, hw.mono hcall⟩
    · rename_i hj
      rw [if_neg hj]
      obtain ⟨w, hw⟩ := h.unused j huse
      exact ⟨w, hw.mono hcall⟩
  · intro j q₁ hq₁
    obtain ⟨rfl, rfl⟩ := hplace j q₁ hq₁
    rw [hslot, if_pos rfl]
    exact hfits.mono hcall
  · intro b j q₁ q₂ hbf hq₂ hb
    obtain ⟨rfl, rfl⟩ := hplace j q₂ hq₂
    refine ⟨hlook b q₁ hbf hb, ?_⟩
    by_contra hne
    exact hbf (h.filler f b j q q₁ hf (hfills (by simpa using hne)) hb)
  · rintro b j q₁ q₂ hbf hq₂ hb ⟨hholds, -⟩
    obtain ⟨rfl, rfl⟩ := hplace j q₂ hq₂
    rcases halone with hq | ⟨-, hfree⟩
    · exact hbf (h.filler f b j q q₁ hf hq hb)
    · have hused := (h.fits b j q₁ hb).claimed (Or.inr hholds)
      rw [hfree] at hused
      cases hused

/-- A waiter takes a slot that nobody stands at. -/
theorem take (h : SlotInv c s)
    (hcall : ∀ r w, s.mem.hist.call r = some w → m'.hist.call r = some w)
    (hslot : m'.slot = s.mem.slot) {w : WaitCall} {j : Nat}
    (hp' : p' = .add w j .writeFiber) (hclaimed : w.counter = c → (s.mem.slot c j).inUse = true)
    (hvacant : w.counter = c → ∀ a q, stance (s.pc a) ≠ some ((c, j), q)) :
    SlotInv c ⟨m', s.pc.set f p'⟩ := by
  have hplace : ∀ k q, stance p' = some ((c, k), q) →
      w.counter = c ∧ k = j ∧ q = .fill w .writeFiber := by
    intro k q hq
    rw [hp'] at hq
    cases hq
    exact ⟨rfl, rfl, rfl⟩
  refine h.build ?_ ?_ ?_ ?_ ?_
  · intro b k q _ hb
    rw [hslot]
    exact (h.fits b k q hb).mono hcall
  · intro k huse
    rw [hslot] at huse ⊢
    obtain ⟨v, hv⟩ := h.unused k huse
    exact ⟨v, hv.mono hcall⟩
  · intro k q hq
    obtain ⟨hcounter, rfl, rfl⟩ := hplace k q hq
    rw [hslot]
    exact ⟨hclaimed hcounter, trivial⟩
  · intro b k q q' _ hq' hb
    obtain ⟨hcounter, rfl, -⟩ := hplace k q' hq'
    exact absurd hb (hvacant hcounter b q)
  · rintro b k q q' - hq' hb -
    obtain ⟨hcounter, rfl, -⟩ := hplace k q' hq'
    exact hvacant hcounter b q hb

/-- A scanner finds a slot unclaimed. -/
theorem enter (h : SlotInv c s)
    (hcall : ∀ r w, s.mem.hist.call r = some w → m'.hist.call r = some w)
    (hslot : m'.slot = s.mem.slot) {d j : Nat}
    (hp' : stance p' = some ((d, j), .look none none)) (hfree : (s.mem.slot d j).inUse = false) :
    SlotInv c ⟨m', s.pc.set f p'⟩ := by
  have hplace : ∀ k q, stance p' = some ((c, k), q) → (d = c ∧ k = j) ∧ q = .look none none := by
    intro k q hq
    rw [hp'] at hq
    cases hq
    exact ⟨⟨rfl, rfl⟩, rfl⟩
  refine h.build ?_ ?_ ?_ ?_ ?_
  · intro b k q _ hb
    rw [hslot]
    exact (h.fits b k q hb).mono hcall
  · intro k huse
    rw [hslot] at huse ⊢
    obtain ⟨v, hv⟩ := h.unused k huse
    exact ⟨v, hv.mono hcall⟩
  · intro k q hq
    obtain ⟨⟨rfl, rfl⟩, rfl⟩ := hplace k q hq
    obtain ⟨v, hv⟩ := h.unused k hfree
    rw [hslot]
    exact ⟨⟨v, hv.mono hcall⟩, by simp, by simp⟩
  · intro b k q q' _ hq' hb
    obtain ⟨⟨rfl, rfl⟩, rfl⟩ := hplace k q' hq'
    refine ⟨?_, rfl⟩
    by_contra hne
    have hused := (h.fits b k q hb).claimed (Or.inl (by simpa using hne))
    rw [hfree] at hused
    cases hused
  · rintro b k q q' - hq' - ⟨-, hholds⟩
    rw [(hplace k q' hq').2] at hholds
    cases hholds

theorem exec (h : ∀ c, SlotInv c s) (hc : CallInv cfg s)
    (hg : ∀ w j, s.pc f = .add w j .acquire → (s.mem.counters w.counter).freeWaitingSlots j = true →
      w.counter = c → (s.mem.slot c j).inUse = true ∧ ∀ a q, stance (s.pc a) ≠ some ((c, j), q))
    (hx : exec cfg s.mem i f ch (s.pc f) = some (m', p')) : SlotInv c ⟨m', s.pc.set f p'⟩ := by
  have hcall : ∀ r w, s.mem.hist.call r = some w → m'.hist.call r = some w :=
    fun r w => hc.call_mono (exec_call hx)
  cases exec_stance hx with
  | stay hslot _ hsame =>
      refine (h c).same hcall (fun j => by rw [hslot]) fun j q hq => ?_
      exact ⟨q, hsame ▸ hq, id, id, id⟩
  | leave cj q hslot _ _ _ hnone =>
      refine (h c).same hcall (fun j => by rw [hslot]) fun j q hq => ?_
      rw [hnone] at hq
      cases hq
  | freed w j _ hp' hslot _ =>
      refine (h c).same hcall (fun j => by rw [hslot]) fun j q hq => ?_
      rw [hp'] at hq
      cases hq
  | take w j hp hp' hfree hslot _ =>
      exact (h c).take hcall hslot hp' (fun hcounter => (hg w j hp hfree hcounter).1)
        (fun hcounter => (hg w j hp hfree hcounter).2)
  | write w j pc pc' g hp hp' huse hfilled hset _ =>
      by_cases hcounter : w.counter = c
      · subst hcounter
        obtain ⟨hused, hupto⟩ := (h w.counter).fits f j _ hp
        have hg' : g.inUse = true := huse.trans hused
        refine (h w.counter).written hcall hset hp hp' id ⟨hg', hfilled hupto⟩ (Or.inl rfl) ?_
        intro hfree
        rw [hg'] at hfree
        cases hfree
      · exact (h c).other hcall hcounter hset hp'
  | publish w j hp hp' hset _ =>
      by_cases hcounter : w.counter = c
      · subst hcounter
        have hpstance : stance (s.pc f) = some ((w.counter, j), .fill w .publish) := by
          rw [hp]
          rfl
        obtain ⟨-, ⟨⟨hreg, hfiber⟩, htarget⟩, hpinned⟩ := (h w.counter).fits f j _ hpstance
        obtain ⟨-, hrec, -⟩ := hc.inside f w (by rw [hp]; rfl)
        have hfilled : Filled s.mem.hist w.counter
            { s.mem.slot w.counter j with inUse := false } w :=
          ⟨hreg ▸ hrec, rfl, hfiber, htarget, hpinned⟩
        have hlook : stance p' = some ((w.counter, j), .look (some w.call) none) := by
          rw [hp']
          rfl
        refine (h w.counter).written hcall hset hpstance hlook (by simp [Stance.fills])
          ⟨⟨w, hfilled⟩, ?_, by simp⟩ (Or.inl rfl) fun _ => ⟨w, hfilled⟩
        rintro r hr
        cases hr
        exact hreg
      · exact (h c).other hcall hcounter hset (by rw [hp']; rfl)
  | enter d j _ hp' hfree hslot _ => exact (h c).enter hcall hslot hp' hfree
  | find d j hp hp' hslot _ =>
      refine (h c).keep hcall hslot hp hp' rfl rfl ?_
      rintro ⟨hw, -, -⟩
      refine ⟨hw, ?_, ?_⟩
      · rintro r hr
        cases hr
        rfl
      · rintro v hv
        cases hv
        rfl
  | claim d j r found hp hp' hfree hset _ =>
      by_cases hd : d = c
      · subst hd
        obtain ⟨hw, hreg, hfound⟩ := ((h d).fits f j _ hp).claim
        refine (h d).written hcall hset hp hp' (by simp [Stance.fills])
          ⟨⟨hw, hreg r rfl, hfound⟩, rfl⟩ (Or.inr ⟨rfl, hfree⟩) ?_
        intro huse
        cases huse
      · exact (h c).other hcall hd hset hp'
  | copy d j r found hp hp' hslot _ =>
      refine (h c).keep hcall hslot hp hp' rfl rfl ?_
      rintro ⟨⟨hw, -, hfound⟩, huse⟩
      exact ⟨⟨hw, rfl, hfound⟩, huse⟩
  | push d j r found hp hp' hslot _ => exact (h c).keep hcall hslot hp hp' rfl rfl id
  | drop x j v pc hp _ hp' hslot _ =>
      have hbefore : stance (s.pc f) = some ((x.counter, j), .hold v.reg (some x.value) false) := by
        rw [hp]
        rfl
      have hafter : stance p' = some ((x.counter, j), .hold v.reg (some x.value) true) := by
        rw [hp']
        rfl
      exact (h c).keep hcall hslot hbefore hafter rfl rfl id

theorem start (cfg : Config) (c : Nat) : SlotInv c (start cfg) := by
  have hnone : ∀ a, stance ((Scheduler.start cfg).pc a) = none := by
    intro a
    rw [start_pc]
    split
    · rfl
    · split <;> rfl
  constructor <;> (try simp only [hnone])
  · simp
  · intro j huse
    cases huse
  · simp
  · simp

end SlotInv

end Steps

end TaskDispatcher.Scheduler
