import TaskDispatcher.Scheduler.Slots

/-!
# The registrations of waiting fibers

A registration is a token.  It lies in the slot it was published in, with the
agent that fills it in, has claimed it or has taken it from a queue, or in a
queue of resumable fibers.  Resuming the fiber uses it up, and a waiter that
claims its own slot drops it, so a call of `wait` never leaves one behind.
-/

namespace TaskDispatcher.Scheduler

open TaskDispatcher.Library TaskDispatcher.Container

inductive RegPlace where
  | slot (c j : Nat)
  | hand (a : Nat)
  | resumable (pos : Nat)
  | pinned (t k : Nat)

/-- The registration that only the agent at the slot can pass on. -/
def Stance.reg : Stance → Option Nat
  | .fill w _ => some w.call
  | .look _ _ => none
  | .hold reg _ pushed => if pushed then none else some reg

def stanceReg (p : PC) : Option Nat := (stance p).bind fun x => x.2.reg

/-- The registration an agent holds. -/
def regHand (q : Mpmc Wake) : PC → Option Nat
  | .resEnq _ v pc => if pc.claimed then none else some v.reg
  | .resDeq pc => (pc.claimed.bind (q.log[·]?)).map Wake.reg
  | .getUnlock got => got.map Wake.reg
  | .tryResume _ v => some v.reg
  | .reLock v => some v.reg
  | .rePush v => some v.reg
  | p => stanceReg p

/-- The registration in a published slot. -/
def WaitingFiber.token (g : WaitingFiber) : Option Nat := if g.inUse then none else some g.reg

def regAt (s : State) : RegPlace → Option Nat
  | .slot c j => (s.mem.slot c j).token
  | .hand a => regHand s.mem.resumableFibers (s.pc a)
  | .resumable pos => (s.mem.resumableFibers.entry pos).map Wake.reg
  | .pinned t k => ((s.mem.threads t).pinnedResumableFibers.entry k).map Wake.reg

/-- What a step of agent `f` does to the registrations: some may be gone, `f` has put
one down or picked one up, or a waiter has taken a slot. -/
inductive RegMove (tok tok' : RegPlace → Option Nat) (f : Nat) (p p' : PC) : Prop where
  | keep : (∀ P r, tok' P = some r → tok P = some r) → RegMove tok tok' f p p'
  | put (Q : RegPlace) : tok' (.hand f) = none → (∀ r, tok' Q = some r → tok (.hand f) = some r) →
      (∀ P, P ≠ .hand f → P ≠ Q → ∀ r, tok' P = some r → tok P = some r) →
      callPhase p' = callPhase p → (∀ g k, p' ≠ .yieldTo g k) → RegMove tok tok' f p p'
  | got (P : RegPlace) : tok' P = none → (∀ r, tok' (.hand f) = some r → tok P = some r) →
      (∀ Q, Q ≠ .hand f → Q ≠ P → ∀ r, tok' Q = some r → tok Q = some r) → RegMove tok tok' f p p'
  | taken (w : WaitCall) (j : Nat) : p = .add w j .acquire → p' = .add w j .writeFiber →
      tok' (.hand f) = some w.call →
      (∀ P, P ≠ .hand f → ∀ r, tok' P = some r → tok P = some r) → RegMove tok tok' f p p'

namespace RegMove

variable {tok tok' : RegPlace → Option Nat} {f : Nat} {p p' : PC}

theorem linear (h : RegMove tok tok' f p p') (hlin : Linear tok)
    (hnew : ∀ w j, p = .add w j .acquire → ∀ P, tok P ≠ some w.call) : Linear tok' := by
  cases h with
  | keep hsub => exact hlin.mono hsub
  | put Q hnone hQ hother _ _ =>
      refine hlin.move (p := .hand f) (q := Q) ?_ hQ hother
      intro r hr
      rw [hnone] at hr
      cases hr
  | got P hnone hhand hother =>
      refine hlin.move (p := P) (q := .hand f) ?_ hhand fun Q h1 h2 => hother Q h2 h1
      intro r hr
      rw [hnone] at hr
      cases hr
  | taken w j hp _ hhand hother =>
      refine hlin.create (q := .hand f) ?_ hother
      intro r hr
      rw [hhand] at hr
      cases hr
      exact hnew w j hp

/-- Where a registration comes from. -/
theorem source (h : RegMove tok tok' f p p') {P : RegPlace} {r : Nat} (hP : tok' P = some r) :
    (∃ Q, tok Q = some r) ∨
      ∃ w j, p = .add w j .acquire ∧ p' = .add w j .writeFiber ∧ r = w.call := by
  cases h with
  | keep hsub => exact Or.inl ⟨P, hsub P r hP⟩
  | put Q hnone hQ hother _ _ =>
      by_cases hf : P = .hand f
      · rw [hf, hnone] at hP
        cases hP
      · by_cases hPQ : P = Q
        · exact Or.inl ⟨_, hQ r (hPQ ▸ hP)⟩
        · exact Or.inl ⟨P, hother P hf hPQ r hP⟩
  | got Q hnone hhand hother =>
      by_cases hf : P = .hand f
      · exact Or.inl ⟨Q, hhand r (hf ▸ hP)⟩
      · by_cases hPQ : P = Q
        · rw [hPQ, hnone] at hP
          cases hP
        · exact Or.inl ⟨P, hother P hf hPQ r hP⟩
  | taken w j hp hp' hhand hother =>
      by_cases hf : P = .hand f
      · rw [hf, hhand] at hP
        cases hP
        exact Or.inr ⟨w, j, hp, hp', rfl⟩
      · exact Or.inl ⟨P, hother P hf r hP⟩

/-- A registration that its agent neither keeps nor puts down is gone. -/
theorem consumed (h : RegMove tok tok' f p p') (hlin : Linear tok) {r : Nat}
    (hr : tok (.hand f) = some r) (hnone : tok' (.hand f) = none)
    (hp : callPhase p' ≠ callPhase p ∨ ∃ g k, p' = .yieldTo g k) (P : RegPlace) :
    tok' P ≠ some r := by
  intro hP
  have hne : P ≠ .hand f := by
    rintro rfl
    rw [hnone] at hP
    cases hP
  cases h with
  | keep hsub => exact hne (hlin _ _ r (hsub P r hP) hr)
  | put Q _ _ _ hphase hyield =>
      rcases hp with hne | ⟨g, k, hyield'⟩
      · exact hne hphase
      · exact hyield g k hyield'
  | got Q hQ _ hother =>
      have hPQ : P ≠ Q := by
        rintro rfl
        rw [hQ] at hP
        cases hP
      exact hne (hlin _ _ r (hother P hne hPQ r hP) hr)
  | taken w j _ _ hhand _ =>
      rw [hnone] at hhand
      cases hhand

end RegMove

/-! ## One access -/

section Steps

variable {cfg : Config} {s s' : State} {m m' : Mem} {i f c : Nat} {ch : Choice} {p p' : PC} {l : Label}

/-- What the agent holds shows in how it stands at a slot. -/
def StandsOnly (p : PC) : Prop := ∀ q, regHand q p = stanceReg p

theorem standsOnly_nextSlot (x : Scan) (j : Nat) : StandsOnly (nextSlot x j) := by
  unfold nextSlot
  split
  · exact fun _ => rfl
  · cases x.k <;> exact fun _ => rfl

theorem standsOnly_afterClean (k : CleanK) : StandsOnly (afterClean k) := by
  rcases k with _ | _ | (_ | _) <;> exact fun _ => rfl

theorem stanceReg_afterPush (q : Mpmc Wake) (reg : Nat) (k : PushK) :
    regHand q (afterPush reg k) = none := by
  cases k <;> rfl

/-- The access leaves what the queues of resumable fibers hold. -/
structure QueuesSame (m m' : Mem) : Prop where
  entry : ∀ pos, m'.resumableFibers.entry pos = m.resumableFibers.entry pos
  log : m'.resumableFibers.log = m.resumableFibers.log
  pinned : ∀ t k, (m'.threads t).pinnedResumableFibers.entry k =
    (m.threads t).pinnedResumableFibers.entry k

theorem QueuesSame.of_eq (hres : m'.resumableFibers = m.resumableFibers)
    (hthreads : m'.threads = m.threads) : QueuesSame m m' :=
  ⟨fun _ => by rw [hres], by rw [hres], fun _ _ => by rw [hthreads]⟩

/-- The access only touches the lock of a thread. -/
theorem QueuesSame.of_lock {t : Nat} {th : WorkerThread}
    (hres : m'.resumableFibers = m.resumableFibers) (hthreads : m'.threads = m.threads.set t th)
    (hth : th.pinnedResumableFibers = (m.threads t).pinnedResumableFibers) : QueuesSame m m' := by
  refine ⟨fun _ => by rw [hres], by rw [hres], fun u k => ?_⟩
  rw [hthreads, Table.get_set]
  split
  · rename_i hu
    rw [hth, hu]
  · rfl

theorem regHand_congr {q q' : Mpmc Wake} (hlog : q'.log = q.log) (p : PC) :
    regHand q' p = regHand q p := by
  cases p <;> simp [regHand, hlog]

/-- Appending to the queue does not change what the agents have taken out. -/
theorem regHand_append (hq : QueueInv s) {q' : Mpmc Wake} {v : Wake}
    (hlog : q'.log = s.mem.resumableFibers.log ++ [v]) (a : Nat) :
    regHand q' (s.pc a) = regHand s.mem.resumableFibers (s.pc a) := by
  cases hp : s.pc a with
  | resDeq pc =>
      cases hc : pc.claimed with
      | none => simp [regHand, hc]
      | some pos =>
          have hclaim : (roles resumableCaller s.pc a).claimed = some (.inr pos) := by
            show (resumableCaller (s.pc a)).claimed = _
            rw [hp]
            cases pc <;> cases hc <;> rfl
          have hsome := (hq.resumable.claimed_dequeue hclaim).2.2.2
          simp only [regHand, hc, Option.bind_some, hlog]
          rw [hsome]
          exact congrArg (Option.map Wake.reg) (Mpmc.Inv.log_append v hsome)
  | _ => rfl

theorem regAt_hand (f a : Nat) : regAt ⟨m', s.pc.set f p'⟩ (.hand a) =
    if a = f then regHand m'.resumableFibers p' else regHand m'.resumableFibers (s.pc a) := by
  show regHand m'.resumableFibers ((s.pc.set f p') a) = _
  rw [Table.get_set]
  split <;> rfl

theorem regAt_other (hlog : m'.resumableFibers.log = s.mem.resumableFibers.log) {a : Nat}
    (ha : a ≠ f) : regAt ⟨m', s.pc.set f p'⟩ (.hand a) = regAt s (.hand a) := by
  rw [regAt_hand, if_neg ha, regHand_congr hlog]
  rfl

/-- The registrations away from the agent and from the slots, where the queues stay. -/
theorem regAt_queues (hsame : QueuesSame s.mem m') {P : RegPlace} (hf : P ≠ .hand f)
    (hslot : ∀ c j, P ≠ .slot c j) : regAt ⟨m', s.pc.set f p'⟩ P = regAt s P := by
  cases P with
  | slot c j => exact absurd rfl (hslot c j)
  | hand a => exact regAt_other hsame.log fun ha => hf (by rw [ha])
  | resumable pos => simp only [regAt, hsame.entry]
  | pinned t k => simp only [regAt, hsame.pinned]

theorem regMove_keep (hsame : QueuesSame s.mem m')
    (hslot : ∀ c j, (m'.slot c j).token = (s.mem.slot c j).token)
    (hhand : ∀ r, regHand s.mem.resumableFibers p' = some r →
      regHand s.mem.resumableFibers (s.pc f) = some r) :
    RegMove (regAt s) (regAt ⟨m', s.pc.set f p'⟩) f (s.pc f) p' := by
  refine .keep fun P r hP => ?_
  by_cases hf : P = .hand f
  · rw [hf, regAt_hand, if_pos rfl, regHand_congr hsame.log] at hP
    rw [hf]
    exact hhand r hP
  · cases P with
    | slot c j => exact (hslot c j).symm.trans hP
    | _ =>
        rw [regAt_queues hsame hf (by simp)] at hP
        exact hP

/-- The slots after one of them has been written. -/
theorem regAt_slotSet {d k : Nat} {g : WaitingFiber} (hset : SlotSet s.mem m' d k g) {pc : Table PC}
    (e j : Nat) : regAt ⟨m', pc⟩ (.slot e j) =
      if e = d ∧ j = k then g.token else regAt s (.slot e j) := by
  show (m'.slot e j).token = _
  rw [hset e j]
  split <;> rfl

/-- The registrations away from the agent and from the slot it has written. -/
theorem regAt_away (hsame : QueuesSame s.mem m') {d k : Nat} {g : WaitingFiber}
    (hset : SlotSet s.mem m' d k g) {P : RegPlace} (hf : P ≠ .hand f) (hP : P ≠ .slot d k) :
    regAt ⟨m', s.pc.set f p'⟩ P = regAt s P := by
  cases P with
  | slot e j =>
      rw [regAt_slotSet hset, if_neg]
      rintro ⟨rfl, rfl⟩
      exact hP rfl
  | _ => exact regAt_queues hsame hf (by simp)

theorem regMove_stance (hs : ∀ c, SlotInv c s) (hsame : QueuesSame s.mem m')
    (hp : StandsOnly (s.pc f)) (hp' : StandsOnly p') (hmove : StanceMove ch s.mem (s.pc f) m' p') :
    RegMove (regAt s) (regAt ⟨m', s.pc.set f p'⟩) f (s.pc f) p' := by
  have hkeep : m'.slot = s.mem.slot → (∀ r, stanceReg p' = some r → stanceReg (s.pc f) = some r) →
      RegMove (regAt s) (regAt ⟨m', s.pc.set f p'⟩) f (s.pc f) p' := by
    intro hslot hhand
    refine regMove_keep hsame (fun c j => by rw [hslot]) fun r hr => ?_
    rw [hp'] at hr
    rw [hp]
    exact hhand r hr
  have hnone : m'.slot = s.mem.slot → stanceReg p' = none →
      RegMove (regAt s) (regAt ⟨m', s.pc.set f p'⟩) f (s.pc f) p' := by
    intro hslot hnone
    refine hkeep hslot fun r hr => ?_
    rw [hnone] at hr
    cases hr
  have hafter : regAt ⟨m', s.pc.set f p'⟩ (.hand f) = stanceReg p' := by
    rw [regAt_hand, if_pos rfl, hp']
  have hbefore : regAt s (.hand f) = stanceReg (s.pc f) := hp _
  cases hmove with
  | stay hslot _ heq =>
      refine hkeep hslot fun r hr => ?_
      rwa [stanceReg, heq] at hr
  | leave cj q hslot _ _ _ hgone => exact hnone hslot (by rw [stanceReg, hgone]; rfl)
  | freed w j _ hpc' hslot _ => exact hnone hslot (by rw [hpc']; rfl)
  | take w j hpc hpc' _ hslot _ =>
      refine .taken w j hpc hpc' (by rw [hafter, hpc']; rfl) fun P hP r hr => ?_
      cases P with
      | slot d k => exact (congrArg WaitingFiber.token (by rw [hslot])).trans hr
      | _ =>
          rw [regAt_queues hsame hP (by simp)] at hr
          exact hr
  | write w j pc pc' g hq hq' huse _ hset _ =>
      have hused := ((hs w.counter).fits f j _ hq).1
      refine regMove_keep hsame (fun d k => ?_) fun r hr => ?_
      · rw [hset d k]
        split
        · rename_i hdk
          rw [WaitingFiber.token, huse, WaitingFiber.token, hdk.1, hdk.2, hused]
          rfl
        · rfl
      · rw [hp', stanceReg, hq'] at hr
        rw [hp, stanceReg, hq]
        exact hr
  | publish w j hpc hpc' hset _ =>
      have hq : stance (s.pc f) = some ((w.counter, j), .fill w .publish) := by
        rw [hpc]
        rfl
      have hreg := ((hs w.counter).fits f j _ hq).2.1.1.1
      refine .put (.slot w.counter j) (by rw [hafter, hpc']; rfl) ?_ ?_ (by rw [hpc, hpc']; rfl)
        (by rw [hpc']; simp)
      · intro r hr
        rw [regAt_slotSet hset, if_pos ⟨rfl, rfl⟩] at hr
        replace hr : some (s.mem.slot w.counter j).reg = some r := hr
        rw [hbefore, stanceReg, hq]
        exact (congrArg some hreg.symm).trans hr
      · intro P h1 h2 r hr
        rwa [regAt_away hsame hset h1 h2] at hr
  | enter d j _ hq' _ hslot _ => exact hnone hslot (by rw [stanceReg, hq']; rfl)
  | find d j _ hq' hslot _ => exact hnone hslot (by rw [stanceReg, hq']; rfl)
  | claim d j r found hq hq' hfree hset _ =>
      have hreg := ((hs d).fits f j _ hq).2.1 r rfl
      refine .got (.slot d j) ?_ ?_ ?_
      · rw [regAt_slotSet hset, if_pos ⟨rfl, rfl⟩]
        rfl
      · intro u hu
        rw [hafter, stanceReg, hq'] at hu
        show (s.mem.slot d j).token = some u
        rw [WaitingFiber.token, hfree, hreg]
        exact hu
      · intro P h1 h2 u hu
        rwa [regAt_away hsame hset h1 h2] at hu
  | copy d j r found hq hq' hslot _ =>
      have hreg := ((hs d).fits f j _ hq).1.2.1
      refine hkeep hslot fun u hu => ?_
      rw [stanceReg, hq', hreg] at hu
      rw [stanceReg, hq]
      exact hu
  | push d j r found _ hq' hslot _ => exact hnone hslot (by rw [stanceReg, hq']; rfl)
  | drop x j v pc _ _ hpc' hslot _ => exact hnone hslot (by rw [hpc']; rfl)

/-- An entry is appended to the queue of a thread. -/
theorem regMove_pinned (hq : QueueInv s) {t : Nat} {v : Wake} {th : WorkerThread}
    (hres : m'.resumableFibers = s.mem.resumableFibers)
    (hthreads : m'.threads = s.mem.threads.set t th)
    (hth : th.pinnedResumableFibers =
      (s.mem.threads t).pinnedResumableFibers.enqueue maxWaiting v)
    (hslot : m'.slot = s.mem.slot)
    (hhand : regHand s.mem.resumableFibers (s.pc f) = some v.reg)
    (hnone : regHand s.mem.resumableFibers p' = none)
    (hphase : callPhase p' = callPhase (s.pc f)) (hyield : ∀ g k, p' ≠ .yieldTo g k) :
    RegMove (regAt s) (regAt ⟨m', s.pc.set f p'⟩) f (s.pc f) p' := by
  have hentry := Fifo.entry_enqueue (N := maxWaiting) (hq.pinned t).taken_le v
  have hpin : ∀ k, regAt ⟨m', s.pc.set f p'⟩ (.pinned t k) =
      if k = (s.mem.threads t).pinnedResumableFibers.log.length then some v.reg
      else if (s.mem.threads t).pinnedResumableFibers.full maxWaiting = true then none
      else regAt s (.pinned t k) := by
    intro k
    show ((m'.threads t).pinnedResumableFibers.entry k).map Wake.reg = _
    rw [hthreads, Table.get_set_self, hth, hentry]
    split
    · rfl
    · split <;> rfl
  refine .put (.pinned t (s.mem.threads t).pinnedResumableFibers.log.length) ?_ ?_ ?_ hphase hyield
  · rw [regAt_hand, if_pos rfl, hres, hnone]
  · intro r hr
    rw [hpin, if_pos rfl] at hr
    exact hhand.trans hr
  · intro P h1 h2 r hr
    cases P with
    | slot c j => exact (congrArg WaitingFiber.token (by rw [hslot])).trans hr
    | hand a => rwa [regAt_other (by rw [hres]) fun ha => h1 (by rw [ha])] at hr
    | resumable pos =>
        replace hr : (m'.resumableFibers.entry pos).map Wake.reg = some r := hr
        rw [hres] at hr
        exact hr
    | pinned u k =>
        by_cases hu : u = t
        · subst hu
          rw [hpin, if_neg fun hk => h2 (by rw [hk])] at hr
          split at hr
          · cases hr
          · exact hr
        · replace hr : ((m'.threads u).pinnedResumableFibers.entry k).map Wake.reg = some r := hr
          rw [hthreads, Table.get_set_ne _ _ hu] at hr
          exact hr

/-- The oldest entry of the queue of a thread is taken out. -/
theorem regMove_popped {t : Nat} {v : Wake} {th : WorkerThread}
    (hres : m'.resumableFibers = s.mem.resumableFibers)
    (hthreads : m'.threads = s.mem.threads.set t th)
    (hlog : th.pinnedResumableFibers.log = (s.mem.threads t).pinnedResumableFibers.log)
    (htaken : th.pinnedResumableFibers.taken = (s.mem.threads t).pinnedResumableFibers.taken + 1)
    (hv : (s.mem.threads t).pinnedResumableFibers.log[(s.mem.threads t).pinnedResumableFibers.taken]? =
      some v)
    (hslot : m'.slot = s.mem.slot) (hhand : regHand s.mem.resumableFibers p' = some v.reg) :
    RegMove (regAt s) (regAt ⟨m', s.pc.set f p'⟩) f (s.pc f) p' := by
  have hpin : ∀ k, regAt ⟨m', s.pc.set f p'⟩ (.pinned t k) =
      if k = (s.mem.threads t).pinnedResumableFibers.taken then none else regAt s (.pinned t k) := by
    intro k
    show ((m'.threads t).pinnedResumableFibers.entry k).map Wake.reg = _
    rw [hthreads, Table.get_set_self, Fifo.entry_dequeue hlog htaken]
    split <;> rfl
  refine .got (.pinned t (s.mem.threads t).pinnedResumableFibers.taken) ?_ ?_ ?_
  · rw [hpin, if_pos rfl]
  · intro r hr
    rw [regAt_hand, if_pos rfl, hres, hhand] at hr
    show ((s.mem.threads t).pinnedResumableFibers.entry _).map Wake.reg = some r
    rw [Fifo.entry, if_pos (le_refl _), hv]
    exact hr
  · intro P h1 h2 r hr
    cases P with
    | slot c j => exact (congrArg WaitingFiber.token (by rw [hslot])).trans hr
    | hand a => rwa [regAt_other (by rw [hres]) fun ha => h1 (by rw [ha])] at hr
    | resumable pos =>
        replace hr : (m'.resumableFibers.entry pos).map Wake.reg = some r := hr
        rw [hres] at hr
        exact hr
    | pinned u k =>
        by_cases hu : u = t
        · subst hu
          rwa [hpin, if_neg fun hk => h2 (by rw [hk])] at hr
        · replace hr : ((m'.threads u).pinnedResumableFibers.entry k).map Wake.reg = some r := hr
          rw [hthreads, Table.get_set_ne _ _ hu] at hr
          exact hr

theorem regMove_resEnq (hq : QueueInv s) {k : PushK} {v : Wake} {pc : EnqueuePC}
    (hp : s.pc f = .resEnq k v pc)
    (hx : exec cfg s.mem i f ch (s.pc f) = some (m', p')) :
    RegMove (regAt s) (regAt ⟨m', s.pc.set f p'⟩) f (s.pc f) p' := by
  have heffect := Mpmc.enqueueStep_effect s.mem.resumableFibers v (ch = .spurious) pc
  have hframe : m'.resumableFibers =
      (Mpmc.enqueueStep 0 v (ch = .spurious) s.mem.resumableFibers pc).1 ∧
      m'.threads = s.mem.threads ∧ m'.slot = s.mem.slot := by
    rw [hp] at hx
    simp only [exec] at hx
    split at hx <;> cases hx
    · exact ⟨rfl, rfl, rfl⟩
    · split <;> exact ⟨rfl, rfl, rfl⟩
  have hnext : p' = Sum.elim (.resEnq k v) (fun _ => afterPush v.reg k)
      (Mpmc.enqueueStep 0 v (ch = .spurious) s.mem.resumableFibers pc).2 := by
    rw [hp] at hx
    simp only [exec] at hx
    split at hx <;> rename_i hr <;> cases hx <;> rw [hr] <;> rfl
  obtain ⟨hres, hthreads, hslot⟩ := hframe
  generalize hr : (Mpmc.enqueueStep 0 v (ch = .spurious) s.mem.resumableFibers pc).2 = r at heffect hnext
  rw [← hres] at heffect
  have hkeep : m'.resumableFibers.log = s.mem.resumableFibers.log →
      m'.resumableFibers.dequeuePos = s.mem.resumableFibers.dequeuePos →
      (∀ r, regHand s.mem.resumableFibers p' = some r →
        regHand s.mem.resumableFibers (s.pc f) = some r) →
      RegMove (regAt s) (regAt ⟨m', s.pc.set f p'⟩) f (s.pc f) p' := by
    intro hlog hdeq hhand
    exact regMove_keep ⟨Mpmc.entry_congr hlog hdeq, hlog, fun _ _ => by rw [hthreads]⟩
      (fun c j => by rw [hslot]) hhand
  cases heffect with
  | @quiet pc' hclaimed hlog hdeq =>
      replace hnext : p' = .resEnq k v pc' := hnext
      refine hkeep hlog hdeq fun r hr => ?_
      rw [hp]
      rw [hnext] at hr
      simp only [regHand, hclaimed] at hr ⊢
      exact hr
  | done hclaimed hlog hdeq =>
      replace hnext : p' = afterPush v.reg k := hnext
      refine hkeep hlog hdeq fun r hr => ?_
      rw [hnext, stanceReg_afterPush] at hr
      cases hr
  | full _ _ hsame =>
      replace hnext : p' = afterPush v.reg k := hnext
      refine hkeep (by rw [hsame]) (by rw [hsame]) fun r hr => ?_
      rw [hnext, stanceReg_afterPush] at hr
      cases hr
  | put hbefore hafter hlog hdeq =>
      have hle : s.mem.resumableFibers.dequeuePos ≤ s.mem.resumableFibers.log.length := by
        rw [hq.resumable.log_length]
        exact hq.resumable.deq_le
      have hentry := Mpmc.entry_put hlog hdeq hle
      replace hnext : p' = .resEnq k v _ := hnext
      refine .put (.resumable s.mem.resumableFibers.log.length) ?_ ?_ ?_ ?_ ?_
      · rw [regAt_hand, if_pos rfl, hnext]
        simp only [regHand, hafter, if_true]
      · intro r hr
        replace hr : (m'.resumableFibers.entry _).map Wake.reg = some r := hr
        rw [hentry, if_pos rfl] at hr
        show regHand s.mem.resumableFibers (s.pc f) = some r
        rw [hp]
        simp only [regHand, hbefore]
        exact hr
      · intro P h1 h2 r hr
        cases P with
        | slot c j => exact (congrArg WaitingFiber.token (by rw [hslot])).trans hr
        | hand a =>
            rw [regAt_hand, if_neg fun ha => h1 (by rw [ha]), regHand_append hq hlog] at hr
            exact hr
        | resumable pos =>
            replace hr : (m'.resumableFibers.entry pos).map Wake.reg = some r := hr
            rw [hentry, if_neg fun hpos => h2 (by rw [hpos])] at hr
            exact hr
        | pinned t k =>
            replace hr : ((m'.threads t).pinnedResumableFibers.entry k).map Wake.reg = some r := hr
            rw [hthreads] at hr
            exact hr
      · rw [hnext, hp]
        rfl
      · rw [hnext]
        simp

theorem regMove_resDeq (hq : QueueInv s) {pc : DequeuePC Wake} (hp : s.pc f = .resDeq pc)
    (hx : exec cfg s.mem i f ch (s.pc f) = some (m', p')) :
    RegMove (regAt s) (regAt ⟨m', s.pc.set f p'⟩) f (s.pc f) p' := by
  have heffect := Mpmc.dequeueStep_effect s.mem.resumableFibers (ch = .spurious) pc
  have hframe : m'.resumableFibers =
      (Mpmc.dequeueStep 0 (ch = .spurious) s.mem.resumableFibers pc).1 ∧
      m'.threads = s.mem.threads ∧ m'.slot = s.mem.slot := by
    rw [hp] at hx
    simp only [exec] at hx
    split at hx <;> cases hx <;> exact ⟨rfl, rfl, rfl⟩
  have hnext : p' = Sum.elim .resDeq (fun got => got.elim (.taskDeq .load) (.tryResume .global))
      (Mpmc.dequeueStep 0 (ch = .spurious) s.mem.resumableFibers pc).2 := by
    rw [hp] at hx
    simp only [exec] at hx
    split at hx <;> rename_i hr <;> cases hx <;> rw [hr] <;> rfl
  obtain ⟨hres, hthreads, hslot⟩ := hframe
  generalize hr : (Mpmc.dequeueStep 0 (ch = .spurious) s.mem.resumableFibers pc).2 = r at heffect hnext
  rw [← hres] at heffect
  have hkeep : m'.resumableFibers.log = s.mem.resumableFibers.log →
      m'.resumableFibers.dequeuePos = s.mem.resumableFibers.dequeuePos →
      (∀ r, regHand s.mem.resumableFibers p' = some r →
        regHand s.mem.resumableFibers (s.pc f) = some r) →
      RegMove (regAt s) (regAt ⟨m', s.pc.set f p'⟩) f (s.pc f) p' := by
    intro hlog hdeq hhand
    exact regMove_keep ⟨Mpmc.entry_congr hlog hdeq, hlog, fun _ _ => by rw [hthreads]⟩
      (fun c j => by rw [hslot]) hhand
  cases heffect with
  | @quiet pc' hclaimed hlog hdeq =>
      replace hnext : p' = .resDeq pc' := hnext
      refine hkeep hlog hdeq fun r hr => ?_
      rw [hp]
      rw [hnext] at hr
      simp only [regHand, hclaimed] at hr ⊢
      exact hr
  | empty _ _ hsame =>
      replace hnext : p' = .taskDeq .load := hnext
      refine hkeep (by rw [hsame]) (by rw [hsame]) fun r hr => ?_
      rw [hnext] at hr
      cases hr
  | @done pos x hpub hlog hdeq =>
      have hok := hq.resumable.ok f
      simp only [roles, hp, resumableCaller, hpub, Mpmc.CallerOk] at hok
      replace hnext : p' = .tryResume .global x := hnext
      refine hkeep hlog hdeq fun r hr => ?_
      rw [hnext] at hr
      rw [hp, hpub]
      simp only [regHand, DequeuePC.claimed, Option.bind_some, hok.2.2.2.1]
      rw [hok.2.2.2.2] at hr
      exact hr
  | take hclaim hafter hlog hdeq =>
      have hentry := Mpmc.entry_take hlog hdeq
      replace hnext : p' = .resDeq _ := hnext
      refine .got (.resumable s.mem.resumableFibers.dequeuePos) ?_ ?_ ?_
      · show (m'.resumableFibers.entry _).map Wake.reg = none
        rw [hentry, if_pos rfl]
        rfl
      · intro r hr
        rw [regAt_hand, if_pos rfl, hnext] at hr
        simp only [regHand, hafter, Option.bind_some, hlog] at hr
        show (s.mem.resumableFibers.entry _).map Wake.reg = some r
        rw [Mpmc.entry_dequeuePos]
        exact hr
      · intro P h1 h2 r hr
        cases P with
        | slot c j => exact (congrArg WaitingFiber.token (by rw [hslot])).trans hr
        | hand a => rwa [regAt_other hlog fun ha => h1 (by rw [ha])] at hr
        | resumable pos =>
            replace hr : (m'.resumableFibers.entry pos).map Wake.reg = some r := hr
            rw [hentry, if_neg fun hpos => h2 (by rw [hpos])] at hr
            exact hr
        | pinned t k =>
            replace hr : ((m'.threads t).pinnedResumableFibers.entry k).map Wake.reg = some r := hr
            rw [hthreads] at hr
            exact hr

theorem exec_reg (hs : ∀ c, SlotInv c s) (hq : QueueInv s)
    (hx : exec cfg s.mem i f ch (s.pc f) = some (m', p')) :
    RegMove (regAt s) (regAt ⟨m', s.pc.set f p'⟩) f (s.pc f) p' := by
  have hmove := exec_stance hx
  obtain ⟨p, hp⟩ : ∃ p, s.pc f = p := ⟨_, rfl⟩
  have hx' := hx
  rw [hp] at hx'
  cases p with
  | resEnq k v pc => exact regMove_resEnq hq hp hx
  | resDeq pc => exact regMove_resDeq hq hp hx
  | getPop =>
      cases hx'
      rcases (hq.pinned i).dequeue maxWaiting_capacity with ⟨-, hd⟩ | ⟨v, hv, hout, hlog, htaken, -⟩
      · refine regMove_keep (.of_lock rfl rfl (by rw [hd])) (fun _ _ => rfl) fun r hr => ?_
        rw [hd] at hr
        cases hr
      · exact regMove_popped rfl rfl hlog htaken hv rfl (by rw [hout]; rfl)
  | rePush v =>
      cases hx'
      exact regMove_pinned hq (v := v) rfl rfl rfl rfl (by rw [hp]; rfl) rfl (by rw [hp]; rfl)
        (by simp)
  | getLock =>
      simp only [exec] at hx'
      split at hx' <;> cases hx'
      · exact regMove_keep (.of_eq rfl rfl) (fun _ _ => rfl) (by simp [regHand, stanceReg, stance])
      · exact regMove_keep (.of_lock rfl rfl rfl) (fun _ _ => rfl)
          (by simp [regHand, stanceReg, stance])
  | getUnlock got =>
      cases hx'
      refine regMove_keep (.of_lock rfl rfl rfl) (fun _ _ => rfl) fun r hr => ?_
      rw [hp]
      cases got with
      | none => cases hr
      | some v => exact hr
  | tryResume src v =>
      simp only [exec] at hx'
      split at hx'
      · cases hx'
        refine regMove_keep (.of_eq rfl rfl) (fun _ _ => rfl) fun r hr => ?_
        cases hr
      · split at hx' <;> cases hx' <;>
          exact regMove_keep (.of_eq rfl rfl) (fun _ _ => rfl) fun r hr => hp ▸ hr
  | reLock v =>
      simp only [exec] at hx'
      split at hx' <;> cases hx'
      · exact regMove_keep (.of_eq rfl rfl) (fun _ _ => rfl) fun r hr => hp ▸ hr
      · exact regMove_keep (.of_lock rfl rfl rfl) (fun _ _ => rfl) fun r hr => hp ▸ hr
  | reUnlock =>
      cases hx'
      exact regMove_keep (.of_lock rfl rfl rfl) (fun _ _ => rfl) fun r hr => by cases hr
  | pin x j reg t pc =>
      have hfits := (hs x.counter).fits f j
      rw [hp] at hfits
      cases pc with
      | lock =>
          simp only [exec, pinStep] at hx'
          split at hx' <;> cases hx'
          · exact regMove_keep (.of_eq rfl rfl) (fun _ _ => rfl) fun r hr => hp ▸ hr
          · exact regMove_keep (.of_lock rfl rfl rfl) (fun _ _ => rfl) fun r hr => hp ▸ hr
      | unlock =>
          cases hx'
          exact regMove_keep (.of_lock rfl rfl rfl) (fun _ _ => rfl)
            (by simp [regHand, stanceReg, stance, Stance.reg])
      | push =>
          cases hx'
          have hreg := (hfits (.hold reg (some x.value) false) rfl).1.2.1
          refine regMove_pinned hq (v := s.mem.slotWake x.counter j) rfl rfl rfl rfl ?_ rfl
            (by rw [hp]; rfl) (by simp)
          rw [hp]
          exact congrArg some hreg.symm
  | add w j pc =>
      obtain ⟨a, r, -, rfl, rfl⟩ := exec_add hx'
      refine regMove_stance hs ?_ (fun _ => by rw [hp]; rfl) ?_ hmove
      · cases r <;> exact .of_eq rfl rfl
      · rcases r with _ | (_ | _) | _ <;> exact fun _ => rfl
  | scan x j pc =>
      obtain ⟨a, r, -, rfl, rfl⟩ := exec_scan hx'
      refine regMove_stance hs (.of_eq rfl rfl) (fun _ => by rw [hp]; rfl) ?_ hmove
      cases r with
      | skip => exact standsOnly_nextSlot x j
      | _ => exact fun _ => rfl
  | clean k =>
      simp only [exec, cleanStep] at hx'
      split at hx' <;> cases hx' <;> first
        | exact regMove_stance hs (.of_eq rfl rfl) (fun _ => by rw [hp]; rfl)
            (standsOnly_afterClean k) hmove
        | exact regMove_stance hs (.of_eq rfl rfl) (fun _ => by rw [hp]; rfl) (fun _ => rfl) hmove
  | idleEnq k v pc =>
      simp only [exec] at hx'
      split at hx' <;> cases hx'
      · exact regMove_stance hs (.of_eq rfl rfl) (fun _ => by rw [hp]; rfl) (fun _ => rfl) hmove
      · exact regMove_stance hs (.of_eq rfl rfl) (fun _ => by rw [hp]; rfl)
          (standsOnly_afterClean k) hmove
  | _ =>
      simp only [exec, userStep, beginWait, afterWait, incrementStep, submitNext, afterRelease,
        submitTasks, enqueueNext] at hx'
      (repeat' split at hx') <;> cases hx' <;>
        exact regMove_stance hs (.of_eq rfl rfl) (fun _ => by rw [hp]; rfl) (fun _ => rfl) hmove

/-! ## The invariant -/

/-- The call has taken a slot and its fiber has not been resumed. -/
def Waits (s : State) (w : WaitCall) : Prop :=
  (∃ j pc, pc ≠ .acquire ∧ s.pc w.fiber = .add w j pc) ∨ callPhase (s.pc w.fiber) = .suspended w

/-- A fiber in `wait` that runs again and has not left it. -/
def woken : PC → Bool
  | .clean (.yielded (.wait _)) => true
  | .idleEnq (.yielded (.wait _)) _ _ => true
  | _ => false

structure RegInv (cfg : Config) (s : State) : Prop where
  linear : Linear (regAt s)
  waits : ∀ P r, regAt s P = some r → ∃ w, s.mem.hist.call r = some w ∧ Waits s w
  awake : ∀ i, i < cfg.numThreads → ∀ w, callPhase (s.pc (s.mem.running i)) = .suspended w →
    woken (s.pc (s.mem.running i)) = true → ∀ P, regAt s P ≠ some w.call
  resumed : ∀ a g src w, s.pc a = .yieldTo g (.resume src) →
    callPhase (s.pc g) = .suspended w → ∀ P, regAt s P ≠ some w.call

theorem Waits.inside {w : WaitCall} (h : Waits s w) : (callPhase (s.pc w.fiber)).call = some w := by
  rcases h with ⟨j, pc, -, hp⟩ | hp <;> rw [hp] <;> rfl

/-- Only a fiber that has been resumed leaves `wait` from its suspension. -/
theorem woken_of_done {w : WaitCall} (hx : exec cfg m i f ch p = some (m', p'))
    (hp : callPhase p = .suspended w) (hp' : p' = .waitDone w) : woken p = true := by
  subst hp'
  cases p with
  | clean k => rcases k with _ | _ | (_ | _) <;> first | rfl | cases hp
  | idleEnq k v pc => rcases k with _ | _ | (_ | _) <;> first | rfl | cases hp
  | idleDeq k pc =>
      simp only [exec] at hx
      split at hx <;> (try split at hx) <;> cases hx
  | yieldTo g k => cases hx
  | _ => cases hp

/-- A resumed fiber that is still in `wait` was there before. -/
theorem woken_back (hx : exec cfg m i f ch p = some (m', p')) (hsw : switches p = false)
    (hp' : woken p' = true) : woken p = true := by
  cases p with
  | add w j pc =>
      obtain ⟨a, r, -, -, rfl⟩ := exec_add hx
      rcases r with _ | (_ | _) | _ <;> cases hp'
  | scan x j pc =>
      obtain ⟨a, r, -, -, rfl⟩ := exec_scan hx
      cases r with
      | skip =>
          simp only [scanNext, nextSlot] at hp'
          split at hp'
          · cases hp'
          · cases hk : x.k <;> rw [hk] at hp' <;> cases hp'
      | _ => cases hp'
  | clean k =>
      simp only [exec, cleanStep] at hx
      rcases k with _ | _ | (_ | _) <;> split at hx <;> cases hx <;> first | rfl | cases hp'
  | idleEnq k v pc =>
      simp only [exec] at hx
      rcases k with _ | _ | (_ | _) <;> split at hx <;> cases hx <;> first | rfl | cases hp'
  | resEnq k v pc =>
      simp only [exec] at hx
      cases k <;> split at hx <;> cases hx <;> cases hp'
  | yieldTo g k => cases hsw
  | _ =>
      simp only [exec, userStep, beginWait, afterWait, incrementStep, submitNext, afterRelease,
        pinStep, submitTasks, enqueueNext] at hx
      (repeat' split at hx) <;> cases hx <;> cases hp'

/-- A fiber is taken for resumption by exchanging its flag. -/
theorem resume_back {g : Nat} {src : ResumeSource}
    (hx : exec cfg m i f ch p = some (m', .yieldTo g (.resume src))) :
    ∃ v, p = .tryResume src v ∧ v.fiber = g ∧ m.isWaitingCleanedUp g = true := by
  cases p with
  | tryResume src' v =>
      simp only [exec] at hx
      split at hx
      · rename_i hflag
        cases hx
        exact ⟨v, rfl, rfl, hflag⟩
      · split at hx <;> cases hx
  | add w j pc =>
      obtain ⟨a, r, -, -, hr⟩ := exec_add hx
      rcases r with _ | (_ | _) | _ <;> cases hr
  | scan x j pc =>
      obtain ⟨a, r, -, -, hr⟩ := exec_scan hx
      cases r with
      | skip =>
          simp only [scanNext, nextSlot] at hr
          split at hr
          · cases hr
          · cases hk : x.k <;> rw [hk] at hr <;> cases hr
      | _ => cases hr
  | clean k =>
      simp only [exec, cleanStep] at hx
      rcases k with _ | _ | (_ | _) <;> split at hx <;> cases hx
  | idleEnq k v pc =>
      simp only [exec] at hx
      rcases k with _ | _ | (_ | _) <;> split at hx <;> cases hx
  | resEnq k v pc =>
      simp only [exec] at hx
      cases k <;> split at hx <;> cases hx
  | getUnlock got => cases got <;> cases hx
  | loop =>
      simp only [exec] at hx
      split at hx <;> cases hx
  | entry =>
      simp only [exec] at hx
      split at hx <;> cases hx
  | resetSlot c j k =>
      simp only [exec] at hx
      split at hx <;> cases hx
  | _ =>
      simp only [exec, userStep, beginWait, afterWait, incrementStep, submitNext, afterRelease,
        pinStep, submitTasks, enqueueNext] at hx
      (repeat' split at hx) <;> cases hx

/-- A call goes on waiting until it returns. -/
theorem Waits.exec {w : WaitCall} (h : Waits s w) (hx : exec cfg s.mem i f ch (s.pc f) = some (m', p')) :
    Waits ⟨m', s.pc.set f p'⟩ w ∨ w.fiber = f ∧
      ((∃ j, s.pc f = .add w j .free ∧ p' = .waitDone w) ∨
        callPhase (s.pc f) = .suspended w ∧ p' = .waitDone w ∧ woken (s.pc f) = true) := by
  by_cases hwf : w.fiber = f
  · rcases h with ⟨j, pc, hpc, hp⟩ | hp
    · rw [hwf] at hp
      rw [hp] at hx
      obtain ⟨a, r, hmove, -, rfl⟩ := exec_add hx
      have hgo : ∀ j' pc', pc' ≠ .acquire → Waits ⟨m', s.pc.set f (.add w j' pc')⟩ w := by
        intro j' pc' hne
        refine Or.inl ⟨j', pc', hne, ?_⟩
        rw [hwf]
        exact Table.get_set_self _ _ _
      have hstop : Waits ⟨m', s.pc.set f (.idleDeq (.wait w) .load)⟩ w := by
        refine Or.inr ?_
        show callPhase ((s.pc.set f _) w.fiber) = _
        rw [hwf, Table.get_set_self]
        rfl
      cases hmove with
      | acquire _ => exact absurd rfl hpc
      | occupied _ _ => exact absurd rfl hpc
      | full _ _ => exact absurd rfl hpc
      | free => exact Or.inr ⟨hwf, Or.inl ⟨j, hp, rfl⟩⟩
      | taken _ => exact Or.inl hstop
      | offTarget _ => exact Or.inl hstop
      | lost _ => exact Or.inl hstop
      | _ => exact Or.inl (hgo _ _ (by simp))
    · rw [hwf] at hp
      have hstay : callPhase p' = .suspended w → Waits ⟨m', s.pc.set f p'⟩ w := by
        intro hp'
        refine Or.inr ?_
        show callPhase ((s.pc.set f p') w.fiber) = _
        rw [hwf, Table.get_set_self, hp']
      cases exec_call hx with
      | same hphase _ => exact Or.inl (hstay (hphase.trans hp))
      | woken v hv hp' _ =>
          rw [hp] at hv
          cases hv
          exact Or.inr ⟨hwf, Or.inr ⟨hp, hp', woken_of_done hx hp hp'⟩⟩
      | begin v hv _ _ _ _ =>
          rw [hv] at hp
          cases hp
      | added v j pc b hv _ _ =>
          rw [hv] at hp
          cases hp
      | ended v hv _ _ =>
          rw [hv] at hp
          cases hp
  · left
    have hsame : (s.pc.set f p') w.fiber = s.pc w.fiber := Table.get_set_ne _ _ hwf
    rcases h with ⟨j, pc, hpc, hp⟩ | hp
    · exact Or.inl ⟨j, pc, hpc, hsame.trans hp⟩
    · exact Or.inr ((congrArg callPhase hsame).trans hp)

/-- A fiber that starts to run on a thread is in no call of `wait`, or has just been resumed. -/
theorem switched_call (h : FiberInv cfg s) (hi : i < cfg.numThreads)
    (hx : exec cfg s.mem i (s.mem.running i) ch (s.pc (s.mem.running i)) = some (m', p'))
    (hsw : switches (s.pc (s.mem.running i)) = true) :
    callPhase ((s.pc.set (s.mem.running i) p') (m'.running i)) = .none ∨
      ∃ src, s.pc (s.mem.running i) = .yieldTo (m'.running i) (.resume src) ∧
        (s.pc.set (s.mem.running i) p') (m'.running i) = s.pc (m'.running i) := by
  have hpool : ∀ {p}, PoolPC p → callPhase p = .none := by
    rintro p (rfl | ⟨src, rfl⟩) <;> rfl
  have hhand : ∀ g, fiberHand s.mem.idleFibers (s.pc (s.mem.running i)) = some g →
      (s.pc.set (s.mem.running i) p') g = s.pc g ∧
        Resting s (.hand (s.mem.running i)) (s.pc g) := by
    intro g hg
    have hat : fiberAt cfg s (.hand (s.mem.running i)) = some g := hg
    exact ⟨Table.get_set_ne _ _ (h.ne_running hi hat (by simp)), h.resting _ g hat⟩
  have hrun : ∀ t : Tls, m'.tls = s.mem.tls.set i t → m'.running i = t.running := by
    intro t ht
    rw [Mem.running, ht, Table.get_set_self]
  obtain ⟨p, hp⟩ : ∃ p, s.pc (s.mem.running i) = p := ⟨_, rfl⟩
  have hx' := hx
  rw [hp] at hx'
  cases p with
  | startSwitch g =>
      obtain ⟨hsame, hrest⟩ := hhand g (by rw [hp]; rfl)
      simp only [Resting, hp, resuming] at hrest
      cases hx'
      left
      rw [hrun _ rfl, hsame]
      exact hpool hrest
  | yieldTo g k =>
      obtain ⟨hsame, hrest⟩ := hhand g (by rw [hp]; rfl)
      have hg : m'.running i = g := by
        cases hx'
        exact hrun _ rfl
      cases k with
      | wait w =>
          left
          rw [hg, hsame]
          simp only [Resting, hp, resuming] at hrest
          exact hpool hrest
      | resume src =>
          right
          rw [hg]
          exact ⟨src, hp, hsame⟩
  | exitSwitch =>
      left
      have hg : m'.running i = cfg.numFibers + i := by
        cases hx'
        exact hrun _ rfl
      have hquiet : callPhase (s.pc (cfg.numFibers + i)) = .none := by
        rcases h.thread i hi with ⟨⟨pc, hthread⟩ | ⟨g, hthread⟩, -⟩ | hthread <;> rw [hthread] <;> rfl
      rw [hg, Table.get_set]
      split
      · cases hx'
        rfl
      · exact hquiet
  | _ =>
      rw [hp] at hsw
      cases hsw

namespace RegInv

/-- A registration that is nowhere does not come back. -/
theorem absent (hc : CallInv cfg s)
    (hm : RegMove (regAt s) (regAt ⟨m', s.pc.set f p'⟩) f (s.pc f) p') {g : Nat} {w : WaitCall}
    (hw : (callPhase (s.pc g)).call = some w) (hg : g ≠ f ∨ callPhase (s.pc g) = .suspended w)
    (hno : ∀ P, regAt s P ≠ some w.call) (P : RegPlace) :
    regAt ⟨m', s.pc.set f p'⟩ P ≠ some w.call := by
  intro hP
  rcases hm.source hP with ⟨Q, hQ⟩ | ⟨v, j, hp, -, heq⟩
  · exact hno Q hQ
  · obtain ⟨hgf, hwv⟩ := hc.inside_inj hw (b := f) (v := v) (by rw [hp]; rfl) heq
    rcases hg with hne | hsusp
    · exact hne hgf
    · rw [hgf, hp] at hsusp
      cases hsusp

/-- An entry belongs to the call its fiber is suspended in. -/
theorem call_of_entry (h : RegInv cfg s) (hwakes : WakeInv s)
    {src : ResumeSource} {v : Wake} (hp : s.pc f = .tryResume src v) {w : WaitCall}
    (hw : callPhase (s.pc v.fiber) = .suspended w) : s.mem.hist.call v.reg = some w := by
  have htoken : regAt s (.hand f) = some v.reg := by
    show regHand _ (s.pc f) = _
    rw [hp]
    rfl
  obtain ⟨w', hrec, hwaits⟩ := h.waits _ _ htoken
  obtain ⟨u, hu, hfiber⟩ := hwakes.held f v (by rw [hp]; rfl)
  rw [hu] at hrec
  obtain rfl := Option.some.inj hrec
  have hinside := hwaits.inside
  rw [hfiber, hw] at hinside
  obtain rfl := Option.some.inj hinside
  exact hu

theorem exec (h : RegInv cfg s) (hf : FiberInv cfg s) (hq : QueueInv s) (hc : CallInv cfg s)
    (hwakes : WakeInv s) (hs : ∀ c, SlotInv c s) (hi : i < cfg.numThreads)
    (hx : exec cfg s.mem i (s.mem.running i) ch (s.pc (s.mem.running i)) = some (m', p')) :
    RegInv cfg ⟨m', s.pc.set (s.mem.running i) p'⟩ := by
  have hmove := exec_reg hs hq hx
  have hcall := fun {r w} => hc.call_mono (exec_call hx) (r := r) (w := w)
  have hnew : ∀ w j, s.pc (s.mem.running i) = .add w j .acquire → ∀ P, regAt s P ≠ some w.call := by
    intro w j hp P hP
    obtain ⟨v, hv, hwaits⟩ := h.waits P _ hP
    obtain ⟨hfiber, hrec, -⟩ := hc.inside (s.mem.running i) w (by rw [hp]; rfl)
    rw [hrec] at hv
    obtain rfl := Option.some.inj hv
    rw [Waits, hfiber, hp] at hwaits
    rcases hwaits with ⟨k, pc, hpc, heq⟩ | heq
    · cases heq
      exact hpc rfl
    · cases heq
  have hresume : ∀ g src, s.pc (s.mem.running i) = .yieldTo g (.resume src) → ∀ w,
      callPhase (s.pc g) = .suspended w → ∀ P,
        regAt ⟨m', s.pc.set (s.mem.running i) p'⟩ P ≠ some w.call := by
    intro g src hp w hw
    refine absent hc hmove (by rw [hw]; rfl) (Or.inr hw) ?_
    exact h.resumed _ g src w hp hw
  constructor
  · exact hmove.linear h.linear hnew
  · intro P r hP
    rcases hmove.source hP with ⟨Q, hQ⟩ | ⟨w, j, hp, hp', rfl⟩
    · obtain ⟨w, hrec, hwaits⟩ := h.waits Q r hQ
      refine ⟨w, hcall hrec, ?_⟩
      have hr := (hc.number r w hrec).1
      rcases hwaits.exec hx with hgo | ⟨hfiber, ⟨j, hp, hp'⟩ | ⟨hphase, hp', hwoken⟩⟩
      · exact hgo
      · -- the waiter has dropped its own registration
        refine absurd hP (hmove.consumed h.linear ?_ ?_ (Or.inl ?_) P)
        · show regHand _ (s.pc (s.mem.running i)) = some r
          rw [hp, ← hr]
          rfl
        · rw [regAt_hand, if_pos rfl, hp']
          rfl
        · rw [hp, hp']
          simp [callPhase]
      · exact absurd (hr ▸ hQ) (h.awake i hi w hphase hwoken Q)
    · obtain ⟨hfiber, hrec, -⟩ := hc.inside (s.mem.running i) w (by rw [hp]; rfl)
      refine ⟨w, hcall hrec, Or.inl ⟨j, .writeFiber, by simp, ?_⟩⟩
      rw [hfiber, hp']
      exact Table.get_set_self _ _ _
  · intro j hj w hphase hwoken P
    replace hphase : callPhase ((s.pc.set (s.mem.running i) p') (m'.running j)) = .suspended w := hphase
    replace hwoken : woken ((s.pc.set (s.mem.running i) p') (m'.running j)) = true := hwoken
    by_cases hji : j = i
    · subst hji
      by_cases hsw : switches (s.pc (s.mem.running j)) = true
      · rcases switched_call hf hj hx hsw with hnone | ⟨src, hp, hsame⟩
        · rw [hnone] at hphase
          cases hphase
        · exact hresume _ src hp w (hsame ▸ hphase) P
      · have hsw' : switches (s.pc (s.mem.running j)) = false := by simpa using hsw
        rw [running_frame hx hsw', Table.get_set_self] at hphase hwoken
        have hold : callPhase (s.pc (s.mem.running j)) = .suspended w := by
          cases exec_call hx with
          | same heq _ => exact heq ▸ hphase
          | begin v _ _ _ hp' _ =>
              rw [hp'] at hphase
              cases hphase
          | added v k pc b _ hp' _ =>
              rw [hp'] at hwoken
              cases b <;> cases hwoken
          | woken v _ hp' _ =>
              rw [hp'] at hphase
              cases hphase
          | ended v _ hp' _ =>
              rw [hp'] at hphase
              cases hphase
        exact absent hc hmove (by rw [hold]; rfl) (Or.inr hold)
          (h.awake j hj w hold (woken_back hx hsw' hwoken)) P
    · have hrun : m'.running j = s.mem.running j := by
        by_cases hsw : switches (s.pc (s.mem.running i)) = true
        · exact (running_switch hf hi hx hsw).1 j hji
        · exact running_frame hx (by simpa using hsw) j
      have hne : s.mem.running j ≠ s.mem.running i := fun heq => hji (hf.running_inj hj hi heq)
      rw [hrun, Table.get_set_ne _ _ hne] at hphase hwoken
      exact absent hc hmove (by rw [hphase]; rfl) (Or.inl hne) (h.awake j hj w hphase hwoken) P
  · intro a g src w ha hw P
    replace ha : (s.pc.set (s.mem.running i) p') a = .yieldTo g (.resume src) := ha
    replace hw : callPhase ((s.pc.set (s.mem.running i) p') g) = .suspended w := hw
    by_cases haf : a = s.mem.running i
    · rw [haf, Table.get_set_self] at ha
      subst ha
      obtain ⟨v, hp, rfl, hflag⟩ := resume_back hx
      have hat : fiberAt cfg s (.suspended v.fiber) = some v.fiber := by
        simp only [fiberAt, hflag, if_true]
      rw [Table.get_set_ne _ _ (hf.ne_running hi hat (by simp))] at hw
      have htoken : regAt s (.hand (s.mem.running i)) = some v.reg := by
        show regHand _ (s.pc (s.mem.running i)) = _
        rw [hp]
        rfl
      rw [(hc.number _ _ (h.call_of_entry hwakes hp hw)).1]
      refine hmove.consumed h.linear htoken ?_ (Or.inr ⟨_, _, rfl⟩) P
      rw [regAt_hand, if_pos rfl]
      rfl
    · rw [Table.get_set_ne _ _ haf] at ha
      have hat : fiberAt cfg s (.hand a) = some g := by
        simp only [fiberAt, ha, fiberHand]
      have hgf := hf.ne_running hi hat (by simp)
      rw [Table.get_set_ne _ _ hgf] at hw
      exact absent hc hmove (by rw [hw]; rfl) (Or.inl hgf) (h.resumed a g src w ha hw) P

theorem start (cfg : Config) : RegInv cfg (start cfg) := by
  have hpc : ∀ a, (∀ q, regHand q ((Scheduler.start cfg).pc a) = none) ∧
      callPhase ((Scheduler.start cfg).pc a) = .none := by
    intro a
    rw [start_pc]
    split
    · exact ⟨fun _ => rfl, rfl⟩
    · split <;> exact ⟨fun _ => rfl, rfl⟩
  have hnone : ∀ P, regAt (Scheduler.start cfg) P = none := by
    intro P
    cases P with
    | slot c j => rfl
    | hand a => exact (hpc a).1 _
    | resumable pos => rfl
    | pinned t k => rfl
  constructor
  · intro P Q r hP
    rw [hnone] at hP
    cases hP
  · intro P r hP
    rw [hnone] at hP
    cases hP
  · intro i _ w hw
    rw [(hpc _).2] at hw
    cases hw
  · intro a g src w _ hw
    rw [(hpc _).2] at hw
    cases hw

end RegInv

end Steps

/-- What holds of the waiting fibers while slots are only taken where nobody stands. -/
structure WaitInv (cfg : Config) (s : State) : Prop extends BaseInv cfg s where
  slots : ∀ c, SlotInv c s
  regs : RegInv cfg s

theorem WaitInv.start {cfg : Config} (hcfg : cfg.Ok) : WaitInv cfg (start cfg) :=
  ⟨.start hcfg, .start cfg, .start cfg⟩

theorem WaitInv.step {cfg : Config} {s s' : State} {l : Label} (h : WaitInv cfg s)
    (hg : ∀ c, Vacant c s l) (hs : step cfg s l = some s') : WaitInv cfg s' := by
  have hbase := h.toBaseInv.step hs
  obtain ⟨-, hi, m', p', hx, rfl⟩ := step_eq_some.1 hs
  have hslots : ∀ c, SlotInv c ⟨m', s.pc.set (s.mem.running l.thread) p'⟩ := by
    intro c
    refine SlotInv.exec h.slots h.calls (fun w j hp hfree hcounter => ?_) hx
    obtain ⟨hused, hnobody⟩ := hg c w j hp hcounter (hcounter ▸ hfree)
    exact ⟨hused, hnobody⟩
  exact ⟨hbase, hslots, h.regs.exec h.fibers h.queues h.calls h.wakes h.slots hi hx⟩

end TaskDispatcher.Scheduler
