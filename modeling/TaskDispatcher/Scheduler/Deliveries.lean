import TaskDispatcher.Scheduler.Raceless
import TaskDispatcher.Scheduler.Recycling
import TaskDispatcher.Scheduler.Affinity
import TaskDispatcher.Scheduler.Pinned

/-!
# No wake-up is lost

Once the registration of a suspended fiber has been pushed, its wake-up lies in one of
the queues, is carried by a fiber that is looking for a task, or is what a thread switches
to next.
-/

namespace TaskDispatcher.Scheduler

open TaskDispatcher.Library TaskDispatcher.Container

section Steps

variable {own : Nat → Nat} {cfg : Config} {s s' : State} {m m' : Mem} {i f : Nat} {ch : Choice}
  {p p' : PC} {l : Label}

/-- The accesses to the two queues. -/
def handles : PC → Bool
  | .resEnq _ _ _ => true
  | .resDeq _ => true
  | .pin _ _ _ _ .push => true
  | .getPop => true
  | .rePush _ => true
  | _ => false

/-- The other accesses leave the queues, and push nothing. -/
structure Still (m m' : Mem) : Prop where
  resumable : m'.resumableFibers = m.resumableFibers
  pinned : ∀ t, (m'.threads t).pinnedResumableFibers = (m.threads t).pinnedResumableFibers
  pushes : m'.hist.pushes = m.hist.pushes

theorem still_lock {t : Nat} {b : Bool} (hres : m'.resumableFibers = m.resumableFibers)
    (hthreads : m'.threads = m.threads.set t { m.threads t with locked := b })
    (hpushes : m'.hist.pushes = m.hist.pushes) : Still m m' := by
  constructor
  · exact hres
  · intro u
    rw [hthreads, Table.get_set]
    split
    · rename_i hu
      rw [hu]
    · rfl
  · exact hpushes

theorem announce_pushes (hist : Hist) (info : TaskInfo) (num : Nat) :
    (hist.announce info num).pushes = hist.pushes := by
  rw [Hist.announce_eq]

theorem exec_still (hx : exec cfg m i f ch p = some (m', p')) (hp : handles p = false) :
    Still m m' := by
  have hsame : ∀ {m' : Mem}, m'.resumableFibers = m.resumableFibers → m'.threads = m.threads →
      m'.hist.pushes = m.hist.pushes → Still m m' :=
    fun hres hthreads hpushes => ⟨hres, fun t => by rw [hthreads], hpushes⟩
  cases p with
  | resEnq k v pc => cases hp
  | resDeq pc => cases hp
  | getPop => cases hp
  | rePush v => cases hp
  | pin x j reg t pc =>
      cases pc with
      | lock =>
          simp only [exec, pinStep] at hx
          split at hx <;> cases hx
          · exact hsame rfl rfl rfl
          · exact still_lock (t := t) rfl rfl rfl
      | push => cases hp
      | unlock =>
          cases hx
          exact still_lock (t := t) rfl rfl rfl
  | getLock =>
      simp only [exec] at hx
      split at hx <;> cases hx
      · exact hsame rfl rfl rfl
      · exact still_lock (t := i) rfl rfl rfl
  | getUnlock got =>
      cases hx
      exact still_lock (t := i) rfl rfl rfl
  | reLock v =>
      simp only [exec] at hx
      split at hx <;> cases hx
      · exact hsame rfl rfl rfl
      · exact still_lock (t := i) rfl rfl rfl
  | reUnlock =>
      cases hx
      exact still_lock (t := i) rfl rfl rfl
  | add w j pc =>
      obtain ⟨a, r, -, rfl, -⟩ := exec_add hx
      rcases r with _ | (_ | _) | _ <;> exact hsame rfl rfl rfl
  | scan x j pc =>
      obtain ⟨a, r, -, rfl, -⟩ := exec_scan hx
      exact hsame rfl rfl rfl
  | increment inc =>
      simp only [exec, incrementStep] at hx
      split at hx <;> cases hx <;>
        first | exact hsame rfl rfl rfl | exact hsame rfl rfl (announce_pushes _ _ _)
  | yieldTo g k =>
      cases hx
      cases k <;> exact hsame rfl rfl rfl
  | waitDone w =>
      simp only [exec, Option.map_eq_some_iff] at hx
      obtain ⟨q, -, hm⟩ := hx
      cases hm
      exact hsame rfl rfl rfl
  | _ =>
      simp only [exec, userStep, beginWait, submitNext, afterRelease, cleanStep, submitTasks] at hx
      (repeat' split at hx) <;> cases hx <;> exact hsame rfl rfl rfl

/-! ## The accesses to the queues -/

/-- An enqueue on `mResumableFibers`. -/
inductive PushMove (m : Mem) (ch : Choice) (k : PushK) (v : Wake) (pc : EnqueuePC) (m' : Mem) (p' : PC) :
    Prop where
  | quiet (pc' : EnqueuePC) : p' = .resEnq k v pc' → pc'.claimed = pc.claimed →
      m'.resumableFibers.log = m.resumableFibers.log →
      m'.resumableFibers.dequeuePos = m.resumableFibers.dequeuePos → m'.hist = m.hist →
      PushMove m ch k v pc m' p'
  | put (pc' : EnqueuePC) : p' = .resEnq k v pc' → pc.claimed = false → pc'.claimed = true →
      m'.resumableFibers.log = m.resumableFibers.log ++ [v] →
      m'.resumableFibers.dequeuePos = m.resumableFibers.dequeuePos → m'.hist = m.hist →
      PushMove m ch k v pc m' p'
  | done : p' = afterPush v.reg k → pc.claimed = true →
      m'.resumableFibers.log = m.resumableFibers.log →
      m'.resumableFibers.dequeuePos = m.resumableFibers.dequeuePos →
      m'.hist =
        (if k = .getNextTask then m.hist
        else { m.hist with pushes := Hist.count m.hist.pushes v.reg }) →
      PushMove m ch k v pc m' p'
  | full (pos : Nat) : p' = afterPush v.reg k → pc = .sequence pos →
      (Mpmc.enqueueStep 0 v (ch = .spurious) m.resumableFibers pc).2 = .inr false →
      m'.resumableFibers = m.resumableFibers → m'.hist = m.hist → PushMove m ch k v pc m' p'

theorem exec_resEnq {k : PushK} {v : Wake} {pc : EnqueuePC}
    (hx : exec cfg m i f ch (.resEnq k v pc) = some (m', p')) :
    PushMove m ch k v pc m' p' ∧ m'.threads = m.threads := by
  have heffect := Mpmc.enqueueStep_effect m.resumableFibers v (ch = .spurious) pc
  have hfull : ∀ {pos : Nat}, pc = .sequence pos → pc.claimed = false := by
    intro pos hpos
    rw [hpos]
    rfl
  simp only [exec] at hx
  split at hx <;> rename_i hout <;> cases hx <;> rw [hout] at heffect
  · refine ⟨?_, rfl⟩
    cases heffect with
    | quiet hclaimed hlog hdeq => exact .quiet _ rfl hclaimed hlog hdeq rfl
    | put hbefore hafter hlog hdeq => exact .put _ rfl hbefore hafter hlog hdeq rfl
  · rename_i b
    cases heffect with
    | done hclaimed hlog hdeq =>
        by_cases hk : k = .getNextTask
        · rw [if_neg (fun hand => hand.1 hk)]
          exact ⟨.done rfl hclaimed hlog hdeq (by rw [if_pos hk]), rfl⟩
        · rw [if_pos ⟨hk, rfl⟩]
          exact ⟨.done rfl hclaimed hlog hdeq (by rw [if_neg hk]), rfl⟩
    | full hpos _ hsame =>
        rw [if_neg (fun hand => by cases hand.2)]
        exact ⟨.full _ rfl hpos hout hsame rfl, rfl⟩

/-- A dequeue from `mResumableFibers`. -/
inductive PopMove (m : Mem) (pc : DequeuePC Wake) (m' : Mem) (p' : PC) : Prop where
  | quiet (pc' : DequeuePC Wake) : p' = .resDeq pc' → pc'.claimed = pc.claimed →
      m'.resumableFibers.log = m.resumableFibers.log →
      m'.resumableFibers.dequeuePos = m.resumableFibers.dequeuePos → PopMove m pc m' p'
  | take (pc' : DequeuePC Wake) : p' = .resDeq pc' → pc.claimed = none →
      pc'.claimed = some m.resumableFibers.dequeuePos →
      m'.resumableFibers.log = m.resumableFibers.log →
      m'.resumableFibers.dequeuePos = m.resumableFibers.dequeuePos + 1 → PopMove m pc m' p'
  | done (v : Wake) (pos : Nat) : p' = .tryResume .global v → pc = .publish pos v →
      m'.resumableFibers.log = m.resumableFibers.log →
      m'.resumableFibers.dequeuePos = m.resumableFibers.dequeuePos → PopMove m pc m' p'
  | empty (pos : Nat) : p' = .taskDeq .load → pc = .sequence pos →
      (m.resumableFibers.cell pos).sequence < pos + 1 → m'.resumableFibers = m.resumableFibers →
      PopMove m pc m' p'

theorem exec_resDeq {pc : DequeuePC Wake} (hx : exec cfg m i f ch (.resDeq pc) = some (m', p')) :
    PopMove m pc m' p' ∧ m'.threads = m.threads ∧ m'.hist = m.hist := by
  have heffect := Mpmc.dequeueStep_effect m.resumableFibers (ch = .spurious) pc
  simp only [exec] at hx
  split at hx <;> rename_i hout <;> cases hx <;> rw [hout] at heffect <;> refine ⟨?_, rfl, rfl⟩
  · cases heffect with
    | quiet hclaimed hlog hdeq => exact .quiet _ rfl hclaimed hlog hdeq
    | take hpc hclaimed hlog hdeq => exact .take _ rfl (by rw [hpc]; rfl) hclaimed hlog hdeq
  · cases heffect with
    | empty hpc hneg hsame =>
        rw [Mpmc.diff_zero] at hneg
        exact .empty _ rfl hpc (by omega) hsame
  · cases heffect with
    | done hpc hlog hdeq => exact .done _ _ rfl hpc hlog hdeq

/-! ## Where a wake-up goes -/

/-- No enqueue of a wake-up meets a dequeue that has not handed its cell back, or a full
queue of a thread. -/
structure Delivers (s : State) (l : Label) : Prop where
  resumable : ∀ k v pos, s.pc (s.mem.running l.thread) = .resEnq k v (.sequence pos) →
    ∀ a p, (resumableCaller (s.pc a)).claimed = some (.inr p) →
      p + s.mem.resumableFibers.size ≠ pos
  pinned : ∀ t, pinnedEnqueue l.thread (s.pc (s.mem.running l.thread)) = some t →
    (s.mem.threads t).pinnedResumableFibers.full maxWaiting = false

theorem exec_log (hx : exec cfg m i f ch p = some (m', p')) :
    m'.resumableFibers.log = m.resumableFibers.log ∨
      ∃ v, m'.resumableFibers.log = m.resumableFibers.log ++ [v] := by
  by_cases hhandles : handles p = false
  · rw [(exec_still hx hhandles).resumable]
    exact Or.inl rfl
  cases p with
  | resEnq k v pc =>
      obtain ⟨hmove, -⟩ := exec_resEnq hx
      cases hmove with
      | quiet _ _ _ hlog _ _ => exact Or.inl hlog
      | put _ _ _ _ hlog _ _ => exact Or.inr ⟨v, hlog⟩
      | done _ _ hlog _ _ => exact Or.inl hlog
      | full _ _ _ _ hsame _ => exact Or.inl (by rw [hsame])
  | resDeq pc =>
      obtain ⟨hmove, -, -⟩ := exec_resDeq hx
      cases hmove with
      | quiet _ _ _ hlog _ => exact Or.inl hlog
      | take _ _ _ _ hlog _ => exact Or.inl hlog
      | done _ _ _ _ hlog _ => exact Or.inl hlog
      | empty _ _ _ _ hsame => exact Or.inl (by rw [hsame])
  | pin x j reg t pc =>
      cases pc with
      | push =>
          cases hx
          exact Or.inl rfl
      | _ => exact absurd rfl hhandles
  | getPop =>
      cases hx
      exact Or.inl rfl
  | rePush v =>
      cases hx
      exact Or.inl rfl
  | _ => exact absurd rfl hhandles

/-- What another agent carries stays with him. -/
theorem hand_stays (hq : QueueInv s) (hx : exec cfg s.mem i f ch (s.pc f) = some (m', p')) {a : Nat}
    (ha : a ≠ f) : regAt ⟨m', s.pc.set f p'⟩ (.hand a) = regAt s (.hand a) := by
  rcases exec_log hx with hlog | ⟨v, hlog⟩
  · exact regAt_other hlog ha
  · rw [regAt_hand, if_neg ha]
    exact regHand_append hq hlog a

/-- What lies in `mResumableFibers` stays there until a dequeue claims it. -/
theorem resumable_goes (hq : QueueInv s) (hx : exec cfg s.mem i f ch (s.pc f) = some (m', p'))
    {pos : Nat} {v : Wake} (hpos : s.mem.resumableFibers.entry pos = some v) :
    m'.resumableFibers.entry pos = some v ∨ regHand m'.resumableFibers p' = some v.reg := by
  by_cases hhandles : handles (s.pc f) = false
  · rw [(exec_still hx hhandles).resumable]
    exact Or.inl hpos
  cases hp : s.pc f with
  | resEnq k u pc =>
      left
      have hle : s.mem.resumableFibers.dequeuePos ≤ s.mem.resumableFibers.log.length := by
        rw [hq.resumable.log_length]
        exact hq.resumable.deq_le
      rw [hp] at hx
      obtain ⟨hmove, -⟩ := exec_resEnq hx
      cases hmove with
      | quiet _ _ _ hlog hdeq _ => exact (Mpmc.entry_congr hlog hdeq pos).trans hpos
      | done _ _ hlog hdeq _ => exact (Mpmc.entry_congr hlog hdeq pos).trans hpos
      | full _ _ _ _ hsame _ => rwa [hsame]
      | put _ _ _ _ hlog hdeq _ =>
          have hne : pos ≠ s.mem.resumableFibers.log.length := by
            rintro rfl
            rw [Mpmc.entry_length] at hpos
            cases hpos
          rw [Mpmc.entry_put hlog hdeq hle, if_neg hne]
          exact hpos
  | resDeq pc =>
      rw [hp] at hx
      obtain ⟨hmove, -, -⟩ := exec_resDeq hx
      cases hmove with
      | quiet _ _ _ hlog hdeq => exact Or.inl ((Mpmc.entry_congr hlog hdeq pos).trans hpos)
      | done _ _ _ _ hlog hdeq => exact Or.inl ((Mpmc.entry_congr hlog hdeq pos).trans hpos)
      | empty _ _ _ _ hsame => exact Or.inl (by rwa [hsame])
      | take pc' hp' _ hclaimed hlog hdeq =>
          by_cases hat : pos = s.mem.resumableFibers.dequeuePos
          · right
            rw [hat, Mpmc.entry_dequeuePos] at hpos
            rw [hp']
            show ((pc'.claimed.bind (m'.resumableFibers.log[·]?)).map Wake.reg) = _
            rw [hclaimed, hlog]
            show (s.mem.resumableFibers.log[s.mem.resumableFibers.dequeuePos]?).map Wake.reg = _
            rw [hpos]
            rfl
          · left
            rw [Mpmc.entry_take hlog hdeq, if_neg hat]
            exact hpos
  | pin x j reg t pc =>
      cases pc with
      | push =>
          rw [hp] at hx
          cases hx
          exact Or.inl hpos
      | _ =>
          rw [hp] at hhandles
          exact absurd rfl hhandles
  | getPop =>
      rw [hp] at hx
      cases hx
      exact Or.inl hpos
  | rePush u =>
      rw [hp] at hx
      cases hx
      exact Or.inl hpos
  | _ =>
      rw [hp] at hhandles
      exact absurd rfl hhandles

/-- An enqueue on a queue with room keeps what lies there. -/
theorem entry_of_room {N : Nat} {q : Fifo Wake} (hq : Fifo.Ok N q) (hroom : q.full N = false)
    {k : Nat} {v : Wake} (hk : q.entry k = some v) (u : Wake) :
    (q.enqueue N u).entry k = some v := by
  have hne : k ≠ q.log.length := by
    intro heq
    unfold Fifo.entry at hk
    split at hk
    · have hlt := (List.getElem?_eq_some_iff.1 hk).1
      omega
    · cases hk
  rw [Fifo.entry_enqueue hq.taken_le, if_neg hne, if_neg (by rw [hroom]; simp)]
  exact hk

/-- What lies in the queue of a thread stays there until the thread takes it out. -/
theorem pinned_goes (hq : QueueInv s) (hx : exec cfg s.mem i f ch (s.pc f) = some (m', p'))
    (hroom : ∀ t, pinnedEnqueue i (s.pc f) = some t →
      (s.mem.threads t).pinnedResumableFibers.full maxWaiting = false)
    {t k : Nat} {v : Wake} (hk : (s.mem.threads t).pinnedResumableFibers.entry k = some v) :
    (m'.threads t).pinnedResumableFibers.entry k = some v ∨
      regHand m'.resumableFibers p' = some v.reg := by
  by_cases hhandles : handles (s.pc f) = false
  · rw [(exec_still hx hhandles).pinned]
    exact Or.inl hk
  have hpush : ∀ {a : Nat} {u : Wake}, pinnedEnqueue i (s.pc f) = some a →
      m'.threads = s.mem.threads.set a { s.mem.threads a with
        pinnedResumableFibers := (s.mem.threads a).pinnedResumableFibers.enqueue maxWaiting u } →
      (m'.threads t).pinnedResumableFibers.entry k = some v := by
    intro a u ha hthreads
    rw [hthreads, Table.get_set]
    split
    · rename_i heq
      rw [heq] at hk
      exact entry_of_room (hq.pinned a) (hroom a ha) hk u
    · exact hk
  cases hp : s.pc f with
  | resEnq k u pc =>
      rw [hp] at hx
      rw [(exec_resEnq hx).2]
      exact Or.inl hk
  | resDeq pc =>
      rw [hp] at hx
      rw [(exec_resDeq hx).2.1]
      exact Or.inl hk
  | pin x j reg t' pc =>
      cases pc with
      | push =>
          left
          refine hpush (a := t') (by rw [hp]; rfl) (u := s.mem.slotWake x.counter j) ?_
          rw [hp] at hx
          cases hx
          rfl
      | _ =>
          rw [hp] at hhandles
          exact absurd rfl hhandles
  | rePush u =>
      left
      refine hpush (a := i) (by rw [hp]; rfl) (u := u) ?_
      rw [hp] at hx
      cases hx
      rfl
  | getPop =>
      rw [hp] at hx
      simp only [exec, Option.some.injEq, Prod.mk.injEq] at hx
      obtain ⟨hm, hp'⟩ := hx
      have hthreads : m'.threads = s.mem.threads.set i { s.mem.threads i with
          pinnedResumableFibers := ((s.mem.threads i).pinnedResumableFibers.dequeue maxWaiting).2 } := by
        rw [← hm]
      by_cases ht : t = i
      · subst ht
        rw [hthreads, Table.get_set_self]
        rcases (hq.pinned t).dequeue maxWaiting_capacity with ⟨-, hsame⟩ | ⟨u, hu, hgot, hlog, htaken, -⟩
        · rw [hsame]
          exact Or.inl hk
        · by_cases hat : k = (s.mem.threads t).pinnedResumableFibers.taken
          · right
            unfold Fifo.entry at hk
            rw [hat, if_pos (le_refl _), hu] at hk
            rw [← hp', hgot, Option.some.inj hk]
            rfl
          · left
            rw [Fifo.entry_dequeue hlog htaken, if_neg hat]
            exact hk
      · left
        rw [hthreads, Table.get_set_ne _ _ ht]
        exact hk
  | _ =>
      rw [hp] at hhandles
      exact absurd rfl hhandles

/-- Who stands at a slot has the registration he stands there with. -/
theorem reg_of_stance {q : Mpmc Wake} {r r' : Nat} (hr : stanceReg p = some r)
    (hr' : regHand q p = some r') : r' = r := by
  cases p with
  | resEnq k v pc =>
      cases k with
      | getNextTask => cases hr
      | scan x j =>
          simp only [regHand] at hr'
          split at hr' <;> cases hr'
          exact Option.some.inj hr
  | resDeq pc => cases hr
  | getUnlock got => cases hr
  | tryResume src v => cases hr
  | reLock v => cases hr
  | rePush v => cases hr
  | _ => exact (Option.some.inj (hr.symm.trans hr')).symm

/-- A wake-up that is put back stays with the agent, or goes into the queue. -/
theorem putBack_goes (hq : QueueInv s) (hx : exec cfg s.mem i f ch (s.pc f) = some (m', p'))
    {v : Wake} {pc : EnqueuePC} (hp : s.pc f = .resEnq .getNextTask v pc)
    (hkeeps : (Mpmc.enqueueStep 0 v (ch = .spurious) s.mem.resumableFibers pc).2 ≠ .inr false)
    (hclaimed : pc.claimed = false) :
    regHand m'.resumableFibers p' = some v.reg ∨
      ∃ pos, (m'.resumableFibers.entry pos).map Wake.reg = some v.reg := by
  rw [hp] at hx
  obtain ⟨hmove, -⟩ := exec_resEnq hx
  cases hmove with
  | quiet pc' hp' hsame _ _ _ =>
      left
      rw [hp']
      simp [regHand, hsame, hclaimed]
  | put pc' _ _ _ hlog hdeq _ =>
      have hle : s.mem.resumableFibers.dequeuePos ≤ s.mem.resumableFibers.log.length := by
        rw [hq.resumable.log_length]
        exact hq.resumable.deq_le
      refine Or.inr ⟨s.mem.resumableFibers.log.length, ?_⟩
      rw [Mpmc.entry_put hlog hdeq hle, if_pos rfl]
      rfl
  | done _ hbefore _ _ _ =>
      rw [hclaimed] at hbefore
      cases hbefore
  | full _ _ _ hfail _ _ => exact absurd hfail hkeeps

/-- A wake-up that is being dequeued stays with the agent. -/
theorem dequeued_goes (hq : QueueInv s) (hx : exec cfg s.mem i f ch (s.pc f) = some (m', p'))
    {pc : DequeuePC Wake} (hp : s.pc f = .resDeq pc) {r : Nat}
    (hr : regHand s.mem.resumableFibers (s.pc f) = some r) :
    regHand m'.resumableFibers p' = some r := by
  have hok := hq.resumable.ok f
  simp only [roles, hp, resumableCaller] at hok
  rw [hp] at hr hx
  obtain ⟨hmove, -, -⟩ := exec_resDeq hx
  cases hmove with
  | quiet pc' hp' hsame hlog _ =>
      rw [hp']
      show ((pc'.claimed.bind (m'.resumableFibers.log[·]?)).map Wake.reg) = _
      rw [hsame, hlog]
      exact hr
  | take pc' _ hnone _ _ _ => simp [regHand, hnone] at hr
  | done v pos hp' hpc hlog _ =>
      rw [hp']
      rw [hpc] at hok hr
      obtain ⟨-, -, -, hlogged, hv⟩ := hok
      simp only [regHand, DequeuePC.claimed, Option.bind_some] at hr
      rw [hlogged, ← hv] at hr
      exact hr
  | empty pos _ hpc _ _ =>
      rw [hpc] at hr
      cases hr

/-- What an agent carries away from the slots stays with it, goes into a queue, or is
followed. -/
theorem hand_goes (hq : QueueInv s) (hwakes : WakeInv s)
    (hx : exec cfg s.mem i f ch (s.pc f) = some (m', p'))
    (hroom : ∀ t, pinnedEnqueue i (s.pc f) = some t →
      (s.mem.threads t).pinnedResumableFibers.full maxWaiting = false)
    (hkeeps : ∀ v pc, s.pc f = .resEnq .getNextTask v pc →
      (Mpmc.enqueueStep 0 v (ch = .spurious) s.mem.resumableFibers pc).2 ≠ .inr false)
    (hslot : stanceReg (s.pc f) = none) {r : Nat}
    (hr : regHand s.mem.resumableFibers (s.pc f) = some r) :
    (∃ P, regAt ⟨m', s.pc.set f p'⟩ P = some r) ∨
      ∃ v src, v.reg = r ∧ Registered s.mem.hist v ∧ p' = .yieldTo v.fiber (.resume src) := by
  have hhand : regHand m'.resumableFibers p' = some r →
      (∃ P, regAt ⟨m', s.pc.set f p'⟩ P = some r) ∨
        ∃ v src, v.reg = r ∧ Registered s.mem.hist v ∧ p' = .yieldTo v.fiber (.resume src) := by
    intro hp'
    refine Or.inl ⟨.hand f, ?_⟩
    rw [regAt_hand, if_pos rfl]
    exact hp'
  cases hp : s.pc f with
  | resEnq k v pc =>
      cases k with
      | scan x j =>
          rw [hp] at hslot
          cases hslot
      | getNextTask =>
          rw [hp] at hr
          cases hclaimed : pc.claimed with
          | true => simp [regHand, hclaimed] at hr
          | false =>
              have hv : v.reg = r := by simpa [regHand, hclaimed] using hr
              rcases putBack_goes hq hx hp (hkeeps v pc hp) hclaimed with hheld | ⟨pos, hput⟩
              · exact hhand (hheld.trans (congrArg some hv))
              · exact Or.inl ⟨.resumable pos, hput.trans (congrArg some hv)⟩
  | resDeq pc => exact hhand (dequeued_goes hq hx hp hr)
  | getUnlock got =>
      apply hhand
      rw [hp] at hr hx
      cases hx
      cases got with
      | none => cases hr
      | some v => exact hr
  | tryResume src v =>
      rw [hp] at hr hx
      have hv : v.reg = r := Option.some.inj hr
      simp only [exec] at hx
      split at hx
      · cases hx
        exact Or.inr ⟨v, src, hv, hwakes.held f v (by rw [hp]; rfl), rfl⟩
      · apply hhand
        cases src with
        | pinned =>
            cases hx
            exact hr
        | global =>
            cases hx
            exact hr
  | reLock v =>
      apply hhand
      rw [hp] at hr hx
      simp only [exec] at hx
      split at hx <;> cases hx <;> exact hr
  | rePush v =>
      have hfits := hroom i (by rw [hp]; rfl)
      rw [hp] at hr hx
      cases hx
      refine Or.inl ⟨.pinned i (s.mem.threads i).pinnedResumableFibers.log.length, ?_⟩
      show (Fifo.entry ((s.mem.threads.set i _) i).pinnedResumableFibers _).map Wake.reg = _
      rw [Table.get_set_self]
      show (Fifo.entry (Fifo.enqueue _ _ _) _).map Wake.reg = _
      rw [Fifo.entry_enqueue (hq.pinned i).taken_le, if_pos rfl]
      exact hr
  | _ =>
      rw [hp] at hr hslot
      replace hr : stanceReg _ = some r := hr
      rw [hslot] at hr
      cases hr

/-- A push leaves its wake-up in a queue. -/
theorem pushed_goes (hq : QueueInv s) (hx : exec cfg s.mem i f ch (s.pc f) = some (m', p')) {r : Nat}
    (hr : m'.hist.pushes r ≠ 0) :
    s.mem.hist.pushes r ≠ 0 ∨ ∃ P, regAt ⟨m', s.pc.set f p'⟩ P = some r := by
  by_cases hhandles : handles (s.pc f) = false
  · rw [(exec_still hx hhandles).pushes] at hr
    exact Or.inl hr
  cases hp : s.pc f with
  | resEnq k v pc =>
      have hok := hq.resumable.ok f
      simp only [roles, hp, resumableCaller] at hok
      rw [hp] at hx
      obtain ⟨hmove, -⟩ := exec_resEnq hx
      cases hmove with
      | done _ hclaimed hlog hdeq hhist =>
          by_cases hrv : r = v.reg
          · -- the cell of the push is still its own
            right
            obtain ⟨pos, hpos⟩ : ∃ pos, s.mem.resumableFibers.entry pos = some v := by
              cases pc with
              | write pos =>
                  refine ⟨pos, ?_⟩
                  rw [Mpmc.entry, if_pos hok.1]
                  exact hok.2.2.2
              | publish pos =>
                  refine ⟨pos, ?_⟩
                  rw [Mpmc.entry, if_pos hok.1]
                  exact hok.2.2.2.1
              | _ => cases hclaimed
            refine ⟨.resumable pos, ?_⟩
            show (m'.resumableFibers.entry pos).map Wake.reg = _
            rw [Mpmc.entry_congr hlog hdeq, hpos, hrv]
            rfl
          · left
            rw [hhist] at hr
            split at hr
            · exact hr
            · rwa [show Hist.pushes _ = Hist.count s.mem.hist.pushes v.reg from rfl,
                count_ne _ hrv] at hr
      | quiet pc' _ _ _ _ hhist => exact Or.inl (by rwa [hhist] at hr)
      | put pc' _ _ _ _ _ hhist => exact Or.inl (by rwa [hhist] at hr)
      | full pos _ _ _ _ hhist => exact Or.inl (by rwa [hhist] at hr)
  | resDeq pc =>
      rw [hp] at hx
      obtain ⟨-, -, hhist⟩ := exec_resDeq hx
      rw [hhist] at hr
      exact Or.inl hr
  | pin x j reg t pc =>
      cases pc with
      | push =>
          rw [hp] at hx
          cases hx
          by_cases hrv : r = (s.mem.slot x.counter j).reg
          · right
            refine ⟨.pinned t (s.mem.threads t).pinnedResumableFibers.log.length, ?_⟩
            show (Fifo.entry ((s.mem.threads.set t _) t).pinnedResumableFibers _).map Wake.reg = _
            rw [Table.get_set_self]
            show (Fifo.entry (Fifo.enqueue _ _ _) _).map Wake.reg = _
            rw [Fifo.entry_enqueue (hq.pinned t).taken_le, if_pos rfl, hrv]
            rfl
          · left
            rwa [show Hist.pushes _ = Hist.count s.mem.hist.pushes (s.mem.slot x.counter j).reg from rfl,
              count_ne _ hrv] at hr
      | _ =>
          rw [hp] at hhandles
          exact absurd rfl hhandles
  | getPop =>
      rw [hp] at hx
      cases hx
      exact Or.inl hr
  | rePush v =>
      rw [hp] at hx
      cases hx
      exact Or.inl hr
  | _ =>
      rw [hp] at hhandles
      exact absurd rfl hhandles

/-! ## Who waits to be resumed -/

/-- The call that a fiber has begun and not yet switched out of. -/
def freshCall : PC → Option WaitCall
  | .waitStore w => some w
  | .add w _ _ => some w
  | .idleDeq (.wait w) _ => some w
  | .yieldTo _ (.wait w) => some w
  | _ => none

/-- Fiber `a` is going to switch out in the call, or has switched out and runs nowhere. -/
def Sleeping (cfg : Config) (s : State) (a : Nat) (w : WaitCall) : Prop :=
  freshCall (s.pc a) = some w ∨
    s.pc a = .clean (.yielded (.wait w)) ∧ ∀ j, j < cfg.numThreads → s.mem.running j ≠ a

/-- The registration is in some place, or some thread is about to switch to the fiber. -/
def OnItsWay (s : State) (a r : Nat) : Prop :=
  (∃ P, regAt s P = some r) ∨ ∃ b src, s.pc b = .yieldTo a (.resume src)

def Delivered (cfg : Config) (s : State) : Prop :=
  ∀ a w, Sleeping cfg s a w → s.mem.hist.pushes w.call ≠ 0 → OnItsWay s a w.call

/-- Where the fresh call of an agent comes from. -/
theorem fresh_back (hx : exec cfg m i f ch p = some (m', p')) {w : WaitCall}
    (hw : freshCall p' = some w) :
    freshCall p = some w ∨ p' = .waitStore w ∧ m'.hist.call m.hist.nextCall = some w ∧
      w.call = m.hist.nextCall := by
  have hphase : callPhase p' = .adding w ∨ callPhase p' = .suspended w := by
    cases p' with
    | waitStore v => exact Or.inl (congrArg _ (Option.some.inj hw))
    | add v j pc => exact Or.inl (congrArg _ (Option.some.inj hw))
    | idleDeq k pc =>
        cases k with
        | start => cases hw
        | wait v => exact Or.inr (congrArg _ (Option.some.inj hw))
    | yieldTo g k =>
        cases k with
        | resume src => cases hw
        | wait v => exact Or.inr (congrArg _ (Option.some.inj hw))
    | _ => cases hw
  cases exec_call hx with
  | same hsame _ =>
      left
      rw [hsame] at hphase
      cases p with
      | waitStore v =>
          rcases hphase with heq | heq <;> cases heq
          rfl
      | add v j pc =>
          rcases hphase with heq | heq <;> cases heq
          rfl
      | idleDeq k pc =>
          cases k with
          | start => rcases hphase with heq | heq <;> cases heq
          | wait v =>
              rcases hphase with heq | heq <;> cases heq
              rfl
      | yieldTo g k =>
          cases k with
          | resume src => rcases hphase with heq | heq <;> cases heq
          | wait v =>
              rcases hphase with heq | heq <;> cases heq
              rfl
      | clean k =>
          simp only [exec, cleanStep] at hx
          rcases k with _ | _ | (_ | _) <;> split at hx <;> cases hx <;> cases hw
      | idleEnq k v pc =>
          simp only [exec] at hx
          rcases k with _ | _ | (_ | _) <;> split at hx <;> cases hx <;> cases hw
      | _ => rcases hphase with heq | heq <;> cases heq
  | begin v _ hcall _ hp' hpart =>
      subst hp'
      right
      have hv : v = w := Option.some.inj hw
      subst hv
      simp only [callPart, Prod.mk.injEq] at hpart
      refine ⟨rfl, ?_, hcall⟩
      rw [hpart.2.1, Table.get_set_self]
  | added v j pc b hp hp' _ =>
      left
      subst hp
      cases b with
      | true =>
          rw [hp'] at hw
          cases hw
      | false =>
          rw [hp'] at hw
          exact hw
  | woken v _ hp' _ =>
      rw [hp'] at hw
      cases hw
  | ended v _ hnone _ =>
      rw [hnone] at hphase
      rcases hphase with heq | heq <;> cases heq

theorem Sleeping.phase {a : Nat} {w : WaitCall} (h : Sleeping cfg s a w) :
    (callPhase (s.pc a)).call = some w := by
  rcases h with hfresh | ⟨hpc, -⟩
  · generalize s.pc a = q at hfresh
    cases q with
    | waitStore v => exact hfresh
    | add v j pc => exact hfresh
    | idleDeq k pc => cases k <;> exact hfresh
    | yieldTo g k => cases k <;> exact hfresh
    | _ => cases hfresh
  · rw [hpc]
    rfl

/-- Who sleeps after a step did so before, or has just begun the call. -/
theorem sleeping_back (hf : FiberInv cfg s) (hi : i < cfg.numThreads)
    (hx : exec cfg s.mem i (s.mem.running i) ch (s.pc (s.mem.running i)) = some (m', p'))
    {a : Nat} {w : WaitCall} (h : Sleeping cfg ⟨m', s.pc.set (s.mem.running i) p'⟩ a w) :
    Sleeping cfg s a w ∨ a = s.mem.running i ∧ s.pc a = .body ∧ w.call = s.mem.hist.nextCall := by
  have hstays : ∀ j, j < cfg.numThreads → j ≠ i → m'.running j = s.mem.running j := by
    intro j _ hj
    by_cases hsw : switches (s.pc (s.mem.running i)) = true
    · exact (running_switch hf hi hx hsw).1 j hj
    · exact running_frame hx (eq_false_of_ne_true hsw) j
  by_cases ha : a = s.mem.running i
  · subst ha
    rcases h with hfresh | ⟨hpc, hout⟩
    · rw [show (s.pc.set (s.mem.running i) p') (s.mem.running i) = p' from
        Table.get_set_self _ _ _] at hfresh
      rcases fresh_back hx hfresh with hold | ⟨hp', -, hnext⟩
      · exact Or.inl (Or.inl hold)
      · subst hp'
        obtain ⟨-, -, -, -, -, hbody⟩ := begin_owned hx
        exact Or.inr ⟨rfl, hbody, hnext⟩
    · -- only a switch leaves the fiber
      left
      left
      rw [show (s.pc.set (s.mem.running i) p') (s.mem.running i) = p' from
        Table.get_set_self _ _ _] at hpc
      have hsw : switches (s.pc (s.mem.running i)) = true := by
        by_contra hnot
        exact hout i hi (running_frame hx (eq_false_of_ne_true hnot) i)
      generalize s.pc (s.mem.running i) = q at hx hsw
      cases q with
      | yieldTo g k =>
          cases hx
          cases hpc
          rfl
      | startSwitch g =>
          cases hx
          cases hpc
      | exitSwitch =>
          cases hx
          cases hpc
      | _ => cases hsw
  · left
    rcases h with hfresh | ⟨hpc, hout⟩
    · left
      rwa [show (s.pc.set (s.mem.running i) p') a = s.pc a from Table.get_set_ne _ _ ha] at hfresh
    · right
      rw [show (s.pc.set (s.mem.running i) p') a = s.pc a from Table.get_set_ne _ _ ha] at hpc
      refine ⟨hpc, fun j hj => ?_⟩
      by_cases hji : j = i
      · rw [hji]
        exact Ne.symm ha
      · have hrun := hout j hj
        rwa [show (Mem.running m' j) = _ from hstays j hj hji] at hrun

namespace Delivered

/-- A wake-up that is on its way stays so until its fiber runs. -/
theorem goes (hrace : Raceless own cfg s) (hi : i < cfg.numThreads)
    (hx : exec cfg s.mem i (s.mem.running i) ch (s.pc (s.mem.running i)) = some (m', p'))
    (hroom : ∀ t, pinnedEnqueue i (s.pc (s.mem.running i)) = some t →
      (s.mem.threads t).pinnedResumableFibers.full maxWaiting = false)
    (hkeeps : ∀ v pc, s.pc (s.mem.running i) = .resEnq .getNextTask v pc →
      (Mpmc.enqueueStep 0 v (ch = .spurious) s.mem.resumableFibers pc).2 ≠ .inr false)
    {a : Nat} {w : WaitCall} (hsleeps : Sleeping cfg s a w)
    (hsleeps' : Sleeping cfg ⟨m', s.pc.set (s.mem.running i) p'⟩ a w)
    (hpushed : s.mem.hist.pushes w.call ≠ 0) (hway : OnItsWay s a w.call) :
    OnItsWay ⟨m', s.pc.set (s.mem.running i) p'⟩ a w.call := by
  have hq := hrace.wait.queues
  obtain ⟨hfiber, hcall, -⟩ := hrace.wait.calls.inside a w hsleeps.phase
  have hmap : ∀ {o : Option Wake}, o.map Wake.reg = some w.call → ∃ v, o = some v ∧ v.reg = w.call := by
    intro o ho
    exact Option.map_eq_some_iff.1 ho
  have hhand : regHand m'.resumableFibers p' = some w.call →
      OnItsWay ⟨m', s.pc.set (s.mem.running i) p'⟩ a w.call := by
    intro hp'
    refine Or.inl ⟨.hand (s.mem.running i), ?_⟩
    rw [regAt_hand, if_pos rfl]
    exact hp'
  rcases hway with ⟨P, hP⟩ | ⟨b, src, hb⟩
  · cases P with
    | slot c j => exact absurd (hrace.pushes.held _ (Or.inr ⟨c, j, hP⟩)).1 hpushed
    | resumable pos =>
        obtain ⟨v, hv, hreg⟩ := hmap hP
        rcases resumable_goes hq hx hv with hstays | hcarried
        · refine Or.inl ⟨.resumable pos, ?_⟩
          show (m'.resumableFibers.entry pos).map Wake.reg = _
          rw [hstays, ← hreg]
          rfl
        · exact hhand (hcarried.trans (congrArg some hreg))
    | pinned t k =>
        obtain ⟨v, hv, hreg⟩ := hmap hP
        rcases pinned_goes hq hx hroom hv with hstays | hcarried
        · refine Or.inl ⟨.pinned t k, ?_⟩
          show ((m'.threads t).pinnedResumableFibers.entry k).map Wake.reg = _
          rw [hstays, ← hreg]
          rfl
        · exact hhand (hcarried.trans (congrArg some hreg))
    | hand b =>
        by_cases hb : b = s.mem.running i
        · subst hb
          have hslot : stanceReg (s.pc (s.mem.running i)) = none := by
            by_contra hnot
            obtain ⟨r, hr⟩ := Option.ne_none_iff_exists'.1 hnot
            have hheld := (hrace.pushes.held r (Or.inl ⟨_, hr⟩)).1
            rw [← reg_of_stance hr hP] at hheld
            exact hpushed hheld
          rcases hand_goes hq hrace.wait.wakes hx hroom hkeeps hslot hP with hgoes | ⟨v, src, hreg, hv, hp'⟩
          · exact Or.inl hgoes
          · right
            obtain ⟨u, hu, hvfiber⟩ := hv
            rw [hreg, hcall] at hu
            cases hu
            refine ⟨s.mem.running i, src, ?_⟩
            rw [← hfiber, hvfiber]
            exact (Table.get_set_self _ _ _).trans hp'
        · refine Or.inl ⟨.hand b, ?_⟩
          rw [hand_stays hq hx hb]
          exact hP
  · by_cases hbi : b = s.mem.running i
    · -- the thread switches to the fiber
      exfalso
      subst hbi
      have hwait : WaitPC (s.pc a) := by
        have hrest := hrace.run.fibers.resting (.hand (s.mem.running i)) a (by
          show fiberHand _ (s.pc (s.mem.running i)) = _
          rw [hb]
          rfl)
        simpa only [Resting, hb, resuming, if_true] using hrest
      obtain ⟨u, hu⟩ := hwait
      have hne : a ≠ s.mem.running i := by
        rintro rfl
        rw [hu] at hb
        cases hb
      have hsame : (s.pc.set (s.mem.running i) p') a = s.pc a := Table.get_set_ne _ _ hne
      rcases hsleeps' with hfresh | ⟨-, hout⟩
      · replace hfresh : freshCall ((s.pc.set (s.mem.running i) p') a) = some w := hfresh
        rw [hsame, hu] at hfresh
        cases hfresh
      · apply hout i hi
        rw [hb] at hx
        cases hx
        show ((s.mem.tls.set i _) i).running = a
        rw [Table.get_set_self]
    · refine Or.inr ⟨b, src, ?_⟩
      exact (Table.get_set_ne _ _ hbi).trans hb

theorem step (h : Delivered cfg s) (hrace : Raceless own cfg s) (hdelivers : Delivers s l)
    (hs : Scheduler.step cfg s l = some s') : Delivered cfg s' := by
  obtain ⟨-, hi, m', p', hx, rfl⟩ := step_eq_some.1 hs
  have hq := hrace.wait.queues
  intro a w hsleeps hpushed
  rcases pushed_goes hq hx hpushed with hbefore | hplace
  · rcases sleeping_back hrace.run.fibers hi hx hsleeps with hold | ⟨-, -, hnext⟩
    · refine goes hrace hi hx hdelivers.pinned (fun v pc hpc => ?_) hold hsleeps hbefore
        (h a w hold hbefore)
      exact resumable_succeeds hrace.capacity hpc
        (fun pos hpos => hdelivers.resumable _ v pos (by rw [hpc, hpos]))
        (fun hclaimed pos u hu => hrace.wait.not_queued hpc hclaimed hu)
    · -- the number of a new call is in no record
      obtain ⟨u, hu, -⟩ := hrace.pushes.signed _ hbefore
      have hlt := (hrace.wait.calls.number _ _ hu).2.2
      omega
  · exact Or.inl hplace

theorem start (cfg : Config) : Delivered cfg (start cfg) := by
  intro a w _ hpushed
  exact absurd rfl hpushed

end Delivered

end Steps

end TaskDispatcher.Scheduler
