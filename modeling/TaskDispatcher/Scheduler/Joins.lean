import TaskDispatcher.Scheduler.Raceless
import TaskDispatcher.Scheduler.Panics

/-!
# What a task body leaves behind

A fork-join program waits for every sync before the body that owns it ends.  Where
no race occurs such a wait always gives the handle back, so a fiber between two tasks
owns nothing, and whatever is submitted is younger than the task that waits for it.
-/

namespace TaskDispatcher.Scheduler

open TaskDispatcher.Library TaskDispatcher.Container

/-! ## Bodies -/

def IncrementK.byBody : IncrementK → Bool
  | .taskDone _ => false
  | _ => true

def ScanK.byBody : ScanK → Bool
  | .taskDone => false
  | _ => true

/-- An access of a task body, or of a call that a body has made. -/
def inBody : PC → Bool
  | .body => true
  | .waitStore _ => true
  | .add _ _ _ => true
  | .waitDone _ => true
  | .idleDeq (.wait _) _ => true
  | .yieldTo _ (.wait _) => true
  | .clean (.yielded (.wait _)) => true
  | .idleEnq (.yielded (.wait _)) _ _ => true
  | .increment inc => inc.k.byBody
  | .scan x _ _ => x.k.byBody
  | .pin x _ _ _ _ => x.k.byBody
  | .resEnq (.scan x _) _ _ => x.k.byBody
  | .taskEnq _ _ _ => true
  | .freeDeq _ _ => true
  | .resetCount _ _ => true
  | .resetSlot _ _ _ => true
  | .acquireHandle _ _ => true
  | .releaseLoad _ _ _ => true
  | .releaseHandle _ _ _ => true
  | .freeEnq _ _ _ => true
  | _ => false

def mainPart (m : Mem) : Option Nat × Bool := (m.primary, m.isShuttingDown)

/-- How a step of agent `f` begins or ends a body. -/
inductive BodyMove (m : Mem) (i f : Nat) (ch : Choice) (p : PC) (m' : Mem) (p' : PC) : Prop where
  | stay : inBody p' = inBody p → p ≠ .entry → p ≠ .shutDown → m'.task = m.task →
      mainPart m' = mainPart m → BodyMove m i f ch p m' p'
  | main : p = .entry → m.primary = some f → p' = .body → m'.task = m.task →
      mainPart m' = mainPart m → BodyMove m i f ch p m' p'
  | worker : p = .entry → m.primary ≠ some f → p' = .clean .fiberFunc → m'.task = m.task →
      mainPart m' = mainPart m → BodyMove m i f ch p m' p'
  | begun (pc : DequeuePC Task) (t : Task) : p = .taskDeq pc → p' = .body →
      m'.task = m.task.set f (some t) → mainPart m' = mainPart m → BodyMove m i f ch p m' p'
  | ended : p = .body → ch = .call .ret → inBody p' = false →
      (m.task f = none → p' = .shutDown) →
      (∀ a, m'.task a = if a = f then none else m.task a) → m'.syncs = m.syncs →
      mainPart m' = mainPart m → BodyMove m i f ch p m' p'
  | launch (g : Nat) : p = .startSwitch g → p' = .done → m'.task = m.task →
      m'.primary = (if i = 0 then some g else m.primary) →
      m'.isShuttingDown = m.isShuttingDown → BodyMove m i f ch p m' p'
  | shut : p = .shutDown → p' = .exitSwitch → m'.task = m.task → m'.primary = m.primary →
      m'.isShuttingDown = true → BodyMove m i f ch p m' p'

section Steps

variable {own : Nat → Nat} {cfg : Config} {s s' : State} {m m' : Mem} {i f c : Nat} {ch : Choice}
  {p p' : PC} {l : Label}

theorem inBody_nextSlot (x : Scan) (j : Nat) : inBody (nextSlot x j) = x.k.byBody := by
  unfold nextSlot
  split
  · rfl
  · cases x.k <;> rfl

theorem inBody_afterClean (k : CleanK) : inBody (afterClean k) = inBody (.clean k) := by
  rcases k with _ | (_ | (_ | _)) <;> rfl

theorem inBody_afterPush (reg : Nat) (k : PushK) (v : Wake) (pc : EnqueuePC) :
    inBody (afterPush reg k) = inBody (.resEnq k v pc) := by
  cases k <;> rfl

theorem exec_body (hx : exec cfg m i f ch p = some (m', p')) : BodyMove m i f ch p m' p' := by
  have hstay : ∀ {m' : Mem} {p' : PC}, inBody p' = inBody p → p ≠ .entry → p ≠ .shutDown →
      m'.task = m.task → mainPart m' = mainPart m → BodyMove m i f ch p m' p' :=
    fun hbody hentry hshut htask hmain => .stay hbody hentry hshut htask hmain
  cases p with
  | startSwitch g =>
      cases hx
      exact .launch g rfl rfl rfl rfl rfl
  | entry =>
      simp only [exec, Option.some.injEq, Prod.mk.injEq] at hx
      obtain ⟨rfl, hp'⟩ := hx
      split at hp'
      · rename_i hprimary
        exact .main rfl hprimary hp'.symm rfl rfl
      · rename_i hprimary
        exact .worker rfl hprimary hp'.symm rfl rfl
  | shutDown =>
      cases hx
      exact .shut rfl rfl rfl rfl rfl
  | body =>
      simp only [exec] at hx
      split at hx
      · rename_i u
        cases u with
        | ret =>
            simp only [userStep] at hx
            split at hx
            · rename_i hnone
              cases hx
              apply BodyMove.ended rfl rfl rfl (fun _ => rfl)
              · intro a
                split
                · rename_i haf
                  rw [haf]
                  exact hnone
                · rfl
              · rfl
              · rfl
            · rename_i t ht
              cases hx
              apply BodyMove.ended rfl rfl rfl
              · intro hnone
                rw [hnone] at ht
                cases ht
              · intro a
                exact Table.get_set _ _ _ _
              · rfl
              · rfl
        | _ =>
            simp only [userStep, beginWait, submitTasks] at hx
            (repeat' split at hx) <;> cases hx <;>
              exact hstay rfl (by simp) (by simp) rfl rfl
      · cases hx
  | taskDeq pc =>
      simp only [exec] at hx
      split at hx <;> cases hx
      · exact hstay rfl (by simp) (by simp) rfl rfl
      · exact hstay rfl (by simp) (by simp) rfl rfl
      · exact .begun pc _ rfl rfl rfl rfl
  | loop =>
      simp only [exec, Option.some.injEq, Prod.mk.injEq] at hx
      obtain ⟨rfl, rfl⟩ := hx
      refine hstay ?_ (by simp) (by simp) rfl rfl
      split <;> rfl
  | clean k =>
      simp only [exec, cleanStep] at hx
      split at hx <;> cases hx
      · exact hstay (inBody_afterClean k) (by simp) (by simp) rfl rfl
      · refine hstay ?_ (by simp) (by simp) rfl rfl
        rcases k with _ | (_ | _) <;> rfl
      · exact hstay (inBody_afterClean k) (by simp) (by simp) rfl rfl
  | idleEnq k v pc =>
      have hk : inBody (afterClean k) = inBody (.idleEnq k v pc) := by
        rcases k with _ | (_ | (_ | _)) <;> rfl
      simp only [exec] at hx
      split at hx <;> cases hx
      · refine hstay ?_ (by simp) (by simp) rfl rfl
        rcases k with _ | (_ | _) <;> rfl
      · exact hstay hk (by simp) (by simp) rfl rfl
  | yieldTo g k =>
      cases hx
      refine hstay ?_ (by simp) (by simp) rfl rfl
      cases k <;> rfl
  | idleDeq k pc =>
      simp only [exec] at hx
      cases k <;> split at hx <;> cases hx <;> exact hstay rfl (by simp) (by simp) rfl rfl
  | add w j pc =>
      obtain ⟨a, r, -, rfl, rfl⟩ := exec_add hx
      rcases r with _ | (_ | _) | _ <;> exact hstay rfl (by simp) (by simp) rfl rfl
  | scan x j pc =>
      obtain ⟨a, r, -, rfl, rfl⟩ := exec_scan hx
      cases r with
      | skip => exact hstay (inBody_nextSlot x j) (by simp) (by simp) rfl rfl
      | _ => exact hstay rfl (by simp) (by simp) rfl rfl
  | pin x j reg t pc =>
      cases pc with
      | lock =>
          simp only [exec, pinStep] at hx
          split at hx <;> cases hx <;> exact hstay rfl (by simp) (by simp) rfl rfl
      | push =>
          cases hx
          exact hstay rfl (by simp) (by simp) rfl rfl
      | unlock =>
          cases hx
          exact hstay rfl (by simp) (by simp) rfl rfl
  | resEnq k v pc =>
      simp only [exec] at hx
      split at hx <;> cases hx
      · refine hstay ?_ (by simp) (by simp) rfl rfl
        cases k <;> rfl
      · split <;> exact hstay (inBody_afterPush _ _ _ _) (by simp) (by simp) rfl rfl
  | increment inc =>
      simp only [exec, incrementStep] at hx
      split at hx <;> rename_i hk <;> cases hx <;> refine hstay ?_ (by simp) (by simp) rfl rfl <;>
        simp only [inBody, hk, IncrementK.byBody, ScanK.byBody]
  | taskEnq sub t pc =>
      simp only [exec, submitNext, enqueueNext] at hx
      (repeat' split at hx) <;> cases hx <;> exact hstay rfl (by simp) (by simp) rfl rfl
  | _ =>
      simp only [exec, afterWait, afterRelease, submitTasks] at hx
      (repeat' split at hx) <;> cases hx <;> exact hstay rfl (by simp) (by simp) rfl rfl

/-! ## Counts that stay at zero -/

theorem unfinished_eq_empty (hl : LedgerInv s) {k : Nat} {x : HandleContent}
    (hk : s.mem.handles k = some x) (hzero : (s.mem.counters x.counterIndex).count = 0) :
    unfinished s x.life = ∅ := by
  have hcount := hl.count k x hk
  rw [hzero] at hcount
  exact Finset.card_eq_zero.1 (by omega)

/-- Only the owner of a sync brings its count up from zero. -/
theorem zero_stays (h : TaskState own cfg s) (hx : exec cfg s.mem i f ch (s.pc f) = some (m', p'))
    {k sync : Nat} {x : HandleContent} (hk : s.mem.handles k = some x) (hsync : x.sync = some sync)
    (hother : own sync = f → ∀ inc, s.pc f ≠ .increment inc)
    (hzero : (s.mem.counters x.counterIndex).count = 0) :
    (m'.counters x.counterIndex).count = 0 := by
  have hempty := unfinished_eq_empty h.ledger hk hzero
  rcases exec_adds hx x.counterIndex with hsame | ⟨inc, hp, hcounter, -⟩ | ⟨q, hp, -⟩
  · rw [hsame]
    exact hzero
  · exfalso
    have hunique : ∀ j y, s.mem.handles j = some y → y.counterIndex = inc.counter → y = x := by
      intro j y hj hy
      have hjk := h.counter.handle_unique hj hk (hy.trans hcounter)
      rw [hjk, hk] at hj
      exact (Option.some.inj hj).symm
    cases hkind : inc.k with
    | user => exact h.ledger.manual f inc hp hkind
    | taskDone n =>
        have hended : taskAt s (.ended f) = some ⟨inc.counter, n, inc.life⟩ := by
          show endedTask (s.pc f) = _
          rw [hp]
          exact endedTask_increment hkind
        obtain ⟨hlt, hcounter', hlife⟩ := h.task.known _ _ hended
        have hdec := (h.task.ended f _ hended).2
        obtain ⟨j, y, hj, hy, hylife, -⟩ := h.ledger.live n hlt hdec
        have heq := hunique j y hj (hy.trans hcounter')
        have hmem : n ∈ unfinished s x.life := by
          rw [mem_unfinished, ← heq]
          exact ⟨hlt, hylife.symm, hdec⟩
        rw [hempty] at hmem
        exact absurd hmem (Finset.notMem_empty n)
    | submit num z =>
        obtain ⟨j, y, hj, hy, -, hz⟩ := h.ledger.submits f inc num z hp hkind
        have heq := hunique j y hj hy
        have hrole := h.account.role f
        rw [hp] at hrole
        simp only [syncRole, Increment.role, hkind] at hrole
        cases z with
        | none => exact hrole
        | some z =>
            have hzs : z = sync := by
              have hz' := hz z rfl
              rw [heq, hsync] at hz'
              exact (Option.some.inj hz').symm
            rw [hzs] at hrole
            rcases hrole with hown | ⟨t, ht, htsync⟩
            · exact hother hown inc hp
            · obtain ⟨j', y', hj', hy', hheld, hmem⟩ :=
                h.account.handle_of_running h.ledger h.task ht htsync
              have hk' := h.account.sync_of_handle hk hsync
              rw [hk'] at hheld
              cases hheld
              rw [hk] at hj'
              cases hj'
              rw [hempty] at hmem
              exact absurd hmem (Finset.notMem_empty t.id)
  · exfalso
    have hhand : counterHand s.mem.freeCounters (s.pc f) = some x.counterIndex := by
      rw [hp]
      rfl
    exact h.counter.handle_ne_hand hk hhand rfl

/-- The count of the call is on its target, or the call has returned. -/
def OnTarget (s : State) (r : Nat) : Prop :=
  ∃ w, s.mem.hist.call r = some w ∧
    (s.mem.hist.ended r = true ∨ (s.mem.counters w.counter).count = w.target)

theorem ended_stays (hx : exec cfg m i f ch p = some (m', p')) {r : Nat}
    (hr : m.hist.ended r = true) : m'.hist.ended r = true := by
  cases exec_call hx with
  | ended w _ _ hpart =>
      simp only [callPart, Prod.mk.injEq] at hpart
      rw [hpart.2.2.2, Table.get_set]
      split
      · rfl
      · exact hr
  | _ =>
      rename_i hpart
      simp only [callPart, Prod.mk.injEq] at hpart
      rw [hpart.2.2.2]
      exact hr

/-- A call that is on its target stays there until it returns. -/
theorem OnTarget.exec (hc : CallInv cfg s) (hcalls : CallsHeld s) (h : TaskState own cfg s)
    (hx : exec cfg s.mem i f ch (s.pc f) = some (m', p')) {r : Nat} (hr : OnTarget s r) :
    OnTarget ⟨m', s.pc.set f p'⟩ r := by
  obtain ⟨w, hw, hon⟩ := hr
  refine ⟨w, hc.call_mono (exec_call hx) hw, ?_⟩
  by_cases hended : s.mem.hist.ended r = true
  · exact Or.inl (ended_stays hx hended)
  · right
    have hin := hc.opened r w hw (Bool.eq_false_of_not_eq_true hended)
    obtain ⟨sync, k, x, hheld⟩ := hcalls w.fiber w hin
    obtain ⟨sync', hsync', -, hown⟩ := h.account.waits_of_call hin
    rw [hheld.named] at hsync'
    cases hsync'
    have hzero : (s.mem.counters x.counterIndex).count = 0 := by
      rw [hheld.counter, ← hheld.target]
      exact hon.resolve_left hended
    have hstays := zero_stays h hx hheld.live hheld.own (fun hfiber inc hp => ?_) hzero
    · rw [hheld.counter] at hstays
      rw [hheld.target]
      exact hstays
    · rw [← hown, hfiber, hp] at hin
      cases hin

/-! ## Syncs that have been waited for -/

/-- What a step does to the record of the syncs that are still to be waited for. -/
inductive UnwaitedMove (m : Mem) (ch : Choice) (p : PC) (m' : Mem) (p' : PC) : Prop where
  | same : m'.hist.unwaited = m.hist.unwaited → (p = .body → ∀ z, syncRole p' ≠ .acquires z) →
      UnwaitedMove m ch p m' p'
  | submit (sync num : Nat) : p = .body → ch = .call (.submit sync num) →
      m'.hist.unwaited = m.hist.unwaited.set sync true →
      (∀ z, syncRole p' = .acquires z → z = sync) → UnwaitedMove m ch p m' p'
  | waitFor (sync : Nat) (pinned : Bool) : p = .body → ch = .call (.waitFor sync pinned) →
      m'.hist.unwaited = m.hist.unwaited.set sync false →
      (m'.syncs sync = none ∧ syncRole p' = .none ∨ syncRole p' = .waits sync) →
      UnwaitedMove m ch p m' p'

theorem announce_unwaited (hist : Hist) (info : TaskInfo) (num : Nat) :
    (hist.announce info num).unwaited = hist.unwaited := by
  rw [Hist.announce_eq]

theorem exec_unwaited (hx : exec cfg m i f ch p = some (m', p')) : UnwaitedMove m ch p m' p' := by
  have hsame : ∀ {m' : Mem} {p' : PC}, m'.hist.unwaited = m.hist.unwaited → p ≠ .body →
      UnwaitedMove m ch p m' p' := fun heq hp => .same heq fun hbody => absurd hbody hp
  cases p with
  | body =>
      simp only [exec] at hx
      split at hx
      · rename_i u
        cases u with
        | submit sync num =>
            simp only [userStep, submitTasks] at hx
            (repeat' split at hx) <;> cases hx <;> refine .submit sync num rfl rfl rfl ?_ <;>
              intro z hz <;> cases hz
            rfl
        | waitFor sync pinned =>
            simp only [userStep, beginWait] at hx
            split at hx
            · rename_i hnone
              cases hx
              exact .waitFor sync pinned rfl rfl rfl (Or.inl ⟨hnone, rfl⟩)
            · split at hx <;> cases hx
              exact .waitFor sync pinned rfl rfl rfl (Or.inr rfl)
        | _ =>
            simp only [userStep, beginWait, submitTasks] at hx
            (repeat' split at hx) <;> cases hx <;> refine .same rfl ?_ <;> intro _ z hz <;> cases hz
      · cases hx
  | increment inc =>
      simp only [exec, incrementStep] at hx
      split at hx <;> cases hx <;>
        first | exact hsame rfl (by simp) | exact hsame (announce_unwaited _ _ _) (by simp)
  | add w j pc =>
      obtain ⟨a, r, -, rfl, -⟩ := exec_add hx
      rcases r with _ | (_ | _) | _ <;> exact hsame rfl (by simp)
  | scan x j pc =>
      obtain ⟨a, r, -, rfl, -⟩ := exec_scan hx
      exact hsame rfl (by simp)
  | yieldTo g k =>
      cases hx
      cases k <;> exact hsame rfl (by simp)
  | resEnq k v pc =>
      simp only [exec] at hx
      split at hx <;> cases hx
      · exact hsame rfl (by simp)
      · split <;> exact hsame rfl (by simp)
  | pin x j reg t pc =>
      cases pc <;> simp only [exec, pinStep] at hx <;> (try split at hx) <;> cases hx <;>
        exact hsame rfl (by simp)
  | waitDone w =>
      simp only [exec, Option.map_eq_some_iff] at hx
      obtain ⟨q, -, hm⟩ := hx
      cases hm
      exact hsame rfl (by simp)
  | _ =>
      simp only [exec, submitNext, afterRelease, cleanStep] at hx
      (repeat' split at hx) <;> cases hx <;> exact hsame rfl (by simp)

/-- Where the owner of a sync waits for it and gives its handle back. -/
def Joins (sync : Nat) (r : SyncRole) : Prop :=
  r = .waits sync ∨ (∃ k, r = .tests k sync) ∨ (∃ k c, r = .releases k c sync) ∨ r = .returns sync

/-- Waits end on target, and give back the handle of their sync. -/
structure JoinInv (own : Nat → Nat) (s : State) : Prop where
  met : MetInv (OnTarget s) s
  tests : ∀ a k sync, syncRole (s.pc a) = .tests k sync → ∀ x, s.mem.handles k = some x →
    (s.mem.counters x.counterIndex).count = 0
  acquires : ∀ a sync, syncRole (s.pc a) = .acquires sync → s.mem.hist.unwaited sync = true
  joined : ∀ sync, s.mem.hist.unwaited sync = false →
    s.mem.syncs sync = none ∨ Joins sync (syncRole (s.pc (own sync)))

theorem call_of_waits {sync : Nat} (h : syncRole p = .waits sync) :
    ∃ w, (callPhase p).call = some w ∧ w.sync = some sync := by
  have hrole : ∀ w : WaitCall, w.role = .waits sync → w.sync = some sync := by
    intro w hw
    unfold WaitCall.role at hw
    cases hsync : w.sync with
    | none =>
        rw [hsync] at hw
        cases hw
    | some z =>
        rw [hsync] at hw
        cases hw
        rfl
  cases p with
  | waitStore w => exact ⟨w, rfl, hrole w h⟩
  | add w j pc => exact ⟨w, rfl, hrole w h⟩
  | waitDone w => exact ⟨w, rfl, hrole w h⟩
  | idleDeq k pc =>
      cases k with
      | start => cases h
      | wait w => exact ⟨w, rfl, hrole w h⟩
  | yieldTo g k =>
      cases k with
      | resume src => cases h
      | wait w => exact ⟨w, rfl, hrole w h⟩
  | clean k =>
      rcases k with _ | (w | src)
      · cases h
      · exact ⟨w, rfl, hrole w h⟩
      · cases h
  | idleEnq k v pc =>
      rcases k with _ | (w | src)
      · cases h
      · exact ⟨w, rfl, hrole w h⟩
      · cases h
  | increment inc =>
      simp only [syncRole, Increment.role] at h
      split at h <;> cases h
  | freeDeq k pc => cases k <;> cases h
  | resetCount c k => cases k <;> cases h
  | resetSlot c j k => cases k <;> cases h
  | acquireHandle c k => cases k <;> cases h
  | releaseLoad k target r =>
      cases r with
      | user => cases h
      | waitFor z =>
          simp only [syncRole] at h
          split at h <;> cases h
  | releaseHandle k c r => cases r <;> cases h
  | freeEnq r c pc => cases r <;> cases h
  | _ => cases h

theorem syncRole_of_call_waits {w : WaitCall} (h : (callPhase p).call = some w) (k sync : Nat) :
    syncRole p ≠ .tests k sync := by
  rw [syncRole_of_call h]
  unfold WaitCall.role
  split <;> simp

/-- The test of `single_wait_for` follows a wait that has returned. -/
theorem waitDone_of_tests {w : WaitCall} {k sync : Nat} (hx : exec cfg m i f ch p = some (m', p'))
    (hp : (callPhase p).call = some w) (hp' : syncRole p' = .tests k sync) : p = .waitDone w := by
  cases exec_call hx with
  | same hphase _ =>
      rw [← hphase] at hp
      exact absurd hp' (syncRole_of_call_waits hp k sync)
  | begin v hbody _ _ _ _ =>
      rw [hbody] at hp
      cases hp
  | added v j pc b _ hdone _ =>
      have hv : (callPhase p').call = some v := by
        rw [hdone]
        cases b <;> rfl
      exact absurd hp' (syncRole_of_call_waits hv k sync)
  | woken v _ hdone _ =>
      rw [hdone] at hp'
      exact absurd hp' (syncRole_of_call_waits (p := .waitDone v) rfl k sync)
  | ended v hdone _ _ =>
      rw [hdone] at hp
      cases hp
      exact hdone

namespace JoinInv

variable (h : JoinInv own s) (hrace : Raceless own cfg s)
  (hx : exec cfg s.mem i f ch (s.pc f) = some (m', p'))

include h hrace hx

/-- A test goes on to find the count at zero. -/
theorem tests_old (hsync : SyncStep own s f m' p') {a k sync : Nat} {x : HandleContent}
    (ha : syncRole (s.pc a) = .tests k sync) (hinc : a = f → ∀ inc, s.pc f ≠ .increment inc)
    (hk : m'.handles k = some x) : (m'.counters x.counterIndex).count = 0 := by
  have hrole := hrace.task.account.role a
  rw [ha] at hrole
  obtain ⟨hown, hheld⟩ := hrole
  have hquiet : syncRole (s.pc (own sync)) ≠ .returns sync := by
    rw [hown, ha]
    simp
  obtain ⟨y, hy, hysync⟩ := (hrace.task.account.known sync k hheld).resolve_right hquiet
  have hkept := hsync.kept hrace.task.account (by simp [hown, ha]) hquiet hheld hy hysync
  rw [hkept.2] at hk
  cases hk
  apply zero_stays hrace.task hx hy hysync
  · intro hf
    rw [hown] at hf
    exact hinc hf
  · exact h.tests a k sync ha x hy

theorem tests_step (hsync : SyncStep own s f m' p') {a k sync : Nat} {x : HandleContent}
    (ha : syncRole ((s.pc.set f p') a) = .tests k sync) (hk : m'.handles k = some x) :
    (m'.counters x.counterIndex).count = 0 := by
  by_cases haf : a = f
  · rw [haf, Table.get_set_self] at ha
    cases hsync with
    | quiet hpart hsame hinc =>
        rw [hsame] at ha
        exact h.tests_old hrace hx (.quiet hpart hsame hinc) ha (fun _ => hinc) hk
    | waited k' sync' hbefore hafter hpart hheld =>
        rw [hafter] at ha
        cases ha
        obtain ⟨w, hw, hwsync⟩ := call_of_waits hbefore
        have hdone := waitDone_of_tests hx hw hafter
        obtain ⟨v, hv, hon⟩ := h.met.met_of_done hrace.wait hdone
        obtain ⟨-, hcall, hended⟩ := hrace.wait.calls.inside f w hw
        rw [hcall] at hv
        cases hv
        obtain ⟨z, j, y, hheldby⟩ := hrace.calls f w hw
        rw [hheldby.named] at hwsync
        cases hwsync
        rw [hheldby.held] at hheld
        cases hheld
        simp only [syncPart, Prod.mk.injEq] at hpart
        rw [hpart.2.1, hheldby.live] at hk
        cases hk
        apply zero_stays hrace.task hx hheldby.live hheldby.own
        · intro _ inc hp
          rw [hdone] at hp
          cases hp
        · rw [hheldby.counter, ← hheldby.target]
          exact hon.resolve_left (by simp [hended])
    | acquires _ _ hrole _ _ _ =>
        rw [hrole] at ha
        cases ha
    | submits _ _ _ _ hrole _ _ _ _ _ =>
        rw [hrole] at ha
        cases ha
    | waits _ _ hrole _ _ =>
        rw [hrole] at ha
        cases ha
    | tested _ _ _ hrole _ =>
        rw [hrole] at ha
        cases ha
    | onTarget _ _ _ _ hrole _ _ _ =>
        rw [hrole] at ha
        cases ha
    | released _ _ _ _ _ hrole _ _ =>
        rw [hrole] at ha
        cases ha
    | returned _ _ hrole _ =>
        rw [hrole] at ha
        cases ha
    | acquired _ _ _ _ _ hrole _ _ =>
        rw [hrole] at ha
        cases ha
    | announced _ _ _ _ _ hrole _ =>
        rw [hrole] at ha
        cases ha
    | done _ _ _ _ hrole _ =>
        rw [hrole] at ha
        cases ha
  · rw [Table.get_set_ne _ _ haf] at ha
    exact h.tests_old hrace hx hsync ha (fun heq => absurd heq haf) hk

/-- Who acquires a handle for a sync has not waited for it yet. -/
theorem acquires_step (hsync : SyncStep own s f m' p')
    (hd : ∀ u, s.pc f = .body → ch = .call u → Permitted own s.mem f u) {a sync : Nat}
    (ha : syncRole ((s.pc.set f p') a) = .acquires sync) : m'.hist.unwaited sync = true := by
  -- a sync is waited for by its owner only, who stands in the body
  have hkeep : (s.pc f = .body → own sync ≠ f) → s.mem.hist.unwaited sync = true →
      m'.hist.unwaited sync = true := by
    intro hbody hunwaited
    cases exec_unwaited hx with
    | same heq _ =>
        rw [heq]
        exact hunwaited
    | submit z num _ _ heq _ =>
        rw [heq, Table.get_set]
        split
        · rfl
        · exact hunwaited
    | waitFor z pinned hp hch heq _ =>
        have hne : sync ≠ z := by
          intro hz
          rw [hz] at hbody
          exact hbody hp (hd _ hp hch)
        rw [heq, Table.get_set_ne _ _ hne]
        exact hunwaited
  by_cases haf : a = f
  · rw [haf, Table.get_set_self] at ha
    cases hsync with
    | quiet _ hsame _ =>
        rw [hsame] at ha
        apply hkeep
        · intro hp
          rw [hp] at ha
          cases ha
        · exact h.acquires f sync ha
    | acquires z hp hrole _ _ hmay =>
        rw [hrole] at ha
        cases ha
        cases exec_unwaited hx with
        | same _ hnot => exact absurd hrole (hnot hp sync)
        | submit z' num _ _ heq honly =>
            rw [heq, honly sync hrole, Table.get_set_self]
        | waitFor z' pinned _ _ _ hor =>
            rcases hor with ⟨-, hnone⟩ | hwaits
            · rw [hnone] at hrole
              cases hrole
            · rw [hwaits] at hrole
              cases hrole
    | submits _ _ _ _ hrole _ _ _ _ _ =>
        rw [hrole] at ha
        cases ha
    | waits _ _ hrole _ _ =>
        rw [hrole] at ha
        cases ha
    | waited _ _ _ hrole _ _ =>
        rw [hrole] at ha
        cases ha
    | tested _ _ _ hrole _ =>
        rw [hrole] at ha
        cases ha
    | onTarget _ _ _ _ hrole _ _ _ =>
        rw [hrole] at ha
        cases ha
    | released _ _ _ _ _ hrole _ _ =>
        rw [hrole] at ha
        cases ha
    | returned _ _ hrole _ =>
        rw [hrole] at ha
        cases ha
    | acquired _ _ _ _ _ hrole _ _ =>
        rw [hrole] at ha
        cases ha
    | announced _ _ _ _ _ hrole _ =>
        rw [hrole] at ha
        cases ha
    | done _ _ _ _ hrole _ =>
        rw [hrole] at ha
        cases ha
  · rw [Table.get_set_ne _ _ haf] at ha
    apply hkeep
    · intro _ hown
      have hrole := hrace.task.account.role a
      rw [ha] at hrole
      exact haf (hrole.1.symm.trans hown)
    · exact h.acquires a sync ha

/-- The test of `single_wait_for` succeeds. -/
theorem test_succeeds {k sync : Nat} (hp : syncRole (s.pc f) = .tests k sync) :
    syncRole p' ≠ .none := by
  have hrole := hrace.task.account.role f
  rw [hp] at hrole
  have hquiet : syncRole (s.pc (own sync)) ≠ .returns sync := by
    rw [hrole.1, hp]
    simp
  obtain ⟨x, hk, -⟩ := (hrace.task.account.known sync k hrole.2).resolve_right hquiet
  have hzero := h.tests f k sync hp x hk
  obtain ⟨target, hpc⟩ : ∃ target, s.pc f = .releaseLoad k target (.waitFor sync) ∧
      target = some 0 := by
    generalize s.pc f = q at hp
    cases q with
    | releaseLoad j target r =>
        cases r with
        | user => cases hp
        | waitFor z =>
            simp only [syncRole] at hp
            split at hp <;> cases hp
            rename_i htarget
            exact ⟨target, rfl, htarget⟩
    | waitDone w => exact absurd hp (syncRole_of_call_waits (p := .waitDone w) rfl k sync)
    | waitStore w => exact absurd hp (syncRole_of_call_waits (p := .waitStore w) rfl k sync)
    | add w j pc => exact absurd hp (syncRole_of_call_waits (p := .add w j pc) rfl k sync)
    | idleDeq r pc =>
        cases r with
        | start => cases hp
        | wait w => exact absurd hp (syncRole_of_call_waits (p := .idleDeq (.wait w) pc) rfl k sync)
    | yieldTo g r =>
        cases r with
        | resume src => cases hp
        | wait w => exact absurd hp (syncRole_of_call_waits (p := .yieldTo g (.wait w)) rfl k sync)
    | clean r =>
        rcases r with _ | (w | src)
        · cases hp
        · exact absurd hp
            (syncRole_of_call_waits (p := .clean (.yielded (.wait w))) rfl k sync)
        · cases hp
    | idleEnq r v pc =>
        rcases r with _ | (w | src)
        · cases hp
        · exact absurd hp
            (syncRole_of_call_waits (p := .idleEnq (.yielded (.wait w)) v pc) rfl k sync)
        · cases hp
    | increment inc =>
        simp only [syncRole, Increment.role] at hp
        split at hp <;> cases hp
    | freeDeq r pc => cases r <;> cases hp
    | resetCount c r => cases r <;> cases hp
    | resetSlot c j r => cases r <;> cases hp
    | acquireHandle c r => cases r <;> cases hp
    | releaseHandle j c r => cases r <;> cases hp
    | freeEnq r c pc => cases r <;> cases hp
    | _ => cases hp
  rw [hpc.1, hpc.2] at hx
  simp only [exec, hk, hzero, or_true, if_true] at hx
  cases hx
  simp [syncRole]

omit h hrace hx in
/-- A sync stays joined while its pointer stays and nobody who is joining it steps. -/
theorem joined_frame {sync : Nat} (hnot : ¬ Joins sync (syncRole (s.pc f)))
    (hsame : m'.syncs sync = s.mem.syncs sync)
    (hold : s.mem.syncs sync = none ∨ Joins sync (syncRole (s.pc (own sync)))) :
    m'.syncs sync = none ∨ Joins sync (syncRole ((s.pc.set f p') (own sync))) := by
  rw [hsame]
  refine hold.imp_right fun hjoins => ?_
  have hown : own sync ≠ f := by
    intro hown
    rw [hown] at hjoins
    exact hnot hjoins
  rw [Table.get_set_ne _ _ hown]
  exact hjoins

/-- The owner of a sync that has been waited for goes on to make it null. -/
theorem joined_goes (hsync : SyncStep own s f m' p') {sync : Nat}
    (hold : s.mem.syncs sync = none ∨ Joins sync (syncRole (s.pc (own sync))))
    (hun : s.mem.hist.unwaited sync = false) :
    m'.syncs sync = none ∨ Joins sync (syncRole ((s.pc.set f p') (own sync))) := by
  have hself : own sync = f → syncRole ((s.pc.set f p') (own sync)) = syncRole p' := by
    intro heq
    rw [heq, Table.get_set_self]
  have hsyncs : ∀ {t : Mem}, syncPart m' = syncPart t → m'.syncs sync = t.syncs sync :=
    fun hpart => congrArg (fun q => q.1 sync) hpart
  have hbody : s.pc f = .body → ¬ Joins sync (syncRole (s.pc f)) := by
    intro hp
    rw [hp]
    simp [Joins, syncRole]
  have hinc : ∀ inc, s.pc f = .increment inc → ¬ Joins sync (syncRole (s.pc f)) := by
    intro inc hp
    rw [hp]
    simp only [syncRole, Increment.role]
    split <;> simp [Joins]
  cases hsync with
  | quiet hpart hsame _ =>
      by_cases hown : own sync = f
      · rw [hsyncs hpart, hself hown, hsame, ← hown]
        exact hold
      · rw [hsyncs hpart, Table.get_set_ne _ _ hown]
        exact hold
  | acquires _ hp _ hpart _ _ => exact joined_frame (hbody hp) (hsyncs hpart) hold
  | submits _ _ _ hp _ hpart _ _ _ _ => exact joined_frame (hbody hp) (hsyncs hpart) hold
  | waits _ hp _ hpart _ => exact joined_frame (hbody hp) (hsyncs hpart) hold
  | waited k z hbefore hafter hpart _ =>
      by_cases hz : sync = z
      · right
        subst hz
        have hown := hrace.task.account.role f
        rw [hbefore] at hown
        rw [hself hown, hafter]
        exact Or.inr (Or.inl ⟨k, rfl⟩)
      · refine joined_frame ?_ (hsyncs hpart) hold
        rw [hbefore]
        simp [Joins, Ne.symm hz]
  | tested k z hbefore hafter _ => exact absurd hafter (h.test_succeeds hrace hx hbefore)
  | onTarget k z x hbefore hafter hpart _ _ =>
      by_cases hz : sync = z
      · right
        subst hz
        have hown := hrace.task.account.role f
        rw [hbefore] at hown
        rw [hself hown.1, hafter]
        exact Or.inr (Or.inr (Or.inl ⟨k, _, rfl⟩))
      · refine joined_frame ?_ (hsyncs hpart) hold
        rw [hbefore]
        simp [Joins, Ne.symm hz]
  | released k c z x hbefore hafter _ hpart =>
      by_cases hz : sync = z
      · right
        subst hz
        have hown := hrace.task.account.role f
        rw [hbefore] at hown
        rw [hself hown.1, hafter]
        exact Or.inr (Or.inr (Or.inr rfl))
      · refine joined_frame ?_ (congrArg (fun q => q.1 sync) hpart) hold
        rw [hbefore]
        simp [Joins, Ne.symm hz]
  | returned z hbefore _ hpart =>
      by_cases hz : sync = z
      · left
        rw [hsyncs hpart, hz]
        exact Table.get_set_self _ _ _
      · refine joined_frame ?_ ((hsyncs hpart).trans (Table.get_set_ne _ _ hz)) hold
        rw [hbefore]
        simp [Joins, Ne.symm hz]
  | acquired d k num z hp _ _ hpart =>
      have hacquires : syncRole (s.pc f) = .acquires z := by
        rw [hp]
        rfl
      have hz : sync ≠ z := by
        intro heq
        rw [heq, h.acquires f z hacquires] at hun
        cases hun
      refine joined_frame ?_ ((hsyncs hpart).trans (Table.get_set_ne _ _ hz)) hold
      rw [hacquires]
      simp [Joins]
  | announced inc _ _ hp _ _ hpart =>
      exact joined_frame (hinc inc hp) (congrArg (fun q => q.1 sync) hpart) hold
  | done inc _ hp _ _ hpart =>
      exact joined_frame (hinc inc hp) (congrArg (fun q => q.1 sync) hpart) hold

/-- A sync that has been waited for is null, or its owner is about to make it so. -/
theorem joined_step (hsync : SyncStep own s f m' p')
    (hd : ∀ u, s.pc f = .body → ch = .call u → Permitted own s.mem f u) {sync : Nat}
    (hun : m'.hist.unwaited sync = false) :
    m'.syncs sync = none ∨ Joins sync (syncRole ((s.pc.set f p') (own sync))) := by
  cases exec_unwaited hx with
  | same heq _ =>
      rw [heq] at hun
      exact h.joined_goes hrace hx hsync (h.joined sync hun) hun
  | submit z num hp _ heq _ =>
      have hz : sync ≠ z := by
        intro hz
        rw [heq, hz, Table.get_set_self] at hun
        cases hun
      rw [heq, Table.get_set_ne _ _ hz] at hun
      exact h.joined_goes hrace hx hsync (h.joined sync hun) hun
  | waitFor z pinned hp hch heq hor =>
      by_cases hz : sync = z
      · have hown : own z = f := hd _ hp hch
        rw [hz]
        rcases hor with ⟨hnone, hrole⟩ | hwaits
        · exact Or.inl hnone
        · right
          rw [hown, Table.get_set_self, hwaits]
          exact Or.inl rfl
      · rw [heq, Table.get_set_ne _ _ hz] at hun
        exact h.joined_goes hrace hx hsync (h.joined sync hun) hun

omit h hrace hx in
theorem step (h : JoinInv own s) (hrace : Raceless own cfg s) (hstale : NoStaleScan s l)
    (hd : Disciplined own s l) (hs : Scheduler.step cfg s l = some s') : JoinInv own s' := by
  obtain ⟨-, -, m', p', hx, rfl⟩ := step_eq_some.1 hs
  have hforeign : syncRole (s.pc (s.mem.running l.thread)) ≠ .foreign := by
    intro heq
    have hrole := hrace.task.account.role (s.mem.running l.thread)
    rw [heq] at hrole
    exact hrole
  have hsync := exec_sync hforeign hd hx
  constructor
  · apply h.met.exec hrace.wait.slots hrace.wait.calls
    · intro r hr
      exact hr.exec hrace.wait.calls hrace.calls hrace.task hx
    · intro r w hr hon
      exact ⟨w, hr, Or.inr hon⟩
    · intro r w hr hon
      exact ⟨w, hr, Or.inr hon⟩
    · exact hstale
    · exact hx
  · intro a k sync ha x hk
    exact h.tests_step hrace hx hsync ha hk
  · intro a sync ha
    exact h.acquires_step hrace hx hsync hd ha
  · intro sync hun
    exact h.joined_step hrace hx hsync hd hun

omit h hrace hx in
theorem start (cfg : Config) : JoinInv own (start cfg) := by
  have hrole : ∀ a, syncRole ((Scheduler.start cfg).pc a) = .none := by
    intro a
    rw [start_pc]
    split
    · rfl
    · split <;> rfl
  constructor
  · exact .start cfg _
  · intro a k sync ha
    rw [hrole a] at ha
    cases ha
  · intro a sync ha
    rw [hrole a] at ha
    cases ha
  · intro sync _
    exact Or.inl rfl

end JoinInv

/-! ## Between two tasks -/

/-- A body ends when it has waited for every sync of its fiber that it has submitted to. -/
def Joining (own : Nat → Nat) (s : State) (l : Label) : Prop :=
  s.pc (s.mem.running l.thread) = .body → l.choice = .call .ret →
    ∀ sync, own sync = s.mem.running l.thread → s.mem.hist.unwaited sync = false

structure BodyInv (own : Nat → Nat) (s : State) : Prop where
  /-- a fiber that is in no body executes no task and owns no handle -/
  idle : ∀ a, inBody (s.pc a) = false →
    s.mem.task a = none ∧ ∀ sync, own sync = a → s.mem.syncs sync = none
  /-- what a body submits is younger than the task it belongs to -/
  older : ∀ k x sync t, s.mem.handles k = some x → x.sync = some sync →
    s.mem.task (own sync) = some t → ∀ n, n < s.mem.hist.nextTask →
      (s.mem.hist.task n).life = x.life → t.id < n

theorem exec_task (hx : exec cfg m i f ch p = some (m', p')) {a : Nat} (ha : a ≠ f) :
    m'.task a = m.task a := by
  cases exec_body hx with
  | begun pc t _ _ htask _ =>
      rw [htask]
      exact Table.get_set_ne _ _ ha
  | ended _ _ _ _ htask _ _ => exact (htask a).trans (if_neg ha)
  | stay _ _ _ htask _ => rw [htask]
  | main _ _ _ htask _ => rw [htask]
  | worker _ _ _ htask _ => rw [htask]
  | launch _ _ _ htask _ _ => rw [htask]
  | shut _ _ htask _ _ => rw [htask]

/-- A null sync stays so unless its owner acquires a handle for it. -/
theorem null_stays (hsync : SyncStep own s f m' p') (haccount : AccountInv own s) {sync : Nat}
    (hnone : s.mem.syncs sync = none) (hacquires : own sync = f →
      ∀ c k, s.pc f ≠ .acquireHandle c k) : m'.syncs sync = none := by
  have hpart : ∀ {t : Mem}, syncPart m' = syncPart t → m'.syncs = t.syncs :=
    fun h => congrArg Prod.fst h
  have hsame : syncPart m' = syncPart s.mem → m'.syncs sync = none := by
    intro h
    rw [hpart h]
    exact hnone
  cases hsync with
  | quiet h _ _ => exact hsame h
  | acquires _ _ _ h _ _ => exact hsame h
  | submits _ _ _ _ _ h _ _ _ _ => exact hsame h
  | waits _ _ _ h _ => exact hsame h
  | waited _ _ _ _ h _ => exact hsame h
  | tested _ _ _ _ h => exact hsame h
  | onTarget _ _ _ _ _ h _ _ => exact hsame h
  | released _ _ _ _ _ _ _ h =>
      rw [hpart h]
      exact hnone
  | returned z _ _ h =>
      rw [hpart h]
      show (s.mem.syncs.set z none) sync = none
      rw [Table.get_set]
      split
      · rfl
      · exact hnone
  | acquired c k num z hp _ _ h =>
      have hrole := haccount.role f
      rw [hp] at hrole
      have hne : sync ≠ z := by
        intro heq
        rw [heq] at hacquires
        exact hacquires hrole.1 _ _ hp
      rw [hpart h]
      exact (Table.get_set_ne _ _ hne).trans hnone
  | announced _ _ _ _ _ _ h =>
      rw [hpart h]
      exact hnone
  | done _ _ _ _ _ h =>
      rw [hpart h]
      exact hnone

namespace BodyInv

variable (h : BodyInv own s) (hrace : Raceless own cfg s) (hjoin : JoinInv own s)
  (hx : exec cfg s.mem i f ch (s.pc f) = some (m', p'))

include h hrace hx

include hjoin in
theorem idle_step (hsync : SyncStep own s f m' p')
    (hends : s.pc f = .body → ch = .call .ret →
      ∀ sync, own sync = f → s.mem.hist.unwaited sync = false) {a : Nat}
    (ha : inBody ((s.pc.set f p') a) = false) :
    m'.task a = none ∧ ∀ sync, own sync = a → m'.syncs sync = none := by
  by_cases haf : a = f
  · rw [haf, Table.get_set_self] at ha
    rw [haf]
    have hkeep : inBody (s.pc f) = false → m'.task = s.mem.task →
        m'.task f = none ∧ ∀ sync, own sync = f → m'.syncs sync = none := by
      intro hbody htask
      obtain ⟨hnone, hsyncs⟩ := h.idle f hbody
      constructor
      · rw [htask]
        exact hnone
      · intro sync hown
        apply null_stays hsync hrace.task.account (hsyncs sync hown)
        intro _ c k hp
        rw [hp] at hbody
        cases hbody
    cases exec_body hx with
    | stay hbody _ _ htask _ => exact hkeep (hbody.symm.trans ha) htask
    | main _ _ hp' _ _ =>
        rw [hp'] at ha
        cases ha
    | worker hp _ _ htask _ => exact hkeep (by rw [hp]; rfl) htask
    | begun pc t _ hp' _ _ =>
        rw [hp'] at ha
        cases ha
    | ended hp hch _ _ htask hsyncs _ =>
        constructor
        · exact (htask f).trans (if_pos rfl)
        · intro sync hown
          rw [hsyncs]
          rcases hjoin.joined sync (hends hp hch sync hown) with hnone | hjoins
          · exact hnone
          · rw [hown, hp] at hjoins
            simp [Joins, syncRole] at hjoins
    | launch g hp _ htask _ _ => exact hkeep (by rw [hp]; rfl) htask
    | shut hp _ htask _ _ => exact hkeep (by rw [hp]; rfl) htask
  · rw [Table.get_set_ne _ _ haf] at ha
    obtain ⟨hnone, hsyncs⟩ := h.idle a ha
    constructor
    · rw [exec_task hx haf]
      exact hnone
    · intro sync hown
      apply null_stays hsync hrace.task.account (hsyncs sync hown)
      intro hf
      exact absurd (hown.symm.trans hf) haf

omit hrace in
/-- The task that a fiber executes after a step is the one it executed before, or the
fiber has just taken it and owns nothing. -/
theorem task_back {a : Nat} {t : Task} (ht : m'.task a = some t) :
    s.mem.task a = some t ∨ ∀ sync, own sync = a → s.mem.syncs sync = none := by
  by_cases haf : a = f
  · rw [haf] at ht ⊢
    cases exec_body hx with
    | begun pc u hp _ _ _ => exact Or.inr (h.idle f (by rw [hp]; rfl)).2
    | ended _ _ _ _ htask _ _ =>
        rw [htask, if_pos rfl] at ht
        cases ht
    | stay _ _ _ htask _ => exact Or.inl (htask ▸ ht)
    | main _ _ _ htask _ => exact Or.inl (htask ▸ ht)
    | worker _ _ _ htask _ => exact Or.inl (htask ▸ ht)
    | launch _ _ _ htask _ _ => exact Or.inl (htask ▸ ht)
    | shut _ _ htask _ _ => exact Or.inl (htask ▸ ht)
  · rw [exec_task hx haf] at ht
    exact Or.inl ht

theorem older_step (hmanual : s.pc f = .body → ∀ k amount, ch ≠ .call (.add k amount))
    {k sync n : Nat} {x : HandleContent} {t : Task} (hk : m'.handles k = some x)
    (hsync : x.sync = some sync) (ht : m'.task (own sync) = some t) (hn : n < m'.hist.nextTask)
    (hlife : (m'.hist.task n).life = x.life) : t.id < n := by
  -- a handle that was there before, with the same tasks or with those just announced
  have hold : s.mem.handles k = some x → (n < s.mem.hist.nextTask →
      (s.mem.hist.task n).life = x.life) → t.id < n := by
    intro hk₀ hlife₀
    rcases h.task_back hx ht with hbefore | hnull
    · rcases Nat.lt_or_ge n s.mem.hist.nextTask with hlt | hge
      · exact h.older k x sync t hk₀ hsync hbefore n hlt (hlife₀ hlt)
      · have hknown := (hrace.task.task.known (.running (own sync)) t hbefore).1
        omega
    · have hheld := hrace.task.account.sync_of_handle hk₀ hsync
      rw [hnull sync rfl] at hheld
      cases hheld
  have hledger := exec_ledger (hrace.task.ledger.manual _) hmanual hx
  cases hledger with
  | quiet hpart _ _ =>
      simp only [ledgerPart, Prod.mk.injEq] at hpart
      rw [hpart.1] at hk
      rw [hpart.2.2.2.1] at hlife
      exact hold hk fun _ => hlife
  | submits _ _ _ _ _ _ hpart _ _ =>
      simp only [ledgerPart, Prod.mk.injEq] at hpart
      rw [hpart.1] at hk
      rw [hpart.2.2.2.1] at hlife
      exact hold hk fun _ => hlife
  | acquired c j q _ _ _ hpart =>
      simp only [ledgerPart, Prod.mk.injEq] at hpart
      rw [hpart.2.2.2.1] at hlife
      rw [hpart.1, Table.get_set] at hk
      split at hk
      · cases hk
        rw [hpart.2.2.1] at hn
        have hlt := hrace.task.ledger.old n hn
        rw [hlife] at hlt
        exact absurd hlt (Nat.lt_irrefl _)
      · exact hold hk fun _ => hlife
  | released j c q y _ _ _ hpart =>
      simp only [ledgerPart, Prod.mk.injEq] at hpart
      rw [hpart.2.2.2.1] at hlife
      rw [hpart.1, Table.get_set] at hk
      split at hk
      · cases hk
      · exact hold hk fun _ => hlife
  | announced inc num z _ _ _ hpart =>
      simp only [ledgerPart, Prod.mk.injEq] at hpart
      rw [hpart.1] at hk
      rw [hpart.2.2.2.1] at hlife
      apply hold hk
      intro hlt
      rw [TaskInv.announce_task, if_neg (by omega)] at hlife
      exact hlife
  | done inc j _ _ _ hpart =>
      simp only [ledgerPart, Prod.mk.injEq] at hpart
      rw [hpart.1] at hk
      rw [hpart.2.2.2.1] at hlife
      exact hold hk fun _ => hlife

omit h hrace hx in
theorem step (h : BodyInv own s) (hrace : Raceless own cfg s) (hjoin : JoinInv own s)
    (hd : Disciplined own s l) (hends : Joining own s l)
    (hs : Scheduler.step cfg s l = some s') : BodyInv own s' := by
  have hmanual := AccountInv.noManual hd
  obtain ⟨-, -, m', p', hx, rfl⟩ := step_eq_some.1 hs
  have hforeign : syncRole (s.pc (s.mem.running l.thread)) ≠ .foreign := by
    intro heq
    have hrole := hrace.task.account.role (s.mem.running l.thread)
    rw [heq] at hrole
    exact hrole
  have hsync := exec_sync hforeign hd hx
  constructor
  · intro a ha
    exact h.idle_step hrace hjoin hx hsync hends ha
  · intro k x sync t hk hown ht n hn hlife
    exact h.older_step hrace hx hmanual hk hown ht hn hlife

omit h hrace hx in
theorem start (cfg : Config) : BodyInv own (start cfg) := by
  constructor
  · intro a _
    exact ⟨rfl, fun _ _ => rfl⟩
  · intro k x sync t hk
    cases hk

end BodyInv

end Steps

end TaskDispatcher.Scheduler
