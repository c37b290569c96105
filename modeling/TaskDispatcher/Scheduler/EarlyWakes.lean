import TaskDispatcher.Scheduler.Accounting
import TaskDispatcher.Scheduler.LostWakes

/-!
# No early wake-up

A scanner carries the count that its own addition made.  While no call of `wait`
begins under a scanner that carries its target from before, whoever resolves a
registration has seen the count on its target since the call began.
-/

namespace TaskDispatcher.Scheduler

open TaskDispatcher.Library TaskDispatcher.Container

/-- The call of `counterCheckWaitingFibers` an agent is in. -/
def walk : PC → Option Scan
  | .scan x _ _ => some x
  | .pin x _ _ _ _ => some x
  | .resEnq (.scan x _) _ _ => some x
  | _ => none

/-- The counter and the target of the call of `wait` that a call of the API makes. -/
def waitsFor (m : Mem) : UserCall → Option (Nat × Int)
  | .waitOn h _ target => (m.handles h).map fun x => (x.counterIndex, target)
  | .waitFor sync _ =>
      (m.syncs sync).bind fun h => (m.handles h).map fun x => (x.counterIndex, 0)
  | _ => none

/-- When a call of `wait` begins, the count is on its target, or nobody scans the counter with
the target. -/
def NoStaleScan (s : State) (l : Label) : Prop :=
  ∀ u c t, s.pc (s.mem.running l.thread) = .body → l.choice = .call u →
    waitsFor s.mem u = some (c, t) → (s.mem.counters c).count = t ∨
      ∀ a x, walk (s.pc a) = some x → x.counter = c → x.value ≠ t

/-- The waiter has read the count on its target. -/
def looked : PC → Option WaitCall
  | .add w _ (.recheck v) => if v = w.target then some w else none
  | .add w _ (.compare v) => if v = w.target then some w else none
  | .add w _ .claim => some w
  | .add w _ .free => some w
  | _ => none

/-- The waiter has not taken a slot. -/
def early : PC → Bool
  | .waitStore _ => true
  | .add _ _ .acquire => true
  | _ => false

/-- The registration is being filled in, or lies in a slot that nobody has claimed. -/
def Unclaimed (s : State) (r : Nat) : Prop :=
  (∃ a cj w pc, stance (s.pc a) = some (cj, .fill w pc) ∧ w.call = r) ∨
    ∃ c j, (s.mem.slot c j).token = some r

/-- `met` holds of the calls whose count has been on target since they began. -/
structure MetInv (met : Nat → Prop) (s : State) : Prop where
  scans : ∀ a x, walk (s.pc a) = some x → ∀ r w, s.mem.hist.call r = some w →
    w.counter = x.counter → w.target = x.value → met r
  looks : ∀ a w, looked (s.pc a) = some w → met w.call
  calls : ∀ a w, (callPhase (s.pc a)).call = some w →
    early (s.pc a) = true ∨ Unclaimed s w.call ∨ met w.call

section Steps

variable {cfg : Config} {s s' : State} {m m' : Mem} {i f : Nat} {ch : Choice} {p p' : PC}
  {met met' : Nat → Prop} {l : Label}

theorem walk_nextSlot {x y : Scan} {j : Nat} (h : walk (nextSlot x j) = some y) : y = x := by
  unfold nextSlot at h
  split at h
  · exact (Option.some.inj h).symm
  · cases hk : x.k <;> rw [hk] at h <;> cases h

theorem walk_afterClean (k : CleanK) : walk (afterClean k) = none := by
  rcases k with _ | _ | (_ | _) <;> rfl

/-- A scanner was one before, or has just added to its counter. -/
theorem walk_step (hx : exec cfg m i f ch p = some (m', p')) {x : Scan} (h : walk p' = some x) :
    walk p = some x ∨ p' = .scan x 0 .free ∧ x.value = (m'.counters x.counter).count := by
  cases p with
  | scan y j pc =>
      obtain ⟨a, r, -, -, rfl⟩ := exec_scan hx
      left
      cases r with
      | skip => rw [walk_nextSlot h]; rfl
      | _ => exact h
  | add w j pc =>
      obtain ⟨a, r, -, -, rfl⟩ := exec_add hx
      rcases r with _ | (_ | _) | _ <;> cases h
  | increment inc =>
      right
      simp only [exec, incrementStep] at hx
      split at hx <;> cases hx <;> cases h <;> exact ⟨rfl, by simp only [Table.get_set_self]⟩
  | pin y j reg t pc =>
      left
      cases pc with
      | lock =>
          simp only [exec, pinStep] at hx
          split at hx <;> cases hx <;> exact h
      | push =>
          cases hx
          exact h
      | unlock =>
          cases hx
          exact h
  | resEnq k v pc =>
      left
      simp only [exec] at hx
      cases k <;> split at hx <;> cases hx <;> exact h
  | clean k =>
      simp only [exec, cleanStep] at hx
      split at hx <;> cases hx
      · rw [walk_afterClean] at h
        cases h
      · cases h
      · rw [walk_afterClean] at h
        cases h
  | idleEnq k v pc =>
      simp only [exec] at hx
      split at hx <;> cases hx
      · cases h
      · rw [walk_afterClean] at h
        cases h
  | getUnlock got =>
      cases hx
      cases got <;> cases h
  | entry =>
      cases hx
      split at h <;> cases h
  | loop =>
      cases hx
      split at h <;> cases h
  | resetSlot c j k =>
      cases hx
      split at h <;> cases h
  | _ =>
      simp only [exec, userStep, beginWait, afterWait, submitNext, afterRelease, submitTasks,
        enqueueNext] at hx
      (repeat' split at hx) <;> cases hx <;> cases h

/-- A call of `wait` begins with the counter and the target of the call of the API. -/
theorem begin_waitsFor {w : WaitCall} (hx : exec cfg m i f ch .body = some (m', .waitStore w)) :
    ∃ u, ch = .call u ∧ waitsFor m u = some (w.counter, w.target) ∧ m'.counters = m.counters := by
  simp only [exec] at hx
  split at hx
  · rename_i u
    refine ⟨u, rfl, ?_⟩
    cases u with
    | waitOn h pinned target =>
        simp only [userStep, beginWait] at hx
        split at hx
        · next x hh =>
            split at hx <;> cases hx
            exact ⟨by rw [waitsFor, hh]; rfl, rfl⟩
        · cases hx
    | waitFor sync pinned =>
        simp only [userStep, beginWait] at hx
        split at hx
        · cases hx
        · next h hsync =>
            split at hx <;> cases hx
            next x hh => exact ⟨by rw [waitsFor, hsync]; simp only [Option.bind_some, hh]; rfl, rfl⟩
    | _ =>
        simp only [userStep, submitTasks] at hx
        (repeat' split at hx) <;> cases hx
  · cases hx

/-- A waiter that has not taken a slot goes on looking for one, or takes it. -/
theorem early_step {w : WaitCall} (hx : exec cfg m i f ch p = some (m', p'))
    (hp : early p = true) (hw : (callPhase p).call = some w) :
    early p' = true ∨ ∃ cj pc, stance p' = some (cj, .fill w pc) := by
  cases p with
  | waitStore v =>
      cases hx
      exact Or.inl rfl
  | add v j pc =>
      obtain rfl : v = w := Option.some.inj hw
      cases pc with
      | acquire =>
          obtain ⟨a, r, hmove, -, rfl⟩ := exec_add hx
          cases hmove with
          | acquire _ => exact Or.inr ⟨_, _, rfl⟩
          | occupied _ _ => exact Or.inl rfl
          | full _ _ => exact Or.inl rfl
      | _ => cases hp
  | _ => cases hp

/-- An agent that may claim a slot for a registration is its scanner, or its waiter. -/
theorem claimer_of_stance {d j r : Nat} {found : Option Int}
    (h : stance p = some ((d, j), .look (some r) found)) :
    (∃ x, walk p = some x ∧ x.counter = d ∧ found = some x.value) ∨
      ∃ w pc, p = .add w j pc ∧ w.call = r ∧ found = none := by
  cases p with
  | add w k pc => cases pc <;> cases h <;> exact Or.inr ⟨w, _, rfl, rfl, rfl⟩
  | scan x k pc =>
      cases pc <;> cases h
      exact Or.inl ⟨x, rfl, rfl, rfl⟩
  | pin x k reg t pc => cases pc <;> simp [stance] at h
  | resEnq k v pc => cases k <;> simp [stance] at h
  | _ => cases h

/-- A registration that is claimed has met its target. -/
theorem unclaimed_step (h : MetInv met s) (hs : ∀ c, SlotInv c s)
    (hx : exec cfg s.mem i f ch (s.pc f) = some (m', p')) {r : Nat} (hr : Unclaimed s r) :
    Unclaimed ⟨m', s.pc.set f p'⟩ r ∨ met r := by
  -- another agent goes on filling in its slot
  have hfill : ∀ a cj w pc, a ≠ f → stance (s.pc a) = some (cj, .fill w pc) → w.call = r →
      Unclaimed ⟨m', s.pc.set f p'⟩ r := by
    intro a cj w pc ha hstance hcall
    refine Or.inl ⟨a, cj, w, pc, ?_, hcall⟩
    show stance ((s.pc.set f p') a) = _
    rw [Table.get_set_ne _ _ ha]
    exact hstance
  have hself : ∀ cj w pc, stance p' = some (cj, .fill w pc) → w.call = r →
      Unclaimed ⟨m', s.pc.set f p'⟩ r := by
    intro cj w pc hstance hcall
    refine Or.inl ⟨f, cj, w, pc, ?_, hcall⟩
    show stance ((s.pc.set f p') f) = _
    rw [Table.get_set_self]
    exact hstance
  -- the slots stay
  have hquiet : m'.slot = s.mem.slot →
      (∀ cj w pc, stance (s.pc f) = some (cj, .fill w pc) → stance p' = some (cj, .fill w pc)) →
      Unclaimed ⟨m', s.pc.set f p'⟩ r := by
    intro hslot hkeep
    rcases hr with ⟨a, cj, w, pc, ha, hcall⟩ | ⟨c, j, hcj⟩
    · by_cases haf : a = f
      · exact hself cj w pc (hkeep cj w pc (haf ▸ ha)) hcall
      · exact hfill a cj w pc haf ha hcall
    · refine Or.inr ⟨c, j, ?_⟩
      show (m'.slot c j).token = some r
      rw [hslot]
      exact hcj
  -- one slot is written, and its registration was not to be had
  have hset : ∀ c j g, SlotSet s.mem m' c j g → ((s.mem.slot c j).token = some r → met r) →
      (∀ cj w pc, stance (s.pc f) = some (cj, .fill w pc) → w.call = r →
        Unclaimed ⟨m', s.pc.set f p'⟩ r) → Unclaimed ⟨m', s.pc.set f p'⟩ r ∨ met r := by
    intro c j g hwrite hclaim hkeep
    rcases hr with ⟨a, cj, w, pc, ha, hcall⟩ | ⟨d, k, hdk⟩
    · by_cases haf : a = f
      · exact Or.inl (hkeep cj w pc (haf ▸ ha) hcall)
      · exact Or.inl (hfill a cj w pc haf ha hcall)
    · by_cases hat : d = c ∧ k = j
      · exact Or.inr (hclaim (hat.1 ▸ hat.2 ▸ hdk))
      · refine Or.inl (Or.inr ⟨d, k, ?_⟩)
        show (m'.slot d k).token = some r
        rw [hwrite d k, if_neg hat]
        exact hdk
  have hnot : ∀ {cj q}, stance (s.pc f) = some (cj, q) → q.fills = false →
      ∀ cj' w pc, stance (s.pc f) = some (cj', .fill w pc) → stance p' = some (cj', .fill w pc) := by
    intro cj q hq hfills cj' w pc hstance
    rw [hstance] at hq
    cases hq
    cases hfills
  have hused : ∀ {c j w pc}, stance (s.pc f) = some ((c, j), .fill w pc) →
      (s.mem.slot c j).token ≠ some r := by
    intro c j w pc hstance
    rw [WaitingFiber.token, ((hs c).fits f j _ hstance).1]
    simp
  cases exec_stance hx with
  | stay hslot _ hsame => exact Or.inl (hquiet hslot fun cj w pc hstance => hsame ▸ hstance)
  | leave cj q hslot _ hq hfills _ => exact Or.inl (hquiet hslot (hnot hq hfills.1))
  | freed w j hp _ hslot _ =>
      have hq : stance (s.pc f) = some ((w.counter, j), .hold w.call none false) := by
        rw [hp]
        rfl
      exact Or.inl (hquiet hslot (hnot hq rfl))
  | take w j hp _ _ hslot _ =>
      refine Or.inl (hquiet hslot fun cj v pc hstance => ?_)
      rw [hp] at hstance
      cases hstance
  | write w j pc pc' g hq hq' _ _ hwrite _ =>
      refine hset _ _ _ hwrite (fun htoken => absurd htoken (hused hq)) fun cj v q hstance hcall => ?_
      rw [hq] at hstance
      cases hstance
      exact hself _ w pc' hq' hcall
  | publish w j hp hp' hwrite _ =>
      have hq : stance (s.pc f) = some ((w.counter, j), .fill w .publish) := by
        rw [hp]
        rfl
      have hreg := ((hs w.counter).fits f j _ hq).2.1.1.1
      refine hset _ _ _ hwrite (fun htoken => absurd htoken (hused hq)) fun cj v q hstance hcall => ?_
      rw [hq] at hstance
      cases hstance
      refine Or.inr ⟨w.counter, j, ?_⟩
      show (m'.slot w.counter j).token = some r
      rw [hwrite, if_pos ⟨rfl, rfl⟩]
      exact congrArg some (hreg.trans hcall)
  | enter d j hq _ _ hslot _ =>
      refine Or.inl (hquiet hslot fun cj v pc hstance => ?_)
      rw [hq] at hstance
      cases hstance
  | find d j hq _ hslot _ => exact Or.inl (hquiet hslot (hnot hq rfl))
  | claim d j u found hq hq' hfree hwrite _ =>
      refine hset _ _ _ hwrite (fun htoken => ?_) fun cj v pc hstance hcall =>
        absurd hstance (by rw [hq]; simp)
      obtain ⟨⟨w, hw⟩, hreg, htarget⟩ := (hs d).fits f j _ hq
      have hur : u = r := by
        rw [WaitingFiber.token, hfree] at htoken
        exact (hreg u rfl).symm.trans (Option.some.inj htoken)
      subst hur
      rcases claimer_of_stance hq with ⟨x, hwalk, hcounter, rfl⟩ | ⟨v, pc, hp, hcall, -⟩
      · refine h.scans f x hwalk u w ?_ (hw.counter.trans hcounter.symm) ?_
        · rw [← hreg u rfl]
          exact hw.call
        · exact hw.target.symm.trans (htarget x.value rfl)
      · rw [← hcall]
        refine h.looks f v ?_
        rw [hp] at hx
        obtain ⟨a, n, hmove, -, rfl⟩ := exec_add hx
        rw [hp]
        cases hmove with
        | won _ => rfl
        | _ =>
            simp only [addNext] at hq'
            cases hq'
  | copy d j u found hq _ hslot _ => exact Or.inl (hquiet hslot (hnot hq rfl))
  | push d j u found hq _ hslot _ => exact Or.inl (hquiet hslot (hnot hq rfl))
  | drop x j v pc hp _ _ hslot _ =>
      have hq : stance (s.pc f) = some ((x.counter, j), .hold v.reg (some x.value) false) := by
        rw [hp]
        rfl
      exact Or.inl (hquiet hslot (hnot hq rfl))

end Steps

namespace MetInv

section Steps

variable {cfg : Config} {s s' : State} {m m' : Mem} {i f : Nat} {ch : Choice} {p p' : PC}
  {met met' : Nat → Prop} {l : Label}

theorem exec (h : MetInv met s) (hs : ∀ c, SlotInv c s) (hc : CallInv cfg s)
    (hmono : ∀ r, met r → met' r)
    (hbefore : ∀ r w, s.mem.hist.call r = some w →
      (s.mem.counters w.counter).count = w.target → met r)
    (hafter : ∀ r w, m'.hist.call r = some w →
      (m'.counters w.counter).count = w.target → met' r)
    (hfresh : ∀ u c t, s.pc f = .body → ch = .call u → waitsFor s.mem u = some (c, t) →
      (s.mem.counters c).count = t ∨
        ∀ a x, walk (s.pc a) = some x → x.counter = c → x.value ≠ t)
    (hx : exec cfg s.mem i f ch (s.pc f) = some (m', p')) : MetInv met' ⟨m', s.pc.set f p'⟩ := by
  have hpc : ∀ a, (s.pc.set f p') a = if a = f then p' else s.pc a := fun a => Table.get_set _ _ _ _
  constructor
  · intro a x ha r w hr hcounter htarget
    -- who carries the target now carried it before, or has just made the count
    have hscan : walk (s.pc a) = some x ∨ x.value = (m'.counters x.counter).count := by
      replace ha : walk ((s.pc.set f p') a) = some x := ha
      rw [hpc] at ha
      split at ha
      · next haf =>
          rcases walk_step hx ha with hold | ⟨-, hvalue⟩
          · exact Or.inl (haf ▸ hold)
          · exact Or.inr hvalue
      · exact Or.inl ha
    rcases hscan with hold | hnow
    · rcases call_back hx hr with hbegun | ⟨hp', hfiber, hnumber, -⟩
      · exact hmono r (h.scans a x hold r w hbegun hcounter htarget)
      · subst hp'
        have hbody : s.pc f = .body := by
          cases exec_call hx with
          | begin _ hp _ _ _ _ => exact hp
          | same hphase hpart =>
              simp only [callPart, Prod.mk.injEq] at hpart
              rw [hpart.2.1] at hr
              have hlt := (hc.number r w hr).2.2
              omega
          | added v j pc b _ hp' _ => cases b <;> cases hp'
          | woken _ _ hp' _ => cases hp'
          | ended _ _ hphase _ => cases hphase
        rw [hbody] at hx
        obtain ⟨u, hu, hwaits, hcounters⟩ := begin_waitsFor hx
        rcases hfresh u _ _ hbody hu hwaits with hon | hnobody
        · refine hafter r w hr ?_
          rw [hcounters]
          exact hon
        · exact absurd htarget.symm (hnobody a x hold hcounter.symm)
    · refine hafter r w hr ?_
      rw [htarget, hnow, hcounter]
  · intro a w ha
    replace ha : looked ((s.pc.set f p') a) = some w := ha
    rw [hpc] at ha
    split at ha
    · next haf =>
        -- only the waiter itself comes to have looked
        refine hmono _ ?_
        obtain ⟨v, j, pc, rfl⟩ : ∃ v j pc, p' = .add v j pc := by
          cases p' with
          | add v j pc => exact ⟨v, j, pc, rfl⟩
          | _ => cases ha
        rcases add_back hx with ⟨k, q, b, r, hp, hmove, hr⟩ | ⟨-, -, rfl⟩
        · have hin := hc.inside f v (by rw [hp]; rfl)
          have hlook := h.looks f v
          have hfits := (hs v.counter).fits f k
          rw [hp] at hlook hfits
          cases hmove with
          | load =>
              cases hr
              simp only [looked] at ha
              split at ha
              · next hcount =>
                  cases ha
                  exact hbefore _ _ hin.2.1 hcount
              · cases ha
          | unclaimed _ =>
              cases hr
              have hvw : v = w := by
                simp only [looked] at ha
                split at ha
                · exact Option.some.inj ha
                · cases ha
              subst hvw
              exact hlook ha
          | @onTarget value htarget =>
              obtain ⟨⟨u, hu⟩, hreg, -⟩ := hfits _ rfl
              have hcall := hu.call
              rw [show (s.mem.slot v.counter k).reg = v.call from hreg _ rfl, hin.2.1] at hcall
              obtain rfl := Option.some.inj hcall
              have hmet := hlook (if_pos (htarget.symm.trans hu.target))
              cases hr
              cases ha
              exact hmet
          | won _ =>
              cases hr
              cases ha
              exact hlook rfl
          | _ =>
              cases hr <;> cases ha
        · cases ha
    · exact hmono _ (h.looks a w ha)
  · intro a w ha
    replace ha : (callPhase ((s.pc.set f p') a)).call = some w := ha
    show early ((s.pc.set f p') a) = true ∨ _
    have hkeep : early (s.pc a) = true ∨ Unclaimed s w.call ∨ met w.call →
        (early (s.pc a) = true → early ((s.pc.set f p') a) = true ∨
          Unclaimed ⟨m', s.pc.set f p'⟩ w.call) →
        early ((s.pc.set f p') a) = true ∨ Unclaimed ⟨m', s.pc.set f p'⟩ w.call ∨ met' w.call := by
      rintro (hearly | hclaim | hmet) hgo
      · rcases hgo hearly with hstill | hfilling
        · exact Or.inl hstill
        · exact Or.inr (Or.inl hfilling)
      · rcases unclaimed_step h hs hx hclaim with hstill | hmet
        · exact Or.inr (Or.inl hstill)
        · exact Or.inr (Or.inr (hmono _ hmet))
      · exact Or.inr (Or.inr (hmono _ hmet))
    by_cases haf : a = f
    · subst haf
      rw [Table.get_set_self] at ha hkeep ⊢
      have hgo : (callPhase (s.pc a)).call = some w → early (s.pc a) = true →
          early p' = true ∨ Unclaimed ⟨m', s.pc.set a p'⟩ w.call := by
        intro hphase hearly
        rcases early_step hx hearly hphase with hstill | ⟨cj, pc, hfill⟩
        · exact Or.inl hstill
        · refine Or.inr (Or.inl ⟨a, cj, w, pc, ?_, rfl⟩)
          show stance ((s.pc.set a p') a) = _
          rw [Table.get_set_self]
          exact hfill
      have hsame : (callPhase (s.pc a)).call = some w →
          early p' = true ∨ Unclaimed ⟨m', s.pc.set a p'⟩ w.call ∨ met' w.call :=
        fun hphase => hkeep (h.calls a w hphase) (hgo hphase)
      cases exec_call hx with
      | same hphase _ => exact hsame (hphase ▸ ha)
      | begin v _ _ _ hp' _ =>
          rw [hp']
          exact Or.inl rfl
      | added v j pc b hp hp' _ =>
          refine hsame ?_
          rw [hp]
          rw [hp'] at ha
          cases b <;> exact ha
      | woken v hphase hp' _ =>
          refine hsame ?_
          rw [hphase]
          rw [hp'] at ha
          exact ha
      | ended _ _ hphase _ =>
          rw [hphase] at ha
          cases ha
    · rw [Table.get_set_ne _ _ haf] at ha hkeep ⊢
      exact hkeep (h.calls a w ha) Or.inl

/-- A call that returns has met its target. -/
theorem met_of_done (h : MetInv met s) (hw : WaitInv cfg s) {a : Nat} {w : WaitCall}
    (ha : s.pc a = .waitDone w) : met w.call := by
  have hphase : (callPhase (s.pc a)).call = some w := by
    rw [ha]
    rfl
  obtain ⟨hfiber, hcall, -⟩ := hw.calls.inside a w hphase
  rcases h.calls a w hphase with hearly | hclaim | hmet
  · rw [ha] at hearly
    cases hearly
  · rcases hclaim with ⟨b, cj, v, pc, hb, heq⟩ | ⟨c, j, hcj⟩
    · have hadding : (callPhase (s.pc b)).call = some v := by
        cases hp : s.pc b with
        | add u k q =>
            rw [hp] at hb
            cases q <;> cases hb <;> rfl
        | scan x k q =>
            rw [hp] at hb
            cases q <;> cases hb
        | pin x k reg t q =>
            rw [hp] at hb
            cases q <;> cases hb
        | resEnq k u q =>
            rw [hp] at hb
            cases k <;> cases hb
        | _ =>
            rw [hp] at hb
            cases hb
      obtain ⟨rfl, -⟩ := hw.calls.inside_inj hadding hphase heq
      rw [ha] at hb
      cases hb
    · obtain ⟨v, hv, hwaits⟩ := hw.regs.waits (.slot c j) w.call hcj
      obtain rfl := Option.some.inj (hcall.symm.trans hv)
      rw [Waits, hfiber, ha] at hwaits
      rcases hwaits with ⟨k, pc, -, heq⟩ | heq <;> cases heq
  · exact hmet

theorem start (cfg : Config) (met : Nat → Prop) : MetInv met (start cfg) := by
  have hpc : ∀ a, walk ((Scheduler.start cfg).pc a) = none ∧
      looked ((Scheduler.start cfg).pc a) = none ∧
      callPhase ((Scheduler.start cfg).pc a) = .none := by
    intro a
    rw [start_pc]
    split
    · exact ⟨rfl, rfl, rfl⟩
    · split <;> exact ⟨rfl, rfl, rfl⟩
  constructor
  · intro a x ha
    rw [(hpc a).1] at ha
    cases ha
  · intro a w ha
    rw [(hpc a).2.1] at ha
    cases ha
  · intro a w ha
    rw [(hpc a).2.2] at ha
    cases ha

end Steps

end MetInv

/-! ## Runs -/

/-- The records of the tasks only grow. -/
structure TasksGrow (s s' : State) : Prop where
  next : s.mem.hist.nextTask ≤ s'.mem.hist.nextTask
  task : ∀ n, n < s.mem.hist.nextTask → s'.mem.hist.task n = s.mem.hist.task n
  decremented : ∀ n, s.mem.hist.decremented n ≤ s'.mem.hist.decremented n

section Runs

variable {cfg : Config} {s s' : State} {σ : Nat → State} {ℓ : Nat → Label} {n j k : Nat} {l : Label}

theorem TasksGrow.refl (s : State) : TasksGrow s s :=
  ⟨Nat.le_refl _, fun _ _ => rfl, fun _ => Nat.le_refl _⟩

theorem TasksGrow.trans {t : State} (h : TasksGrow s s') (h' : TasksGrow s' t) : TasksGrow s t where
  next := Nat.le_trans h.next h'.next
  task n hn := (h'.task n (Nat.lt_of_lt_of_le hn h.next)).trans (h.task n hn)
  decremented n := Nat.le_trans (h.decremented n) (h'.decremented n)

theorem TasksGrow.of_eq (hnext : s'.mem.hist.nextTask = s.mem.hist.nextTask)
    (htask : s'.mem.hist.task = s.mem.hist.task)
    (hdec : ∀ n, s.mem.hist.decremented n ≤ s'.mem.hist.decremented n) : TasksGrow s s' :=
  ⟨by rw [hnext], fun n _ => by rw [htask], hdec⟩

/-- A task of a null sync has been counted down. -/
theorem done_of_null (hs : LedgerState cfg s) {sync task : Nat} (hagrees : Agrees s sync)
    (hnone : s.mem.syncs sync = none) (htask : task < s.mem.hist.nextTask)
    (hsync : (s.mem.hist.task task).sync = some sync) : s.mem.hist.decremented task ≠ 0 := by
  intro hdec
  obtain ⟨j, y, hy, -, -, hysync⟩ := hs.ledger.live task htask hdec
  have hj := (hagrees j y hy).2 (hysync sync hsync)
  rw [hnone] at hj
  cases hj

/-- A task that has been counted down has run to completion. -/
theorem TaskInv.returned_of_done (h : TaskInv s) {task : Nat}
    (hdec : s.mem.hist.decremented task ≠ 0) : s.mem.hist.returned task = 1 := by
  have horder := h.order task
  omega

end Runs

/-! ## The condition computed -/

/-- Whether a call of `wait` that begins finds its target on the count, or in no scan. -/
def noStaleScan (s : State) (l : Label) : Bool :=
  match s.pc (s.mem.running l.thread), l.choice with
  | .body, .call u =>
      match waitsFor s.mem u with
      | some (c, t) => decide ((s.mem.counters c).count = t) ||
          !somePC (fun p => (walk p).any fun x => x.counter = c && x.value = t) s
      | none => true
  | _, _ => true

def staleLabels : List Label :=
  goes 0 7 ++ calls 0 (.submit 0 1) 38 ++ [⟨0, .handle 0⟩] ++ goes 0 38 ++ goes 1 19 ++
    calls 1 .ret 1 ++ calls 0 (.submit 0 1) 38 ++ calls 0 (.waitFor 0 true) 11 ++ goes 1 9 ++
    goes 0 18

end TaskDispatcher.Scheduler
