import TaskDispatcher.Scheduler.Resolution

/-!
# No wake-up is lost

A waiter publishes its slot before it reads the count, and whoever changes the
count scans the slots afterwards.  So a published slot whose target is the count
is still to be looked at by a scanner with that value, or by its waiter.
-/

namespace TaskDispatcher.Scheduler

open TaskDispatcher.Library TaskDispatcher.Container

/-- The agent is still to look at slot `j` of counter `c` with the value `v`. -/
def covers (c j : Nat) (v : Int) : PC → Prop
  | .scan x k .free => (x.counter = c ∧ x.value = v) ∧ k ≤ j
  | .scan x k .inUse => (x.counter = c ∧ x.value = v) ∧ k ≤ j
  | .scan x k .target => (x.counter = c ∧ x.value = v) ∧ k ≤ j
  | .scan x k (.claim _) => (x.counter = c ∧ x.value = v) ∧ k ≤ j
  | .scan x k _ => (x.counter = c ∧ x.value = v) ∧ k < j
  | .pin x k _ _ _ => (x.counter = c ∧ x.value = v) ∧ k < j
  | .resEnq (.scan x k) _ _ => (x.counter = c ∧ x.value = v) ∧ k < j
  | .add w k .load => w.counter = c ∧ k = j
  | .add w k (.recheck u) => (w.counter = c ∧ k = j) ∧ u = v
  | .add w k (.compare u) => (w.counter = c ∧ k = j) ∧ u = v
  | .add w k .claim => w.counter = c ∧ k = j
  | _ => False

/-- The registration is held at a slot of counter `c`. -/
def HeldAt (c : Nat) (s : State) (r : Nat) : Prop :=
  (∃ a j q, stance (s.pc a) = some ((c, j), q) ∧ q.reg = some r) ∨
    ∃ j, (s.mem.slot c j).token = some r

structure CoverInv (c : Nat) (s : State) : Prop where
  taken : ∀ j, (s.mem.slot c j).inUse = false → (s.mem.counters c).freeWaitingSlots j = false
  filling : ∀ a j w pc, stance (s.pc a) = some ((c, j), .fill w pc) →
    (s.mem.counters c).freeWaitingSlots j = false
  bound : ∀ j, (s.mem.slot c j).inUse = false → j < maxWaiting
  covered : ∀ j, (s.mem.slot c j).inUse = false →
    (s.mem.slot c j).counterTarget = (s.mem.counters c).count →
      ∃ a, covers c j (s.mem.counters c).count (s.pc a)
  located : ∀ w, s.mem.hist.call w.call = some w → w.counter = c → Signed s w →
    s.mem.hist.pushes w.call = 0 → s.mem.hist.added w.call ≠ some true → HeldAt c s w.call

/-- A waiter stays within the slots. -/
def SlotRange (s : State) : Prop := ∀ a w j pc, s.pc a = .add w j pc → j < maxWaiting

section Steps

variable {cfg : Config} {s s' : State} {m m' : Mem} {i f c : Nat} {ch : Choice} {p p' : PC} {l : Label}

/-- Where a waiter comes from. -/
theorem add_back {w : WaitCall} {j : Nat} {pc : AddPC}
    (hx : exec cfg m i f ch p = some (m', .add w j pc)) :
    (∃ k q a r, p = .add w k q ∧ AddMove (m.counters w.counter) w k q a r ∧
      .add w j pc = addNext w k r) ∨ p = .waitStore w ∧ j = 0 ∧ pc = .acquire := by
  cases p with
  | add v k q =>
      obtain ⟨a, r, hmove, -, hr⟩ := exec_add hx
      have hvw : v = w := by
        rcases r with _ | (_ | _) | _ <;> cases hr <;> rfl
      subst hvw
      exact Or.inl ⟨k, q, a, r, rfl, hmove, hr⟩
  | waitStore v =>
      cases hx
      exact Or.inr ⟨rfl, rfl, rfl⟩
  | scan x k q =>
      obtain ⟨b, r, -, -, hr⟩ := exec_scan hx
      cases r with
      | skip =>
          simp only [scanNext, nextSlot] at hr
          split at hr
          · cases hr
          · cases hk : x.k <;> rw [hk] at hr <;> cases hr
      | _ => cases hr
  | clean k =>
      simp only [exec, cleanStep] at hx
      rcases k with _ | _ | (_ | _) <;> split at hx <;> cases hx
  | idleEnq k v q =>
      simp only [exec] at hx
      rcases k with _ | _ | (_ | _) <;> split at hx <;> cases hx
  | resEnq k v q =>
      simp only [exec] at hx
      cases k <;> split at hx <;> cases hx
  | getUnlock got => cases got <;> cases hx
  | loop =>
      simp only [exec] at hx
      split at hx <;> cases hx
  | entry =>
      simp only [exec] at hx
      split at hx <;> cases hx
  | resetSlot d k q =>
      simp only [exec] at hx
      split at hx <;> cases hx
  | _ =>
      simp only [exec, userStep, beginWait, afterWait, incrementStep, submitNext, afterRelease,
        pinStep, submitTasks, enqueueNext] at hx
      (repeat' split at hx) <;> cases hx

theorem slotRange_exec (h : SlotRange s) (hx : exec cfg s.mem i f ch (s.pc f) = some (m', p')) :
    SlotRange ⟨m', s.pc.set f p'⟩ := by
  intro a w j pc ha
  replace ha : (s.pc.set f p') a = .add w j pc := ha
  rw [Table.get_set] at ha
  split at ha
  · subst ha
    rcases add_back hx with ⟨k, q, b, r, hp, hmove, hr⟩ | ⟨-, rfl, -⟩
    · have hk := h f w k q hp
      cases hmove <;> simp only [addNext] at hr <;> first
        | (cases hr; assumption)
        | cases hr
    · decide
  · exact h a w j pc ha

/-! ## Flags and counts -/

/-- The slot an access frees. -/
def frees : PC → Option (Nat × Nat)
  | .add w j .free => some (w.counter, j)
  | .scan x j (.release _) => some (x.counter, j)
  | .resetSlot c j _ => some (c, j)
  | _ => none

/-- What an access does to the flag of a slot. -/
inductive FlagMove (m : Mem) (p : PC) (m' : Mem) (c j : Nat) : Prop where
  | same : (m'.counters c).freeWaitingSlots j = (m.counters c).freeWaitingSlots j →
      FlagMove m p m' c j
  | taken : (m'.counters c).freeWaitingSlots j = false → FlagMove m p m' c j
  | freed : frees p = some (c, j) → FlagMove m p m' c j

theorem flagMove_of {d : Nat} {a : AtomicCounter} (hm : m'.counters = m.counters.set d a)
    (ha : a.freeWaitingSlots = (m.counters d).freeWaitingSlots) (c j : Nat) : FlagMove m p m' c j := by
  refine .same ?_
  rw [hm, Table.get_set]
  split
  · rename_i hc
    rw [ha, hc]
  · rfl

theorem flagMove_setFree {d k : Nat} {b : Bool}
    (hm : m'.counters = m.counters.set d ((m.counters d).setFree k b))
    (hb : b = true → frees p = some (d, k)) (c j : Nat) : FlagMove m p m' c j := by
  by_cases hcd : c = d
  · subst hcd
    have hflag : (m'.counters c).freeWaitingSlots j =
        if j = k then b else (m.counters c).freeWaitingSlots j := by
      rw [hm, Table.get_set_self, AtomicCounter.free_setFree]
    by_cases hj : j = k
    · subst hj
      rw [if_pos rfl] at hflag
      cases b with
      | false => exact .taken hflag
      | true => exact .freed (hb rfl)
    · rw [if_neg hj] at hflag
      exact .same hflag
  · exact .same (by rw [hm, Table.get_set_ne _ _ hcd])

theorem exec_flags (hx : exec cfg m i f ch p = some (m', p')) (c j : Nat) : FlagMove m p m' c j := by
  cases p with
  | add w k pc =>
      obtain ⟨a, r, hmove, rfl, -⟩ := exec_add hx
      have hcounters : (addMem m w a r).counters = m.counters.set w.counter a := by cases r <;> rfl
      cases hmove with
      | acquire _ => exact flagMove_setFree hcounters (by simp) c j
      | free => exact flagMove_setFree hcounters (fun _ => rfl) c j
      | _ => exact flagMove_of hcounters rfl c j
  | scan x k pc =>
      obtain ⟨a, r, hmove, hm, -⟩ := exec_scan hx
      have hcounters : m'.counters = m.counters.set x.counter a := by rw [hm]
      cases hmove with
      | release => exact flagMove_setFree hcounters (fun _ => rfl) c j
      | _ => exact flagMove_of hcounters rfl c j
  | increment inc =>
      simp only [exec, incrementStep] at hx
      split at hx <;> cases hx <;>
        exact flagMove_of (d := inc.counter)
          (a := { m.counters inc.counter with
            count := (m.counters inc.counter).count + inc.amount }) rfl rfl c j
  | resetCount d k =>
      cases hx
      exact flagMove_of (d := d) (a := { m.counters d with count := 0 }) rfl rfl c j
  | resetSlot d k q =>
      cases hx
      exact flagMove_setFree (d := d) (k := k) (b := true) rfl (fun _ => rfl) c j
  | _ =>
      simp only [exec, userStep, beginWait, afterWait, submitNext, afterRelease, cleanStep,
        pinStep, submitTasks, enqueueNext] at hx
      (repeat' split at hx) <;> cases hx <;> exact .same rfl

/-- A count changes where it is added to or reset, and adding to it begins a scan. -/
theorem exec_count (hx : exec cfg m i f ch p = some (m', p')) (c : Nat) :
    (m'.counters c).count = (m.counters c).count ∨
      (∃ x, p' = .scan x 0 .free ∧ x.counter = c ∧ x.value = (m'.counters c).count) ∨
        ∃ k, p = .resetCount c k := by
  have hset : ∀ (n : Mem) (d : Nat) (a : AtomicCounter), n.counters = m.counters.set d a →
      a.count = (m.counters d).count → (n.counters c).count = (m.counters c).count := by
    intro n d a hn ha
    rw [hn, Table.get_set]
    split
    · rename_i hc
      rw [ha, hc]
    · rfl
  cases p with
  | add w k pc =>
      obtain ⟨a, r, hmove, rfl, -⟩ := exec_add hx
      have hcounters : (addMem m w a r).counters = m.counters.set w.counter a := by cases r <;> rfl
      left
      cases hmove <;> exact hset _ _ _ hcounters rfl
  | scan x k pc =>
      obtain ⟨a, r, hmove, rfl, -⟩ := exec_scan hx
      left
      cases hmove <;> exact hset _ _ _ rfl rfl
  | increment inc =>
      by_cases hc : c = inc.counter
      · right
        left
        subst hc
        simp only [exec, incrementStep] at hx
        split at hx <;> cases hx <;> exact ⟨_, rfl, rfl, by simp⟩
      · left
        simp only [exec, incrementStep] at hx
        split at hx <;> cases hx <;> simp only [Table.get_set_ne _ _ hc]
  | resetCount d k =>
      by_cases hc : c = d
      · exact Or.inr (Or.inr ⟨k, by rw [hc]⟩)
      · left
        cases hx
        simp only [Table.get_set_ne _ _ hc]
  | resetSlot d k q =>
      cases hx
      exact Or.inl (hset _ _ _ rfl rfl)
  | _ =>
      simp only [exec, userStep, beginWait, afterWait, submitNext, afterRelease, cleanStep,
        pinStep, submitTasks, enqueueNext] at hx
      (repeat' split at hx) <;> cases hx <;> exact Or.inl rfl

/-! ## Whoever is to look at a slot -/

theorem covers_nextSlot {x : Scan} {k j : Nat} {v : Int} (hj : j < maxWaiting)
    (hx : (x.counter = c ∧ x.value = v) ∧ k < j) : covers c j v (nextSlot x k) := by
  unfold nextSlot
  rw [if_pos (by omega)]
  exact ⟨hx.1, by omega⟩

/-- Whoever is to look at an unclaimed slot on target goes on to it, or claims it. -/
theorem covers_step (hx : exec cfg m i f ch p = some (m', p')) {j : Nat}
    (hcov : covers c j (m.counters c).count p) (hj : j < maxWaiting)
    (hunused : (m.slot c j).inUse = false) (hflag : (m.counters c).freeWaitingSlots j = false)
    (htarget : (m.slot c j).counterTarget = (m.counters c).count) :
    covers c j (m.counters c).count p' ∨ (m'.slot c j).inUse = true := by
  cases p with
  | scan x k pc =>
      obtain ⟨a, r, hmove, rfl, rfl⟩ := exec_scan hx
      -- a look at an earlier slot says nothing about this one
      have hskip : k ≠ j → k ≤ j → (x.counter = c ∧ x.value = (m.counters c).count) →
          covers c j (m.counters c).count (nextSlot x k) := fun hne hle hsame =>
        covers_nextSlot hj ⟨hsame, by omega⟩
      cases hmove with
      | free hfree =>
          obtain ⟨⟨rfl, hv⟩, hk⟩ := hcov
          refine Or.inl (hskip ?_ hk ⟨rfl, hv⟩)
          rintro rfl
          rw [hflag] at hfree
          cases hfree
      | occupied _ => exact Or.inl hcov
      | used hused =>
          obtain ⟨⟨rfl, hv⟩, hk⟩ := hcov
          refine Or.inl (hskip ?_ hk ⟨rfl, hv⟩)
          rintro rfl
          rw [show ((m.counters x.counter).slot k).inUse = false from hunused] at hused
          cases hused
      | unused _ => exact Or.inl hcov
      | onTarget _ => exact Or.inl hcov
      | offTarget hoff =>
          obtain ⟨⟨rfl, hv⟩, hk⟩ := hcov
          refine Or.inl (hskip ?_ hk ⟨rfl, hv⟩)
          rintro rfl
          exact hoff (htarget.trans hv.symm)
      | lost hused =>
          obtain ⟨⟨rfl, hv⟩, hk⟩ := hcov
          refine Or.inl (hskip ?_ hk ⟨rfl, hv⟩)
          rintro rfl
          rw [show ((m.counters x.counter).slot k).inUse = false from hunused] at hused
          cases hused
      | won _ =>
          obtain ⟨⟨rfl, hv⟩, hk⟩ := hcov
          by_cases hkj : k = j
          · right
            subst hkj
            rw [slot_counters, if_pos rfl, AtomicCounter.slot_setSlot, if_pos rfl]
          · exact Or.inl ⟨⟨rfl, hv⟩, by omega⟩
      | unpinned _ => exact Or.inl hcov
      | pinned _ => exact Or.inl hcov
      | fiber => exact Or.inl hcov
      | release => exact Or.inl (covers_nextSlot hj hcov)
  | pin x k reg t pc =>
      left
      cases pc with
      | lock =>
          simp only [exec, pinStep] at hx
          split at hx <;> cases hx <;> exact hcov
      | push =>
          cases hx
          exact hcov
      | unlock =>
          cases hx
          exact hcov
  | resEnq k v pc =>
      left
      cases k with
      | getNextTask => exact absurd hcov id
      | scan x k =>
          simp only [exec] at hx
          split at hx <;> cases hx <;> exact hcov
  | add w k pc =>
      obtain ⟨a, r, hmove, rfl, rfl⟩ := exec_add hx
      cases hmove with
      | load =>
          obtain ⟨rfl, rfl⟩ := hcov
          exact Or.inl ⟨⟨rfl, rfl⟩, rfl⟩
      | taken hused =>
          obtain ⟨⟨rfl, rfl⟩, -⟩ := hcov
          rw [show ((m.counters w.counter).slot k).inUse = false from hunused] at hused
          cases hused
      | unclaimed _ => exact Or.inl hcov
      | onTarget _ => exact Or.inl hcov.1
      | offTarget hoff =>
          obtain ⟨⟨rfl, rfl⟩, rfl⟩ := hcov
          exact absurd htarget hoff
      | lost hused =>
          obtain ⟨rfl, rfl⟩ := hcov
          rw [show ((m.counters w.counter).slot k).inUse = false from hunused] at hused
          cases hused
      | won _ =>
          obtain ⟨rfl, rfl⟩ := hcov
          right
          show (Mem.slot { m with counters := m.counters.set w.counter _ } w.counter k).inUse = true
          rw [slot_counters, if_pos rfl, AtomicCounter.slot_setSlot, if_pos rfl]
      | _ => exact absurd hcov id
  | _ => exact absurd hcov id

/-! ## Where a registration is -/

/-- A call takes its slot once. -/
theorem signed_back (hc : CallInv cfg s) {w : WaitCall}
    (hx : exec cfg s.mem i f ch (s.pc f) = some (m', p')) (hw : s.mem.hist.call w.call = some w)
    (h : Signed ⟨m', s.pc.set f p'⟩ w) :
    Signed s w ∨ ∃ j, s.pc f = .add w j .acquire ∧ p' = .add w j .writeFiber := by
  rcases h with ⟨j, pc, hpc, hp⟩ | hadded
  · replace hp : (s.pc.set f p') w.fiber = .add w j pc := hp
    rw [Table.get_set] at hp
    split at hp
    · rename_i hwf
      subst hp
      rcases add_back hx with ⟨k, q, a, r, hp, hmove, hr⟩ | ⟨-, -, rfl⟩
      · by_cases hq : q = .acquire
        · subst hq
          right
          cases hmove with
          | acquire _ =>
              cases hr
              exact ⟨j, hp, rfl⟩
          | occupied _ _ =>
              cases hr
              exact absurd rfl hpc
          | full _ _ =>
              cases hr
              exact absurd rfl hpc
        · exact Or.inl (Or.inl ⟨k, q, hq, hwf ▸ hp⟩)
      · exact absurd rfl hpc
    · exact Or.inl (Or.inl ⟨j, pc, hpc, hp⟩)
  · replace hadded : m'.hist.added w.call ≠ none := hadded
    cases exec_call hx with
    | added v j pc b hp hp' hpart =>
        obtain ⟨hfiber, hrec, -⟩ := hc.inside f v (by rw [hp]; rfl)
        by_cases heq : w.call = v.call
        · rw [heq, hrec] at hw
          cases hw
          refine Or.inl (Or.inl ⟨j, pc, ?_, hfiber ▸ hp⟩)
          rintro rfl
          rw [hp] at hx
          obtain ⟨a, r, hmove, -, hr⟩ := exec_add hx
          rw [hp'] at hr
          cases hmove <;> cases b <;> cases hr
        · simp only [callPart, Prod.mk.injEq] at hpart
          rw [hpart.2.2.1, Table.get_set_ne _ _ heq] at hadded
          exact Or.inl (Or.inr hadded)
    | _ =>
        rename_i hpart
        simp only [callPart, Prod.mk.injEq] at hpart
        rw [hpart.2.2.1] at hadded
        exact Or.inl (Or.inr hadded)

theorem added_keep (hc : CallInv cfg s) (hx : exec cfg s.mem i f ch (s.pc f) = some (m', p')) {r : Nat}
    (hr : s.mem.hist.added r = some true) : m'.hist.added r = some true := by
  cases exec_call hx with
  | added w j pc b hp _ hpart =>
      have hnone := hc.adding f w (by rw [hp]; rfl)
      simp only [callPart, Prod.mk.injEq] at hpart
      rw [hpart.2.2.1, Table.get_set_ne, hr]
      rintro rfl
      rw [hnone] at hr
      cases hr
  | _ =>
      rename_i hpart
      simp only [callPart, Prod.mk.injEq] at hpart
      rw [hpart.2.2.1, hr]

/-- The enqueue of a scanner of counter `c` fails. -/
def Drops (m : Mem) (ch : Choice) (c : Nat) (p : PC) : Prop :=
  ∃ x j v pc, p = .resEnq (.scan x j) v pc ∧ x.counter = c ∧
    (Mpmc.enqueueStep 0 v (ch = .spurious) m.resumableFibers pc).2 = .inr false

/-- A registration stays at its counter until it is pushed or its waiter drops it. -/
theorem heldAt_step (hs : SlotInv c s) (hdrop : ¬ Drops s.mem ch c (s.pc f))
    (hx : exec cfg s.mem i f ch (s.pc f) = some (m', p')) {r : Nat} (hr : HeldAt c s r)
    (hpushes : m'.hist.pushes r = 0) (hadded : m'.hist.added r ≠ some true) :
    HeldAt c ⟨m', s.pc.set f p'⟩ r := by
  have hagent : ∀ a j q, a ≠ f → stance (s.pc a) = some ((c, j), q) → q.reg = some r →
      HeldAt c ⟨m', s.pc.set f p'⟩ r := by
    intro a j q haf ha hq
    refine Or.inl ⟨a, j, q, ?_, hq⟩
    show stance ((s.pc.set f p') a) = _
    rw [Table.get_set_ne _ _ haf, ha]
  have hself : ∀ j q, stance p' = some ((c, j), q) → q.reg = some r →
      HeldAt c ⟨m', s.pc.set f p'⟩ r := by
    intro j q hp' hq
    refine Or.inl ⟨f, j, q, ?_, hq⟩
    show stance ((s.pc.set f p') f) = _
    rw [Table.get_set_self, hp']
  have hkeep : m'.slot = s.mem.slot →
      (∀ j q, stance (s.pc f) = some ((c, j), q) → q.reg = some r →
        HeldAt c ⟨m', s.pc.set f p'⟩ r) → HeldAt c ⟨m', s.pc.set f p'⟩ r := by
    intro hslot hmine
    rcases hr with ⟨a, j, q, ha, hq⟩ | ⟨j, hj⟩
    · by_cases haf : a = f
      · exact hmine j q (haf ▸ ha) hq
      · exact hagent a j q haf ha hq
    · refine Or.inr ⟨j, ?_⟩
      show (m'.slot c j).token = some r
      rw [hslot]
      exact hj
  have hset : ∀ d k g, SlotSet s.mem m' d k g → (d = c → (s.mem.slot c k).token = some r →
        HeldAt c ⟨m', s.pc.set f p'⟩ r) →
      (∀ j q, stance (s.pc f) = some ((c, j), q) → q.reg = some r →
        HeldAt c ⟨m', s.pc.set f p'⟩ r) → HeldAt c ⟨m', s.pc.set f p'⟩ r := by
    intro d k g hset hmine hstance
    rcases hr with ⟨a, j, q, ha, hq⟩ | ⟨j, hj⟩
    · by_cases haf : a = f
      · exact hstance j q (haf ▸ ha) hq
      · exact hagent a j q haf ha hq
    · by_cases hjk : c = d ∧ j = k
      · exact hmine hjk.1.symm (hjk.2 ▸ hj)
      · refine Or.inr ⟨j, ?_⟩
        show (m'.slot c j).token = some r
        rw [hset c j, if_neg hjk]
        exact hj
  cases exec_stance hx with
  | stay hslot _ hsame => exact hkeep hslot fun j q hf hq => hself j q (hsame.trans hf) hq
  | leave cj q₀ hslot _ hf₀ hnot _ =>
      refine hkeep hslot fun j q hf hq => ?_
      have hqq : q₀ = q := by
        rw [hf₀] at hf
        cases hf
        rfl
      subst hqq
      cases q₀ with
      | fill w pc => exact absurd hnot.1 (by simp [Stance.fills])
      | look reg found => cases hq
      | hold reg found pushed =>
          cases pushed with
          | true => cases hq
          | false => exact absurd rfl (hnot.2 reg found)
  | freed w j₀ hp hp' hslot _ =>
      refine hkeep hslot fun j q hf hq => ?_
      rw [hp] at hf hx
      cases hf
      cases hq
      obtain ⟨a, n, hmove, rfl, -⟩ := exec_add hx
      cases hmove
      refine absurd ?_ hadded
      show (s.mem.hist.added.set w.call (some true)) w.call = some true
      exact Table.get_set_self _ _ _
  | take w j₀ hp _ _ hslot _ =>
      refine hkeep hslot fun j q hf _ => ?_
      rw [hp] at hf
      cases hf
  | write w j₀ pc pc' g hf₀ hp' huse _ hwrite _ =>
      refine hset _ _ _ hwrite (fun hcounter htoken => ?_) fun j q hf hq => ?_
      · subst hcounter
        have hused := (hs.fits f j₀ _ hf₀).1
        rw [WaitingFiber.token, hused] at htoken
        cases htoken
      · rw [hf₀] at hf
        cases hf
        exact hself j₀ _ hp' hq
  | publish w j₀ hp hp' hwrite _ =>
      have hf₀ : stance (s.pc f) = some ((w.counter, j₀), .fill w .publish) := by
        rw [hp]
        rfl
      refine hset _ _ _ hwrite (fun hcounter htoken => ?_) fun j q hf hq => ?_
      · subst hcounter
        have hused := (hs.fits f j₀ _ hf₀).1
        rw [WaitingFiber.token, hused] at htoken
        cases htoken
      · rw [hf₀] at hf
        cases hf
        have hreg := (hs.fits f j₀ _ hf₀).2.1.1.1
        refine Or.inr ⟨j₀, ?_⟩
        show (m'.slot w.counter j₀).token = some r
        rw [hwrite w.counter j₀, if_pos ⟨rfl, rfl⟩]
        exact (congrArg some hreg).trans hq
  | enter d j₀ hnone _ _ hslot _ =>
      refine hkeep hslot fun j q hf _ => ?_
      rw [hnone] at hf
      cases hf
  | find d j₀ hf₀ _ hslot _ =>
      refine hkeep hslot fun j q hf hq => ?_
      rw [hf₀] at hf
      cases hf
      cases hq
  | claim d j₀ u found hf₀ hp' hfree hwrite _ =>
      refine hset _ _ _ hwrite (fun hd htoken => ?_) fun j q hf hq => ?_
      · subst hd
        have hreg := (hs.fits f j₀ _ hf₀).2.1 u rfl
        refine hself j₀ _ hp' ?_
        rw [WaitingFiber.token, hfree, hreg] at htoken
        exact htoken
      · rw [hf₀] at hf
        cases hf
        cases hq
  | copy d j₀ u found hf₀ hp' hslot _ =>
      refine hkeep hslot fun j q hf hq => ?_
      rw [hf₀] at hf
      cases hf
      have hreg := (hs.fits f j₀ _ hf₀).1.2.1
      exact hself j₀ _ hp' ((congrArg some hreg).trans hq)
  | push d j₀ u found hf₀ _ hslot hpush =>
      refine hkeep hslot fun j q hf hq => ?_
      rw [hf₀] at hf
      cases hf
      cases hq
      have hreg := (hs.fits f j₀ _ hf₀).1.2.1
      rw [hreg, or_self] at hpush
      rw [hpush, count_self] at hpushes
      cases hpushes
  | drop x j₀ v pc hp hfail _ hslot _ =>
      refine hkeep hslot fun j q hf hq => ?_
      have hcounter : x.counter = c := by
        rw [hp] at hf
        cases hf
        rfl
      exact absurd ⟨x, j₀, v, pc, hp, hcounter, hfail⟩ hdrop

/-! ## The invariant -/

/-- Whoever frees a slot has claimed it. -/
theorem hold_of_frees {j : Nat} (hp : frees p = some (c, j)) (hreset : ∀ k, p ≠ .resetSlot c j k) :
    ∃ reg found pushed, stance p = some ((c, j), .hold reg found pushed) := by
  cases p with
  | add w k pc =>
      cases pc <;> cases hp
      exact ⟨_, _, _, rfl⟩
  | scan x k pc =>
      cases pc <;> cases hp
      exact ⟨_, _, _, rfl⟩
  | resetSlot d k q =>
      cases hp
      exact absurd rfl (hreset q)
  | _ => cases hp

/-- A slot is unclaimed since before, or has just been published. -/
theorem unused_back (hs : SlotInv c s) (hx : exec cfg s.mem i f ch (s.pc f) = some (m', p')) {j : Nat}
    (hj : (m'.slot c j).inUse = false) : m'.slot c j = s.mem.slot c j ∨
      ∃ w, s.pc f = .add w j .publish ∧ w.counter = c ∧ p' = .add w j .load := by
  cases exec_stance hx with
  | write w k pc pc' g hf _ huse _ hset _ =>
      left
      rw [hset c j] at hj ⊢
      split
      · rename_i hcj
        obtain ⟨rfl, rfl⟩ := hcj
        rw [if_pos ⟨rfl, rfl⟩, huse, (hs.fits f j _ hf).1] at hj
        cases hj
      · rfl
  | publish w k hp hp' hset _ =>
      by_cases hcj : c = w.counter ∧ j = k
      · obtain ⟨rfl, rfl⟩ := hcj
        exact Or.inr ⟨w, hp, rfl, hp'⟩
      · left
        rw [hset c j, if_neg hcj]
  | claim d k r found _ _ _ hset _ =>
      left
      rw [hset c j] at hj ⊢
      split
      · rename_i hcj
        rw [if_pos hcj] at hj
        cases hj
      · rfl
  | stay hslot _ _ => exact Or.inl (by rw [hslot])
  | leave _ _ hslot _ _ _ _ => exact Or.inl (by rw [hslot])
  | freed _ _ _ _ hslot _ => exact Or.inl (by rw [hslot])
  | take _ _ _ _ _ hslot _ => exact Or.inl (by rw [hslot])
  | enter _ _ _ _ _ hslot _ => exact Or.inl (by rw [hslot])
  | find _ _ _ _ hslot _ => exact Or.inl (by rw [hslot])
  | copy _ _ _ _ _ _ hslot _ => exact Or.inl (by rw [hslot])
  | push _ _ _ _ _ _ hslot _ => exact Or.inl (by rw [hslot])
  | drop _ _ _ _ _ _ _ hslot _ => exact Or.inl (by rw [hslot])

/-- A call on record was there before, or is just beginning. -/
theorem call_back (hx : exec cfg m i f ch p = some (m', p')) {r : Nat} {w : WaitCall}
    (hr : m'.hist.call r = some w) : m.hist.call r = some w ∨
      p' = .waitStore w ∧ w.fiber = f ∧ r = m.hist.nextCall ∧ m'.hist.added = m.hist.added := by
  cases exec_call hx with
  | begin v _ _ hfiber hp' hpart =>
      simp only [callPart, Prod.mk.injEq] at hpart
      rw [hpart.2.1, Table.get_set] at hr
      split at hr
      · rename_i hnext
        cases hr
        exact Or.inr ⟨hp', hfiber, hnext, hpart.2.2.1⟩
      · exact Or.inl hr
  | _ =>
      rename_i hpart
      simp only [callPart, Prod.mk.injEq] at hpart
      rw [hpart.2.1] at hr
      exact Or.inl hr

namespace CoverInv

theorem exec (h : CoverInv c s) (hs : SlotInv c s) (hall : ∀ d, SlotInv d s) (hc : CallInv cfg s)
    (hrange : SlotRange s) (hdrop : ¬ Drops s.mem ch c (s.pc f))
    (hcount : ∀ k, s.pc f ≠ .resetCount c k) (hreset : ∀ j k, s.pc f ≠ .resetSlot c j k)
    (hx : exec cfg s.mem i f ch (s.pc f) = some (m', p')) : CoverInv c ⟨m', s.pc.set f p'⟩ := by
  -- a flag that was down stays down unless its slot is freed
  have hflag : ∀ j, (s.mem.counters c).freeWaitingSlots j = false →
      (∀ reg found pushed, stance (s.pc f) ≠ some ((c, j), .hold reg found pushed)) →
      (m'.counters c).freeWaitingSlots j = false := by
    intro j hdown hnot
    cases exec_flags hx c j with
    | same heq => exact heq.trans hdown
    | taken hdown' => exact hdown'
    | freed hfrees =>
        obtain ⟨reg, found, pushed, hold⟩ := hold_of_frees hfrees (hreset j)
        exact absurd hold (hnot reg found pushed)
  have hnotHold : ∀ j, (s.mem.slot c j).inUse = false →
      ∀ reg found pushed, stance (s.pc f) ≠ some ((c, j), .hold reg found pushed) := by
    intro j hfree reg found pushed hold
    have hused := (hs.fits f j _ hold).claimed (Or.inr rfl)
    rw [hfree] at hused
    cases hused
  constructor
  · intro j hj
    replace hj : (m'.slot c j).inUse = false := hj
    rcases unused_back hs hx hj with hsame | ⟨w, hp, hcounter, -⟩
    · rw [hsame] at hj
      exact hflag j (h.taken j hj) (hnotHold j hj)
    · subst hcounter
      have hf : stance (s.pc f) = some ((w.counter, j), .fill w .publish) := by
        rw [hp]
        rfl
      refine hflag j (h.filling f j w .publish hf) fun reg found pushed hold => ?_
      rw [hf] at hold
      cases hold
  · intro a j w pc ha
    replace ha : stance ((s.pc.set f p') a) = some ((c, j), .fill w pc) := ha
    show (m'.counters c).freeWaitingSlots j = false
    rw [Table.get_set] at ha
    split at ha
    · cases exec_stance hx with
      | stay _ _ hsame =>
          rw [hsame] at ha
          refine hflag j (h.filling f j w pc ha) fun reg found pushed hold => ?_
          rw [ha] at hold
          cases hold
      | take v k hp hp' _ _ _ =>
          rw [hp'] at ha
          cases ha
          rw [hp] at hx
          obtain ⟨b, r, hmove, rfl, hr⟩ := exec_add hx
          cases hmove with
          | acquire _ =>
              simp only [addMem, Table.get_set_self, AtomicCounter.free_setFree, if_pos]
          | occupied _ _ =>
              rw [hp'] at hr
              cases hr
          | full _ _ =>
              rw [hp'] at hr
              cases hr
      | write v k q q' g hf hp' _ _ _ _ =>
          rw [hp'] at ha
          cases ha
          refine hflag j (h.filling f j w q hf) fun reg found pushed hold => ?_
          rw [hf] at hold
          cases hold
      | leave _ _ _ _ _ _ hnone =>
          rw [hnone] at ha
          cases ha
      | freed v k _ hp' _ _ =>
          rw [hp'] at ha
          cases ha
      | publish v k _ hp' _ _ =>
          rw [hp'] at ha
          cases ha
      | enter d k _ hp' _ _ _ =>
          rw [hp'] at ha
          cases ha
      | find d k _ hp' _ _ =>
          rw [hp'] at ha
          cases ha
      | claim d k r found _ hp' _ _ _ =>
          rw [hp'] at ha
          cases ha
      | copy d k r found _ hp' _ _ =>
          rw [hp'] at ha
          cases ha
      | push d k r found _ hp' _ _ =>
          rw [hp'] at ha
          cases ha
      | drop x k v q _ _ hp' _ _ =>
          rw [hp'] at ha
          cases ha
    · rename_i haf
      refine hflag j (h.filling a j w pc ha) fun reg found pushed hold => ?_
      exact haf (hs.filler a f j _ _ ha rfl hold).symm
  · intro j hj
    rcases unused_back hs hx hj with hsame | ⟨w, hp, -, -⟩
    · rw [show (Mem.slot m' c j) = s.mem.slot c j from hsame] at hj
      exact h.bound j hj
    · exact hrange f w j .publish hp
  · intro j hj htarget
    replace hj : (m'.slot c j).inUse = false := hj
    replace htarget : (m'.slot c j).counterTarget = (m'.counters c).count := htarget
    have hset : ∀ a, (s.pc.set f p') a = if a = f then p' else s.pc a := fun a => Table.get_set _ _ _ _
    show ∃ a, covers c j (m'.counters c).count ((s.pc.set f p') a)
    rcases exec_count hx c with hsame | ⟨x, hp', hcounter, hvalue⟩ | ⟨k, hp⟩
    · rw [hsame] at htarget ⊢
      rcases unused_back hs hx hj with hslot | ⟨w, -, hcounter, hp'⟩
      · have hj₀ := hj
        rw [hslot] at hj₀ htarget
        obtain ⟨a, ha⟩ := h.covered j hj₀ htarget
        by_cases haf : a = f
        · subst haf
          rcases covers_step hx ha (h.bound j hj₀) hj₀ (h.taken j hj₀) htarget with hgo | hused
          · exact ⟨a, by rw [hset, if_pos rfl]; exact hgo⟩
          · rw [hj] at hused
            cases hused
        · exact ⟨a, by rw [hset, if_neg haf]; exact ha⟩
      · refine ⟨f, ?_⟩
        rw [hset, if_pos rfl, hp']
        exact ⟨hcounter, rfl⟩
    · refine ⟨f, ?_⟩
      rw [hset, if_pos rfl, hp']
      exact ⟨⟨hcounter, hvalue⟩, Nat.zero_le j⟩
    · exact absurd hp (hcount k)
  · intro w hw hcounter hsigned hpushes hadded
    replace hw : m'.hist.call w.call = some w := hw
    replace hpushes : m'.hist.pushes w.call = 0 := hpushes
    replace hadded : m'.hist.added w.call ≠ some true := hadded
    rcases call_back hx hw with hold | ⟨hp', hfiber, hnext, hsame⟩
    · rcases signed_back hc hx hold hsigned with hbefore | ⟨j, -, hp'⟩
      · refine heldAt_step hs hdrop hx (h.located w hold hcounter hbefore ?_ ?_) hpushes hadded
        · rcases pushes_step hall hx with heq | ⟨r, -, hcount', -⟩
          · rw [← heq]
            exact hpushes
          · rw [hcount'] at hpushes
            by_cases hwr : w.call = r
            · rw [hwr, count_self] at hpushes
              cases hpushes
            · rwa [count_ne _ hwr] at hpushes
        · exact fun htrue => hadded (added_keep hc hx htrue)
      · refine Or.inl ⟨f, j, .fill w .writeFiber, ?_, rfl⟩
        show stance ((s.pc.set f p') f) = _
        rw [Table.get_set_self, hp', ← hcounter]
        rfl
    · -- a call that is just beginning has no slot
      rcases hsigned with ⟨j, pc, -, hp⟩ | hsome
      · replace hp : (s.pc.set f p') w.fiber = .add w j pc := hp
        rw [hfiber, Table.get_set_self, hp'] at hp
        cases hp
      · refine absurd ?_ hsome
        show m'.hist.added w.call = none
        rw [hsame]
        exact (hc.fresh _ (by omega)).1

end CoverInv

/-! ## Counters in use -/

/-- No call of `wait` has been made on the counter. -/
def Untouched (c : Nat) (s : State) : Prop :=
  ∀ r w, s.mem.hist.call r = some w → w.counter ≠ c

/-- A live handle carries the counter. -/
def Owned (c : Nat) (s : State) : Prop := ∃ h x, s.mem.handles h = some x ∧ x.counterIndex = c

/-- A handle stays until it is released. -/
theorem handle_stays (hx : exec cfg m i f ch p = some (m', p')) {h : Nat} {x : HandleContent}
    (hsome : m.handles h = some x) (hkept : ∀ k, p ≠ .releaseHandle h x.counterIndex k) :
    m'.handles h = some x := by
  cases p with
  | acquireHandle d k =>
      simp only [exec] at hx
      split at hx
      · rename_i h'
        split at hx
        · cases hx
        · rename_i hnone
          have hne : h ≠ h' := by
            rintro rfl
            rw [hnone] at hsome
            cases hsome
          split at hx <;> cases hx <;> exact (Table.get_set_ne _ _ hne).trans hsome
      · cases hx
  | releaseHandle h' d k =>
      simp only [exec] at hx
      split at hx
      · cases hx
      · rename_i y hy
        split at hx
        · rename_i hd
          cases hx
          have hne : h ≠ h' := by
            rintro rfl
            rw [hy] at hsome
            cases hsome
            exact hkept k (by rw [hd])
          exact (Table.get_set_ne _ _ hne).trans hsome
        · cases hx
  | increment inc =>
      simp only [exec, incrementStep] at hx
      split at hx <;> cases hx <;> exact hsome
  | _ =>
      simp only [exec, userStep, beginWait, afterWait, submitNext, afterRelease, cleanStep,
        pinStep, submitTasks, enqueueNext] at hx
      (repeat' split at hx) <;> cases hx <;> exact hsome

/-- A call of `wait` is made through a live handle. -/
theorem begin_owned {w : WaitCall} (hx : exec cfg m i f ch p = some (m', .waitStore w)) :
    ∃ h x, m.handles h = some x ∧ x.counterIndex = w.counter ∧ x.life = w.life ∧ p = .body := by
  cases p with
  | body =>
      simp only [exec] at hx
      split at hx
      · rename_i u
        cases u <;> simp only [userStep, beginWait, submitTasks] at hx <;>
          (repeat' split at hx) <;> cases hx
        all_goals exact ⟨_, _, by assumption, rfl, rfl, rfl⟩
      · cases hx
  | add v j pc =>
      obtain ⟨a, r, -, -, hr⟩ := exec_add hx
      rcases r with _ | (_ | _) | _ <;> cases hr
  | scan x j pc =>
      obtain ⟨a, r, -, -, hr⟩ := exec_scan hx
      cases r with
      | skip =>
          simp only [scanNext, nextSlot] at hr
          split at hr
          · cases hr
          · cases hk : x.k <;> rw [hk] at hr <;> cases hr
      | _ => cases hr
  | clean k =>
      simp only [exec, cleanStep] at hx
      rcases k with _ | _ | (_ | _) <;> split at hx <;> cases hx
  | idleEnq k v pc =>
      simp only [exec] at hx
      rcases k with _ | _ | (_ | _) <;> split at hx <;> cases hx
  | resEnq k v pc =>
      simp only [exec] at hx
      cases k <;> split at hx <;> cases hx
  | getUnlock got => cases got <;> cases hx
  | loop =>
      simp only [exec] at hx
      split at hx <;> cases hx
  | entry =>
      simp only [exec] at hx
      split at hx <;> cases hx
  | resetSlot d j k =>
      simp only [exec] at hx
      split at hx <;> cases hx
  | _ =>
      simp only [exec, afterWait, incrementStep, submitNext, afterRelease, pinStep,
        enqueueNext] at hx
      (repeat' split at hx) <;> cases hx

/-- The counter has never been waited on, or a handle still carries it. -/
theorem inUse_step (h : Untouched c s ∨ Owned c s)
    (hkept : ∀ h k, s.pc f ≠ .releaseHandle h c k)
    (hx : exec cfg s.mem i f ch (s.pc f) = some (m', p')) :
    Untouched c ⟨m', s.pc.set f p'⟩ ∨ Owned c ⟨m', s.pc.set f p'⟩ := by
  have hstays : Owned c s → Owned c ⟨m', s.pc.set f p'⟩ := by
    rintro ⟨h', x, hsome, rfl⟩
    exact ⟨h', x, handle_stays hx hsome (hkept h'), rfl⟩
  rcases h with huntouched | howned
  · by_cases hbegin : ∃ w, p' = .waitStore w ∧ w.counter = c
    · obtain ⟨w, rfl, rfl⟩ := hbegin
      obtain ⟨h', x, hsome, hcounter, -⟩ := begin_owned hx
      exact Or.inr (hstays ⟨h', x, hsome, hcounter⟩)
    · refine Or.inl fun r w hr hcounter => ?_
      rcases call_back hx hr with hold | ⟨hp', -⟩
      · exact huntouched r w hold hcounter
      · exact hbegin ⟨w, hp', hcounter⟩
  · exact Or.inr (hstays howned)

/-- A counter that a handle carries is not being prepared for another. -/
theorem Owned.not_hand (h : Owned c s) (hc : CounterInv cfg s) {a : Nat} :
    counterAt s (.hand a) ≠ some c := by
  obtain ⟨h', x, hsome, rfl⟩ := h
  intro hhand
  have hhandle : counterAt s (.handle h') = some x.counterIndex := by
    simp only [counterAt, hsome, Option.map_some]
  cases hc.linear _ _ _ hhand hhandle

theorem CoverInv.of_untouched (h : Untouched c s) (hs : SlotInv c s) (hc : CallInv cfg s) :
    CoverInv c s := by
  have hunused : ∀ j, (s.mem.slot c j).inUse ≠ false := by
    intro j hj
    obtain ⟨w, hw⟩ := hs.unused j hj
    exact h _ w hw.call hw.counter
  constructor
  · intro j hj
    exact absurd hj (hunused j)
  · intro a j w pc ha
    obtain ⟨q, hq⟩ : ∃ q, s.pc a = q := ⟨_, rfl⟩
    have hin : (callPhase (s.pc a)).call = some w ∧ w.counter = c := by
      rw [hq] at ha ⊢
      cases q with
      | add v k q => cases q <;> cases ha <;> exact ⟨rfl, rfl⟩
      | scan x k q => cases q <;> cases ha
      | pin x k reg t q => cases q <;> cases ha
      | resEnq k v q => cases k <;> cases ha
      | _ => cases ha
    exact absurd hin.2 (h _ w (hc.inside a w hin.1).2.1)
  · intro j hj
    exact absurd hj (hunused j)
  · intro j hj
    exact absurd hj (hunused j)
  · intro w hw hcounter
    exact absurd hcounter (h _ w hw)

/-! ## Enqueues of scanners -/

/-- A registration is put into the resumable queue only while its fiber is not there. -/
theorem WaitInv.not_queued (h : WaitInv cfg s) {k : PushK} {v : Wake} {pc : EnqueuePC}
    (hpc : s.pc f = .resEnq k v pc) (hclaimed : pc.claimed = false) {pos : Nat} {u : Wake}
    (hu : s.mem.resumableFibers.entry pos = some u) : u.fiber ≠ v.fiber := by
  intro hfiber
  have hhand : regAt s (.hand f) = some v.reg := by
    show regHand _ (s.pc f) = _
    simp only [hpc, regHand, hclaimed, Bool.false_eq_true, if_false]
  have hentry : regAt s (.resumable pos) = some u.reg := by
    simp only [regAt, hu, Option.map_some]
  have hmem : u ∈ s.mem.resumableFibers.log := by
    rw [Mpmc.entry] at hu
    split at hu
    · exact List.mem_of_getElem? hu
    · cases hu
  obtain ⟨w, hw, hwaits⟩ := h.regs.waits _ _ hhand
  obtain ⟨w', hw', hwaits'⟩ := h.regs.waits _ _ hentry
  obtain ⟨x, hx, hxfiber⟩ := h.wakes.held f v (by rw [hpc]; rfl)
  obtain ⟨x', hx', hxfiber'⟩ := h.wakes.resumable u hmem
  obtain rfl := Option.some.inj (hw.symm.trans hx)
  obtain rfl := Option.some.inj (hw'.symm.trans hx')
  -- the fiber is in one call only
  have hinside := hwaits.inside
  rw [hxfiber, ← hfiber, ← hxfiber', hwaits'.inside] at hinside
  obtain rfl := Option.some.inj hinside
  have hreg : v.reg = u.reg := (h.calls.number _ _ hw).1.symm.trans (h.calls.number _ _ hw').1
  rw [hreg] at hhand
  cases h.regs.linear _ _ _ hhand hentry

/-- No dequeue one lap behind holds the cell that a scanner of counter `c` enqueues to. -/
def ScanSpaced (c : Nat) (s : State) (l : Label) : Prop :=
  ∀ x j v pos, s.pc (s.mem.running l.thread) = .resEnq (.scan x j) v (.sequence pos) →
    x.counter = c → ∀ a p, (resumableCaller (s.pc a)).claimed = some (.inr p) →
      p + s.mem.resumableFibers.size ≠ pos

theorem ScanSpaced.not_drops (hg : ScanSpaced c s l) (h : WaitInv cfg s) (hcap : CapacityInv cfg s) :
    ¬ Drops s.mem l.choice c (s.pc (s.mem.running l.thread)) := by
  rintro ⟨x, j, v, pc, hpc, hcounter, hfail⟩
  refine resumable_succeeds hcap hpc (fun pos hpos => ?_) (fun hclaimed pos u hu => ?_) hfail
  · exact hg x j v pos (by rw [hpc, hpos]) hcounter
  · exact h.not_queued hpc hclaimed hu

end Steps

/-! ## Runs -/

/-- A call of `counterIncrement` or `counterAddWaitingFiber` on counter `c` is in progress. -/
def inProgress (c : Nat) : PC → Bool
  | .add w _ _ => w.counter = c
  | .increment inc => inc.counter = c
  | .scan x _ _ => x.counter = c
  | .pin x _ _ _ _ => x.counter = c
  | .resEnq (.scan x _) _ _ => x.counter = c
  | _ => false

theorem inProgress_of_stance {c j : Nat} {q : Stance} {p : PC} (h : stance p = some ((c, j), q)) :
    inProgress c p = true := by
  cases p with
  | add w k pc => cases pc <;> cases h <;> exact decide_eq_true rfl
  | scan x k pc => cases pc <;> cases h <;> exact decide_eq_true rfl
  | pin x k reg t pc => cases pc <;> cases h <;> exact decide_eq_true rfl
  | resEnq k v pc =>
      cases k <;> cases h
      exact decide_eq_true rfl
  | _ => cases h

theorem inProgress_of_covers {c j : Nat} {v : Int} {p : PC} (h : covers c j v p) :
    inProgress c p = true := by
  cases p with
  | add w k pc =>
      refine decide_eq_true ?_
      cases pc with
      | load => exact h.1
      | recheck u => exact h.1.1
      | compare u => exact h.1.1
      | claim => exact h.1
      | _ => exact absurd h id
  | scan x k pc =>
      refine decide_eq_true ?_
      cases pc <;> exact h.1.1
  | pin x k reg t pc => exact decide_eq_true h.1.1
  | resEnq k v pc =>
      cases k with
      | getNextTask => exact absurd h id
      | scan x j => exact decide_eq_true h.1.1
  | _ => exact absurd h id

/-- Between the calls on the counter nobody waits for the value it has. -/
def NoneMissed (c : Nat) (s : State) : Prop :=
  (∀ a, inProgress c (s.pc a) = false) →
    ∀ r w, s.mem.hist.call r = some w → w.counter = c → s.mem.hist.added r = some false →
      s.mem.hist.pushes r = 0 → w.target ≠ (s.mem.counters c).count

theorem CoverInv.noneMissed {cfg : Config} {c : Nat} {s : State} (h : CoverInv c s)
    (hs : SlotInv c s) (hc : CallInv cfg s) : NoneMissed c s := by
  intro hquiet r w hw hcounter hadded hpushes htarget
  obtain rfl := (hc.number r w hw).1
  have hsigned : Signed s w := Or.inr (by rw [hadded]; simp)
  rcases h.located w hw hcounter hsigned hpushes (by rw [hadded]; simp) with
    ⟨a, j, q, ha, -⟩ | ⟨j, hj⟩
  · have hin := inProgress_of_stance ha
    rw [hquiet a] at hin
    cases hin
  · -- the slot it lies in is unclaimed and on target
    have hfree : (s.mem.slot c j).inUse = false := by
      by_contra hused
      rw [WaitingFiber.token, if_pos (by simpa using hused)] at hj
      cases hj
    rw [WaitingFiber.token, hfree] at hj
    have hreg : (s.mem.slot c j).reg = w.call := Option.some.inj hj
    obtain ⟨v, hv⟩ := hs.unused j hfree
    have hcall := hv.call
    rw [hreg, hw] at hcall
    obtain rfl := Option.some.inj hcall
    obtain ⟨a, ha⟩ := h.covered j hfree (hv.target.trans htarget)
    have hin := inProgress_of_covers ha
    rw [hquiet a] at hin
    cases hin

/-- What holds of a counter that is not released once it is in use. -/
structure MissInv (cfg : Config) (c : Nat) (s : State) : Prop where
  wait : WaitInv cfg s
  capacity : CapacityInv cfg s
  range : SlotRange s
  inUse : Untouched c s ∨ Owned c s
  cover : CoverInv c s

namespace MissInv

variable {cfg : Config} {s s' : State} {l : Label} {c : Nat}

theorem step (h : MissInv cfg c s) (hvacant : ∀ d, Vacant d s l) (hspaced : ScanSpaced c s l)
    (hkept : ∀ h k, s.pc (s.mem.running l.thread) ≠ .releaseHandle h c k)
    (hs : step cfg s l = some s') : MissInv cfg c s' := by
  have hwait := h.wait.step hvacant hs
  have honce : ReturnedOnce s l := fun k v pc hpc hclaimed pos u hu =>
    h.wait.not_queued hpc hclaimed hu
  have hcapacity := h.capacity.step honce hs
  obtain ⟨-, -, m', p', hx, rfl⟩ := step_eq_some.1 hs
  have hinUse := inUse_step h.inUse hkept hx
  refine ⟨hwait, hcapacity, slotRange_exec h.range hx, hinUse, ?_⟩
  by_cases hreset : counterHand s.mem.freeCounters (s.pc (s.mem.running l.thread)) = some c
  · -- the counter is being prepared for its first handle
    rcases h.inUse with huntouched | howned
    · refine .of_untouched (fun r w hr hcounter => ?_) (hwait.slots c) hwait.calls
      rcases call_back hx hr with hold | ⟨hp', -⟩
      · exact huntouched r w hold hcounter
      · subst hp'
        obtain ⟨-, -, -, -, -, hbody⟩ := begin_owned hx
        rw [hbody] at hreset
        cases hreset
    · exact absurd hreset (howned.not_hand h.capacity.counters)
  · refine h.cover.exec (h.wait.slots c) h.wait.slots h.wait.calls h.range
      (hspaced.not_drops h.wait h.capacity) (fun k hp => ?_) (fun j k hp => ?_) hx
    · exact hreset (by rw [hp]; rfl)
    · exact hreset (by rw [hp]; rfl)

theorem start (hcfg : cfg.Ok) : MissInv cfg c (start cfg) := by
  have huntouched : Untouched c (Scheduler.start cfg) := by
    intro r w hr
    cases hr
  have hwait : WaitInv cfg (Scheduler.start cfg) := .start hcfg
  refine ⟨hwait, .start hcfg, fun a w j pc ha => ?_, Or.inl huntouched,
    .of_untouched huntouched (hwait.slots c) hwait.calls⟩
  rw [start_pc] at ha
  split at ha
  · cases ha
  · split at ha <;> cases ha

end MissInv

/-- While every waiter that takes a slot finds it resolved and left by all others, and no
enqueue of a scanner meets a stalled dequeue, no wake-up of an unreleased counter is lost. -/
theorem noneMissed_of_run {cfg : Config} (hcfg : cfg.Ok) {c : Nat} {σ : Nat → State}
    {ℓ : Nat → Label} {n : Nat} (h : Run (step cfg) (start cfg) σ ℓ n)
    (hkept : ∀ k, k < n → ∀ h r, (σ k).pc ((σ k).mem.running (ℓ k).thread) ≠ .releaseHandle h c r)
    (hvacant : ∀ k, k < n → ∀ d, Vacant d (σ k) (ℓ k))
    (hspaced : ∀ k, k < n → ScanSpaced c (σ k) (ℓ k)) : ∀ k, k ≤ n → NoneMissed c (σ k) := by
  have hinv : ∀ k, k ≤ n → MissInv cfg c (σ k) := by
    refine h.guarded (I := MissInv cfg c)
      (G := fun s l => (∀ d, Vacant d s l) ∧ ScanSpaced c s l ∧
        ∀ h r, s.pc (s.mem.running l.thread) ≠ .releaseHandle h c r) (.start hcfg)
      (fun s l s' hI hG hs => hI.step hG.1 hG.2.1 hG.2.2 hs)
      (fun k hk => ⟨hvacant k hk, hspaced k hk, hkept k hk⟩)
  intro k hk
  exact (hinv k hk).cover.noneMissed ((hinv k hk).wait.slots c) (hinv k hk).wait.calls

/-! ## A wake-up that is lost -/

theorem ScanSpaced.of_spaced {s : State} {l : Label} (h : spaced s l = true) (c : Nat) :
    ScanSpaced c s l :=
  fun x j v pos hpc _ => (Spaced.of_spaced h).resumable (.scan x j) v pos hpc

theorem not_release_of_noRelease {s : State} {l : Label} (h : noRelease s l = true) (c h' : Nat)
    (k : ReleaseK) : s.pc (s.mem.running l.thread) ≠ .releaseHandle h' c k := by
  intro hp
  rw [noRelease, hp] at h
  cases h

/-- Thread `0` waits until thread `1` has added to the counter. -/
def addLabels : List Label :=
  goes 0 7 ++ calls 0 .acquire 38 ++ [⟨0, .handle 0⟩] ++ calls 0 .acquire 38 ++ [⟨0, .handle 1⟩] ++
    calls 0 (.submitOn 1 1) 38 ++ goes 1 19 ++ calls 0 (.waitOn 0 false 1) 17 ++
    calls 1 (.add 0 1) 44

theorem noneMissed_wake : NoneMissed 0
    (trace (step pairConfig) (start pairConfig) addLabels 207) := by
  have hrun : follows (step pairConfig) (fun s l => vacant s l && (spaced s l && noRelease s l))
      (start pairConfig) addLabels = true := by decide +kernel
  have hok := fun k hk => Bool.and_eq_true_iff.1 (trace_ok ⟨0, .go⟩ hrun k hk)
  exact noneMissed_of_run pairConfig_ok (Run.of_follows ⟨0, .go⟩ hrun)
    (fun k hk h r => not_release_of_noRelease (Bool.and_eq_true_iff.1 (hok k hk).2).2 0 h r)
    (fun k hk => .of_vacant (hok k hk).1)
    (fun k hk => .of_spaced (Bool.and_eq_true_iff.1 (hok k hk).2).1 0) 207 (by decide +kernel)

/-- The waiter whose slot the other one has claimed waits for `0`, and the count is
brought there. -/
def missLabels : List Label := refillLabels ++ calls 0 (.add 0 (-1)) 33

def missState : State := trace (step pairConfig) (start pairConfig) missLabels 255

theorem not_noneMissed :
    ¬ ∀ (cfg : Config), cfg.Ok → ∀ (c : Nat) (σ : Nat → State) (ℓ : Nat → Label) (n : Nat),
      Run (step cfg) (start cfg) σ ℓ n →
        (∀ k, k < n → ∀ h r, (σ k).pc ((σ k).mem.running (ℓ k).thread) ≠ .releaseHandle h c r) →
          ∀ k, k ≤ n → NoneMissed c (σ k) := by
  intro h
  have hrun : follows (step pairConfig) noRelease (start pairConfig) missLabels = true := by
    decide +kernel
  have hquiet : somePC (inProgress 0) missState = false := by decide +kernel
  have hcall : (missState.mem.hist.call 1).map (fun w => (w.counter, w.target)) = some (0, 0) := by
    decide +kernel
  have hlast : missState.mem.hist.added 1 = some false ∧ missState.mem.hist.pushes 1 = 0 ∧
      (missState.mem.counters 0).count = 0 := by decide +kernel
  obtain ⟨hadded, hpushes, hcount⟩ := hlast
  obtain ⟨w, hw, hpair⟩ := Option.map_eq_some_iff.1 hcall
  have hmiss := h pairConfig pairConfig_ok 0 _ _ _ (Run.of_follows ⟨0, .go⟩ hrun)
    (fun k hk h r => not_release_of_noRelease (trace_ok ⟨0, .go⟩ hrun k hk) 0 h r) 255
    (by decide +kernel)
  have htarget := hmiss (not_of_somePC_false hquiet) 1 w hw (Prod.mk.inj hpair).1 hadded hpushes
  exact htarget ((Prod.mk.inj hpair).2.trans hcount.symm)

end TaskDispatcher.Scheduler
