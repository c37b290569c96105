import TaskDispatcher.Scheduler.EarlyWakes

/-!
# Counters handed out again

The acquisitions of the counters are numbered, and a scan goes by the number of the
acquisition that its addition was made through.  While a scanner finds its target in a
published slot only under the handle it goes by, it wakes no waiter of a later acquisition
and frees no slot of one.
-/

namespace TaskDispatcher.Scheduler

open TaskDispatcher.Library TaskDispatcher.Container

/-- The handle of acquisition `n` of counter `c` has not been given back. -/
def Live (m : Mem) (c n : Nat) : Prop :=
  ∃ h x, m.handles h = some x ∧ x.counterIndex = c ∧ x.life = n

/-- A scanner finds its target in a published slot only while its handle is alive. -/
def Current (s : State) (l : Label) : Prop :=
  ∀ x j, s.pc (s.mem.running l.thread) = .scan x j .target →
    (s.mem.slot x.counter j).inUse = false →
      (s.mem.slot x.counter j).counterTarget = x.value → Live s.mem x.counter x.life

/-- The counter, and the acquisition of it, that a call of `counterIncrement` goes by. -/
def begunFor : PC → Option (Nat × Nat)
  | .increment inc => some (inc.counter, inc.life)
  | p => (walk p).map fun x => (x.counter, x.life)

/-- The slot belongs to the call: its number is written there, or the waiter is about to. -/
def Registers (s : State) (c j : Nat) (w : WaitCall) : Prop :=
  s.mem.hist.call (s.mem.slot c j).reg = some w ∨
    ∃ a pc, stance (s.pc a) = some ((c, j), .fill w pc)

/-- The step resumes and frees nothing that is later than acquisition `n` of counter `c`. -/
structure Isolated (s s' : State) (c n : Nat) : Prop where
  /-- who is made resumable is in a call that was made under the acquisition, or earlier -/
  wakes : ∀ r, s'.mem.hist.pushes r ≠ s.mem.hist.pushes r →
    ∃ w, s.mem.hist.call r = some w ∧ (callPhase (s.pc w.fiber)).call = some w ∧
      w.counter = c ∧ w.life ≤ n
  frees : ∀ j w, (s.mem.counters c).freeWaitingSlots j = false →
    (s'.mem.counters c).freeWaitingSlots j = true → Registers s c j w → w.life ≤ n

/-- What a scanner goes by: it has claimed a slot, or may claim the one it has compared. -/
def Goes (s : State) (a : Nat) (c j r : Nat) : Prop :=
  goesBy (s.pc a) = some ((c, j), r) ∧
    ((∃ found pushed, stance (s.pc a) = some ((c, j), .hold r found pushed)) ∨
      (s.mem.slot c j).inUse = false)

structure LifeInv (s : State) : Prop where
  handles : ∀ h x, s.mem.handles h = some x → x.life < s.mem.hist.nextLife
  calls : ∀ r w, s.mem.hist.call r = some w → w.life < s.mem.hist.nextLife
  /-- the live handle of a counter is its latest acquisition -/
  latest : ∀ h x, s.mem.handles h = some x → ∀ r w, s.mem.hist.call r = some w →
    w.counter = x.counterIndex → w.life ≤ x.life
  scans : ∀ a x c j r, walk (s.pc a) = some x → Goes s a c j r →
    ∃ w, s.mem.hist.call r = some w ∧ w.counter = x.counter ∧ w.life ≤ x.life

section Steps

variable {cfg : Config} {s s' : State} {m m' : Mem} {i f c : Nat} {ch : Choice} {p p' : PC} {l : Label}

/-- A step leaves the handles, gives one back, or acquires the next. -/
theorem exec_handles (hx : exec cfg m i f ch p = some (m', p')) :
    (m'.hist.nextLife = m.hist.nextLife ∧
      ∀ h x, m'.handles h = some x → m.handles h = some x) ∨
    ∃ d k h, p = .acquireHandle d k ∧ m'.hist.nextLife = m.hist.nextLife + 1 ∧
      m'.handles = m.handles.set h (some ⟨d, m.hist.nextLife, k.sync⟩) := by
  cases p with
  | acquireHandle d k =>
      simp only [exec] at hx
      split at hx
      · split at hx
        · cases hx
        · split at hx <;> cases hx <;> exact Or.inr ⟨d, _, _, rfl, rfl, rfl⟩
      · cases hx
  | releaseHandle h d k =>
      left
      simp only [exec] at hx
      split at hx
      · cases hx
      · split at hx
        · cases hx
          refine ⟨rfl, fun h' x hx' => ?_⟩
          replace hx' : (m.handles.set h none) h' = some x := hx'
          rw [Table.get_set] at hx'
          split at hx'
          · cases hx'
          · exact hx'
        · cases hx
  | increment inc =>
      left
      simp only [exec, incrementStep] at hx
      split at hx <;> cases hx
      · exact ⟨rfl, fun _ _ hx' => hx'⟩
      · exact ⟨rfl, fun _ _ hx' => hx'⟩
      · exact ⟨by rw [Hist.announce_eq], fun _ _ hx' => hx'⟩
  | _ =>
      left
      simp only [exec, userStep, beginWait, afterWait, submitNext, afterRelease, cleanStep,
        pinStep, submitTasks, enqueueNext] at hx
      (repeat' split at hx) <;> cases hx <;> exact ⟨rfl, fun _ _ hx' => hx'⟩

/-- Lives only grow, and calls are made under live handles. -/
theorem LifeInv.build (h : LifeInv s) (hc : CounterInv cfg s)
    (hx : exec cfg s.mem i f ch (s.pc f) = some (m', p'))
    (hscans : ∀ a x d j r, walk ((s.pc.set f p') a) = some x → Goes ⟨m', s.pc.set f p'⟩ a d j r →
      ∃ w, m'.hist.call r = some w ∧ w.counter = x.counter ∧ w.life ≤ x.life) :
    LifeInv ⟨m', s.pc.set f p'⟩ := by
  -- a call that is just beginning has a live handle
  have hcall : ∀ r w, m'.hist.call r = some w → s.mem.hist.call r = some w ∨
      s.pc f = .body ∧ ∃ k y, s.mem.handles k = some y ∧ y.counterIndex = w.counter ∧
        y.life = w.life := by
    intro r w hr
    rcases call_back hx hr with hold | ⟨rfl, -⟩
    · exact Or.inl hold
    · obtain ⟨k, y, hy, hcounter, hlife, hbody⟩ := begin_owned hx
      exact Or.inr ⟨hbody, k, y, hy, hcounter, hlife⟩
  have hbound : ∀ r w, m'.hist.call r = some w → w.life < s.mem.hist.nextLife := by
    intro r w hr
    rcases hcall r w hr with hold | ⟨-, k, y, hy, -, hlife⟩
    · exact h.calls r w hold
    · rw [← hlife]
      exact h.handles k y hy
  rcases exec_handles hx with ⟨hnext, hback⟩ | ⟨d, k, h', hp, hnext, hhandles⟩
  · refine ⟨fun k x hk => ?_, fun r w hr => ?_, fun k x hk r w hr hcounter => ?_, hscans⟩
    · show x.life < m'.hist.nextLife
      rw [hnext]
      exact h.handles k x (hback k x hk)
    · show w.life < m'.hist.nextLife
      rw [hnext]
      exact hbound r w hr
    · have hk := hback k x hk
      rcases hcall r w hr with hold | ⟨-, j, y, hy, hyc, hlife⟩
      · exact h.latest k x hk r w hold hcounter
      · obtain rfl := hc.handle_unique hk hy (hcounter.symm.trans hyc.symm)
        rw [hk] at hy
        obtain rfl := Option.some.inj hy
        exact Nat.le_of_eq hlife.symm
  · have hcases : ∀ k x, m'.handles k = some x →
        x.life = s.mem.hist.nextLife ∨ s.mem.handles k = some x := by
      intro k x hk
      rw [hhandles, Table.get_set] at hk
      split at hk
      · cases hk
        exact Or.inl rfl
      · exact Or.inr hk
    refine ⟨fun k x hk => ?_, fun r w hr => ?_, fun k x hk r w hr hcounter => ?_, hscans⟩
    · show x.life < m'.hist.nextLife
      rw [hnext]
      rcases hcases k x hk with hnew | hold
      · omega
      · exact Nat.lt_succ_of_lt (h.handles k x hold)
    · show w.life < m'.hist.nextLife
      rw [hnext]
      exact Nat.lt_succ_of_lt (hbound r w hr)
    · rcases hcases k x hk with hnew | hold
      · rw [hnew]
        exact Nat.le_of_lt (hbound r w hr)
      · rcases hcall r w hr with hold' | ⟨hbody, -⟩
        · exact h.latest k x hold r w hold' hcounter
        · rw [hp] at hbody
          cases hbody

theorem goesBy_nextSlot (x : Scan) (j : Nat) : goesBy (nextSlot x j) = none := by
  unfold goesBy
  rw [stance_nextSlot]

/-- A scanner that goes by a registration did so before, or has just found it. -/
theorem goes_step (hs : ∀ c, SlotInv c s) (hx : exec cfg s.mem i f ch (s.pc f) = some (m', p'))
    {x : Scan} {d j r : Nat} (hwalk : walk p' = some x)
    (hgoes : Goes ⟨m', s.pc.set f p'⟩ f d j r) : walk (s.pc f) = some x ∧ (Goes s f d j r ∨
      s.pc f = .scan x j .target ∧ d = x.counter ∧ (s.mem.slot d j).inUse = false ∧
        (s.mem.slot d j).counterTarget = x.value ∧ (s.mem.slot d j).reg = r) := by
  obtain ⟨hby, hmay⟩ := hgoes
  replace hby : goesBy ((s.pc.set f p') f) = some ((d, j), r) := hby
  rw [Table.get_set_self] at hby
  rcases walk_step hx hwalk with hold | ⟨rfl, -⟩
  case inr => cases hby
  refine ⟨hold, ?_⟩
  -- he holds what he held
  have hkeep : ∀ cj u found pushed, stance (s.pc f) = some (cj, .hold u found pushed) →
      goesBy p' = some (cj, u) → Goes s f d j r := by
    intro cj u found pushed hstance hgoes
    rw [hby] at hgoes
    obtain ⟨rfl, rfl⟩ : (d, j) = cj ∧ r = u := by simpa using hgoes
    exact ⟨by rw [goesBy, hstance], Or.inl ⟨found, pushed, hstance⟩⟩
  obtain ⟨p, hp⟩ : ∃ p, s.pc f = p := ⟨_, rfl⟩
  rw [hp] at hx hold
  cases p with
  | scan y k pc =>
      obtain rfl : y = x := Option.some.inj hold
      obtain ⟨a, n, hmove, hm, rfl⟩ := exec_scan hx
      cases hmove with
      | onTarget htarget =>
          obtain ⟨⟨rfl, rfl⟩, rfl⟩ : (d = y.counter ∧ j = k) ∧ r = _ := by
            simpa [goesBy, stance, scanNext, eq_comm] using hby
          refine Or.inr ⟨hp, rfl, ?_, htarget, rfl⟩
          have hslot : m'.slot = s.mem.slot := slot_same (by rw [hm]) fun _ => rfl
          rcases hmay with ⟨found, pushed, hstance⟩ | hfree
          · replace hstance : stance ((s.pc.set f _) f) = _ := hstance
            rw [Table.get_set_self] at hstance
            cases hstance
          · replace hfree : (m'.slot y.counter j).inUse = false := hfree
            rwa [hslot] at hfree
      | @won reg hfree =>
          obtain ⟨⟨rfl, rfl⟩, rfl⟩ : (d = y.counter ∧ j = k) ∧ r = reg := by
            simpa [goesBy, stance, scanNext, eq_comm] using hby
          exact Or.inl ⟨by rw [hp]; rfl, Or.inr hfree⟩
      | @unpinned reg _ => exact Or.inl (hkeep _ reg _ _ (by rw [hp]; rfl) rfl)
      | @pinned reg t _ => exact Or.inl (hkeep _ reg _ _ (by rw [hp]; rfl) rfl)
      | @fiber reg =>
          have hstance : stance (s.pc f) = some ((y.counter, k), .hold reg (some y.value) false) := by
            rw [hp]
            rfl
          have hreg : (s.mem.slot y.counter k).reg = reg := ((hs y.counter).fits f k _ hstance).1.2.1
          refine Or.inl (hkeep _ reg _ _ hstance ?_)
          rw [← hreg]
          rfl
      | _ =>
          simp only [scanNext, goesBy_nextSlot] at hby
          cases hby
  | pin y k reg t pc =>
      left
      cases pc with
      | lock =>
          simp only [exec, pinStep] at hx
          split at hx <;> cases hx <;> exact hkeep _ reg _ _ (by rw [hp]; rfl) rfl
      | push =>
          cases hx
          exact hkeep _ reg _ _ (by rw [hp]; rfl) rfl
      | unlock =>
          cases hx
          exact hkeep _ reg _ _ (by rw [hp]; rfl) rfl
  | resEnq q v pc =>
      left
      cases q with
      | getNextTask => cases hold
      | scan y k =>
          simp only [exec] at hx
          split at hx <;> cases hx <;> exact hkeep _ v.reg _ _ (by rw [hp]; rfl) rfl
  | _ => cases hold

/-- What another agent goes by, he went by before. -/
theorem goes_other (hs : ∀ c, SlotInv c s) (hx : exec cfg s.mem i f ch (s.pc f) = some (m', p'))
    {a d j r : Nat} (ha : a ≠ f) (hgoes : Goes ⟨m', s.pc.set f p'⟩ a d j r) : Goes s a d j r := by
  obtain ⟨hby, hmay⟩ := hgoes
  have hpc : (s.pc.set f p') a = s.pc a := Table.get_set_ne _ _ ha
  replace hby : goesBy ((s.pc.set f p') a) = some ((d, j), r) := hby
  rw [hpc] at hby
  refine ⟨hby, ?_⟩
  rcases hmay with ⟨found, pushed, hstance⟩ | hfree
  · left
    replace hstance : stance ((s.pc.set f p') a) = _ := hstance
    exact ⟨found, pushed, hpc ▸ hstance⟩
  · right
    replace hfree : ((m'.counters d).slot j).inUse = false := hfree
    cases exec_slots hx d j with
    | same _ hback => exact hback hfree
    | write w _ _ _ hsame => exact hsame ▸ hfree
    | publish w hp hcounter _ =>
        -- nobody else stands at a slot that is being filled
        obtain ⟨q, hq⟩ : ∃ q, stance (s.pc a) = some ((d, j), q) := by
          unfold goesBy at hby
          split at hby <;> cases hby <;> exact ⟨_, by assumption⟩
        have hfill : stance (s.pc f) = some ((d, j), .fill w .publish) := by
          rw [hp, ← hcounter]
          rfl
        exact absurd ((hs d).filler f a j _ _ hfill rfl hq) ha

theorem LifeInv.exec (h : LifeInv s) (hs : ∀ c, SlotInv c s) (hcalls : CallInv cfg s)
    (hc : CounterInv cfg s)
    (hcurrent : ∀ x j, s.pc f = .scan x j .target → (s.mem.slot x.counter j).inUse = false →
      (s.mem.slot x.counter j).counterTarget = x.value → Live s.mem x.counter x.life)
    (hx : exec cfg s.mem i f ch (s.pc f) = some (m', p')) : LifeInv ⟨m', s.pc.set f p'⟩ := by
  have hmono : ∀ {r w}, s.mem.hist.call r = some w → m'.hist.call r = some w :=
    hcalls.call_mono (exec_call hx)
  refine h.build hc hx fun a x d j r hwalk hgoes => ?_
  by_cases ha : a = f
  · subst ha
    rw [Table.get_set_self] at hwalk
    obtain ⟨hwalk, hbefore | ⟨hp, rfl, hfree, htarget, rfl⟩⟩ := goes_step hs hx hwalk hgoes
    · obtain ⟨w, hw, hcounter, hlife⟩ := h.scans a x d j r hwalk hbefore
      exact ⟨w, hmono hw, hcounter, hlife⟩
    · -- the slot he has found holds a call, and his handle is the latest of the counter
      have hstance : stance (s.pc a) = some ((x.counter, j), .look none none) := by
        rw [hp]
        rfl
      obtain ⟨⟨w, hw⟩, -⟩ := (hs x.counter).fits a j _ hstance
      obtain ⟨k, y, hy, hcounter, hlife⟩ := hcurrent x j hp hfree htarget
      refine ⟨w, hmono hw.call, hw.counter, ?_⟩
      rw [← hlife]
      exact h.latest k y hy _ w hw.call (hw.counter.trans hcounter.symm)
  · rw [Table.get_set_ne _ _ ha] at hwalk
    obtain ⟨w, hw, hcounter, hlife⟩ := h.scans a x d j r hwalk (goes_other hs hx ha hgoes)
    exact ⟨w, hmono hw, hcounter, hlife⟩

theorem LifeInv.start (cfg : Config) : LifeInv (start cfg) := by
  have hwalk : ∀ a, walk ((Scheduler.start cfg).pc a) = none := by
    intro a
    rw [start_pc]
    split
    · rfl
    · split <;> rfl
  refine ⟨fun h x hx => ?_, fun r w hr => ?_, fun h x hx => ?_, fun a x d j r ha => ?_⟩
  · cases hx
  · cases hr
  · cases hx
  · rw [hwalk] at ha
    cases ha

/-! ## What a scanner does -/

/-- A scanner that holds a registration has claimed its slot. -/
theorem hold_of_walk {x : Scan} {r : Nat} (hwalk : walk p = some x) (hr : stanceReg p = some r) :
    ∃ cj found, stance p = some (cj, .hold r found false) := by
  unfold stanceReg at hr
  cases hp : stance p with
  | none =>
      rw [hp] at hr
      cases hr
  | some cq =>
      obtain ⟨cj, q⟩ := cq
      rw [hp] at hr
      cases q with
      | fill w pc =>
          cases p with
          | add v j q => cases hwalk
          | scan y j q => cases q <;> cases hp
          | pin y j reg t q => cases q <;> cases hp
          | resEnq k v q => cases k <;> cases hp
          | _ => cases hp
      | look reg found => cases hr
      | hold reg found pushed =>
          cases pushed with
          | true => cases hr
          | false =>
              cases hr
              exact ⟨cj, found, rfl⟩

theorem begunFor_eq_some {n : Nat} (hb : begunFor p = some (c, n)) :
    (∃ inc, p = .increment inc) ∨ ∃ x, walk p = some x ∧ x.counter = c ∧ x.life = n := by
  unfold begunFor at hb
  split at hb
  · exact Or.inl ⟨_, rfl⟩
  · right
    rw [Option.map_eq_some_iff] at hb
    obtain ⟨x, hx, heq⟩ := hb
    cases heq
    exact ⟨x, hx, rfl, rfl⟩

theorem isolated_exec (h : LifeInv s) (hw : WaitInv cfg s)
    (hx : exec cfg s.mem i f ch (s.pc f) = some (m', p')) {n : Nat}
    (hb : begunFor (s.pc f) = some (c, n)) : Isolated s ⟨m', s.pc.set f p'⟩ c n := by
  constructor
  · intro r hpush
    rcases pushes_step hw.slots hx with hsame | ⟨u, hu, hcount, -⟩
    · exact absurd (by rw [hsame]) hpush
    have hru : r = u := by
      by_contra hne
      refine hpush ?_
      show m'.hist.pushes r = _
      rw [hcount, count_ne _ hne]
    subst hru
    rcases begunFor_eq_some hb with ⟨inc, hp⟩ | ⟨x, hwalk, rfl, rfl⟩
    · rw [hp] at hu
      cases hu
    · obtain ⟨⟨d, j⟩, found, hstance⟩ := hold_of_walk hwalk hu
      obtain ⟨w, hcall, hcounter, hlife⟩ :=
        h.scans f x d j r hwalk ⟨by rw [goesBy, hstance], Or.inl ⟨found, false, hstance⟩⟩
      obtain ⟨P, hP, -⟩ := place_of_stance hw.queues hu
      obtain ⟨v, hv, hwaits⟩ := hw.regs.waits P r hP
      obtain rfl := Option.some.inj (hcall.symm.trans hv)
      exact ⟨w, hcall, hwaits.inside, hcounter, hlife⟩
  · intro j w hbefore hafter hreg
    cases exec_flags hx c j with
    | same hsame =>
        replace hafter : (m'.counters c).freeWaitingSlots j = true := hafter
        rw [hsame, hbefore] at hafter
        cases hafter
    | taken hfalse =>
        replace hafter : (m'.counters c).freeWaitingSlots j = true := hafter
        rw [hfalse] at hafter
        cases hafter
    | freed hfrees =>
        rcases begunFor_eq_some hb with ⟨inc, hp⟩ | ⟨x, hwalk, rfl, rfl⟩
        · rw [hp] at hfrees
          cases hfrees
        obtain ⟨reg, hp⟩ : ∃ reg, s.pc f = .scan x j (.release reg) := by
          cases hp : s.pc f with
          | scan y k pc =>
              rw [hp] at hwalk hfrees
              obtain rfl := Option.some.inj hwalk
              cases pc <;> cases hfrees
              exact ⟨_, rfl⟩
          | add w k pc =>
              rw [hp] at hwalk
              cases hwalk
          | resetSlot d k q =>
              rw [hp] at hwalk
              cases hwalk
          | _ =>
              rw [hp] at hfrees
              cases hfrees
        have hstance : stance (s.pc f) = some ((x.counter, j), .hold reg (some x.value) true) := by
          rw [hp]
          rfl
        obtain ⟨v, hv, -, hlife⟩ :=
          h.scans f x x.counter j reg hwalk ⟨by rw [goesBy, hstance], Or.inl ⟨_, _, hstance⟩⟩
        rcases hreg with hslot | ⟨a, pc, hfill⟩
        · rw [((hw.slots x.counter).fits f j _ hstance).1.2.1, hv] at hslot
          obtain rfl := Option.some.inj hslot
          exact hlife
        · obtain rfl := (hw.slots x.counter).filler a f j _ _ hfill rfl hstance
          rw [hstance] at hfill
          cases hfill

end Steps

/-! ## Runs -/

/-- While waiters take only slots that everybody has left, and scanners find their targets only
under their own handles, a scanner leaves the waiters of later acquisitions alone. -/
theorem isolated_of_run {cfg : Config} (hcfg : cfg.Ok) {σ : Nat → State} {ℓ : Nat → Label} {n : Nat}
    (h : Run (step cfg) (start cfg) σ ℓ n) (hv : ∀ k, k < n → ∀ c, Vacant c (σ k) (ℓ k))
    (hcurrent : ∀ k, k < n → Current (σ k) (ℓ k)) :
    ∀ k c life, k < n → begunFor ((σ k).pc ((σ k).mem.running (ℓ k).thread)) = some (c, life) →
      Isolated (σ k) (σ (k + 1)) c life := by
  have hinv : ∀ k, k ≤ n → (WaitInv cfg (σ k) ∧ CounterInv cfg (σ k)) ∧ LifeInv (σ k) := by
    refine h.guarded (I := fun s => (WaitInv cfg s ∧ CounterInv cfg s) ∧ LifeInv s)
      (G := fun s l => (∀ c, Vacant c s l) ∧ Current s l)
      ⟨⟨.start hcfg, .start hcfg⟩, .start cfg⟩ ?_ fun k hk => ⟨hv k hk, hcurrent k hk⟩
    rintro s l s' ⟨⟨hw, hc⟩, hlife⟩ ⟨hvacant, hcur⟩ hs
    refine ⟨⟨hw.step hvacant hs, hc.step hw.queues hs⟩, ?_⟩
    obtain ⟨-, -, m', p', hx, rfl⟩ := step_eq_some.1 hs
    exact hlife.exec hw.slots hw.calls hc hcur hx
  intro k c life hk hb
  obtain ⟨⟨hw, -⟩, hlife⟩ := hinv k (Nat.le_of_lt hk)
  obtain ⟨-, -, m', p', hx, heq⟩ := step_eq_some.1 (h.next k hk)
  rw [heq]
  exact isolated_exec hlife hw hx hb

/-! ## The condition computed -/

/-- Whether a target that is found in a published slot is found under a live handle. -/
def current (s : State) (l : Label) : Bool :=
  match s.pc (s.mem.running l.thread) with
  | .scan x j .target =>
      (s.mem.slot x.counter j).inUse || (s.mem.slot x.counter j).counterTarget ≠ x.value ||
        (List.range s.mem.handles.cells.length).any fun h =>
          (s.mem.handles h).any fun y => y.counterIndex = x.counter && y.life = x.life
  | _ => true

theorem Current.of_current {s : State} {l : Label} (h : current s l = true) : Current s l := by
  intro x j hp hfree htarget
  simp only [current, hp, hfree, htarget, Bool.false_or, ne_eq, not_true_eq_false, decide_false,
    List.any_eq_true] at h
  obtain ⟨k, -, hk⟩ := h
  rw [Option.any_eq_true] at hk
  obtain ⟨y, hy, hsame⟩ := hk
  rw [Bool.and_eq_true, decide_eq_true_eq, decide_eq_true_eq] at hsame
  exact ⟨k, y, hy, hsame⟩

/-- The scan of the only task on the sync wakes the main task. -/
theorem isolated_nestedSubmit :
    Isolated (trace (step pairConfig) (start pairConfig) nestedSubmitLabels 210)
      (trace (step pairConfig) (start pairConfig) nestedSubmitLabels 211) 0 0 ∧
    (trace (step pairConfig) (start pairConfig) nestedSubmitLabels 210).mem.hist.pushes 0 = 0 ∧
    (trace (step pairConfig) (start pairConfig) nestedSubmitLabels 211).mem.hist.pushes 0 = 1 := by
  have hrun : follows (step pairConfig) (fun s l => vacant s l && current s l) (start pairConfig)
      nestedSubmitLabels = true := by decide +kernel
  have hok := fun k hk => Bool.and_eq_true_iff.1 (trace_ok ⟨0, .go⟩ hrun k hk)
  refine ⟨?_, by decide +kernel, by decide +kernel⟩
  exact isolated_of_run pairConfig_ok (Run.of_follows ⟨0, .go⟩ hrun)
    (fun k hk => .of_vacant (hok k hk).1) (fun k hk => .of_current (hok k hk).2) 210 0 0
    (by decide +kernel) (by decide +kernel)

/-! ## A scan that outlives its handle

The only task on a sync has brought the count to zero, and its scan has not begun when the
main task waits for the sync, gives the counter back, gets it again for another sync and
waits for that one. -/

def recycleLabels : List Label :=
  goes 0 7 ++ calls 0 (.submit 0 1) 38 ++ [⟨0, .handle 0⟩] ++ goes 0 38 ++ goes 1 19 ++
    calls 1 .ret 1 ++ calls 0 (.waitFor 0 true) 19 ++ calls 0 (.submit 1 1) 38 ++
    [⟨0, .handle 1⟩] ++ goes 0 38 ++ calls 0 (.submit 2 1) 38 ++ [⟨0, .handle 2⟩] ++ goes 0 38 ++
    calls 0 (.waitFor 2 true) 11 ++ goes 1 7

/-- The scan wakes the main task out of its second wait. -/
theorem not_isolated :
    ¬ ∀ (cfg : Config), cfg.Ok → ∀ (own : Nat → Nat) (σ : Nat → State) (ℓ : Nat → Label) (n : Nat),
      Run (step cfg) (start cfg) σ ℓ n → (∀ k, k < n → Disciplined own (σ k) (ℓ k)) →
        ∀ k c life, k < n →
          begunFor ((σ k).pc ((σ k).mem.running (ℓ k).thread)) = some (c, life) →
            Isolated (σ k) (σ (k + 1)) c life := by
  intro h
  have hrun : follows (step pairConfig) (disciplined fun _ => 0) (start pairConfig) recycleLabels =
      true := by decide +kernel
  have hcall : (trace (step pairConfig) (start pairConfig) recycleLabels 300).mem.hist.call 1 =
      some ⟨0, 0, some 0, 0, some 2, 1, 2⟩ := by decide +kernel
  have hisolated := h pairConfig pairConfig_ok (fun _ => 0) _ _ _ (Run.of_follows ⟨0, .go⟩ hrun)
    (fun k hk => .of_disciplined (trace_ok ⟨0, .go⟩ hrun k hk)) 300 0 0 (by decide +kernel)
    (by decide +kernel)
  obtain ⟨w, hw, -, -, hlife⟩ := hisolated.wakes 1 (by decide +kernel)
  rw [hcall] at hw
  obtain rfl := Option.some.inj hw
  exact absurd hlife (by decide)

end TaskDispatcher.Scheduler
