import TaskDispatcher.Scheduler.Registrations
import TaskDispatcher.Scheduler.Capacity

/-!
# How a registration is resolved

A registration is held by the slot it was published in or by the one agent that
fills it in or has claimed it.  While it is held it has not been pushed and the
call has not returned `true`; letting go of it does one of the two, once.
-/

namespace TaskDispatcher.Scheduler

open TaskDispatcher.Library TaskDispatcher.Container

/-- The registration can still be resolved: a slot or an agent at one has it. -/
def Held (s : State) (r : Nat) : Prop :=
  (∃ a, stanceReg (s.pc a) = some r) ∨ ∃ c j, (s.mem.slot c j).token = some r

/-- The call has taken a slot. -/
def Signed (s : State) (w : WaitCall) : Prop :=
  (∃ j pc, pc ≠ .acquire ∧ s.pc w.fiber = .add w j pc) ∨ s.mem.hist.added w.call ≠ none

structure PushInv (s : State) : Prop where
  held : ∀ r, Held s r → s.mem.hist.pushes r = 0 ∧ s.mem.hist.added r ≠ some true
  once : ∀ r, s.mem.hist.pushes r ≤ 1
  self : ∀ r, s.mem.hist.added r = some true → s.mem.hist.pushes r = 0
  signed : ∀ r, s.mem.hist.pushes r ≠ 0 → ∃ w, s.mem.hist.call r = some w ∧ Signed s w

section Steps

variable {cfg : Config} {s : State} {m m' : Mem} {i f : Nat} {ch : Choice} {p p' : PC}

/-! ## One holder -/

/-- The place of a registration that an agent at a slot has. -/
theorem place_of_stance (hq : QueueInv s) {a r : Nat} (ha : stanceReg (s.pc a) = some r) :
    ∃ P, regAt s P = some r ∧ (P = .hand a ∨
      ∃ pos, P = .resumable pos ∧ (resumableCaller (s.pc a)).claimed = some (.inl pos)) := by
  cases hp : s.pc a with
  | resEnq k v pc =>
      rw [hp] at ha
      have hv : v.reg = r := by
        cases k with
        | getNextTask => cases ha
        | scan x j => exact Option.some.inj ha
      cases hc : pc.claimed with
      | false =>
          refine ⟨.hand a, ?_, Or.inl rfl⟩
          show regHand _ (s.pc a) = _
          simp only [hp, regHand, hc, Bool.false_eq_true, if_false, hv]
      | true =>
          have hok := hq.resumable.ok a
          simp only [roles, hp, resumableCaller] at hok
          have hentry : ∀ pos, s.mem.resumableFibers.dequeuePos ≤ pos →
              s.mem.resumableFibers.log[pos]? = some v → regAt s (.resumable pos) = some r := by
            intro pos hle hlog
            show (s.mem.resumableFibers.entry pos).map Wake.reg = some r
            rw [Mpmc.entry, if_pos hle, hlog]
            exact congrArg some hv
          cases pc with
          | write pos => exact ⟨.resumable pos, hentry pos hok.1 hok.2.2.2, Or.inr ⟨pos, rfl, rfl⟩⟩
          | publish pos =>
              exact ⟨.resumable pos, hentry pos hok.1 hok.2.2.2.1, Or.inr ⟨pos, rfl, rfl⟩⟩
          | _ => cases hc
  | _ =>
      rw [hp] at ha
      refine ⟨.hand a, ?_, Or.inl rfl⟩
      show regHand _ (s.pc a) = _
      rw [hp]
      first
        | exact ha
        | cases ha

/-- No two agents at a slot have the same registration. -/
theorem stance_unique (h : RegInv cfg s) (hq : QueueInv s) {a b r : Nat}
    (ha : stanceReg (s.pc a) = some r) (hb : stanceReg (s.pc b) = some r) : a = b := by
  obtain ⟨P, hP, hPa⟩ := place_of_stance hq ha
  obtain ⟨Q, hQ, hQb⟩ := place_of_stance hq hb
  have hPQ := h.linear P Q r hP hQ
  rcases hPa with rfl | ⟨pos, rfl, hca⟩ <;> rcases hQb with rfl | ⟨pos', rfl, hcb⟩ <;> cases hPQ
  · rfl
  · exact hq.resumable.unique a b (.inl pos) hca hcb

/-- Nor has an agent the registration of a published slot. -/
theorem stance_not_slot (h : RegInv cfg s) (hq : QueueInv s) {a r c j : Nat}
    (ha : stanceReg (s.pc a) = some r) : (s.mem.slot c j).token ≠ some r := by
  intro hslot
  obtain ⟨P, hP, hPa⟩ := place_of_stance hq ha
  have hPQ := h.linear P (.slot c j) r hP hslot
  rcases hPa with rfl | ⟨pos, rfl, -⟩ <;> cases hPQ

/-- What an agent lets go of is held no longer. -/
theorem not_held_after (h : RegInv cfg s) (hq : QueueInv s) {r : Nat}
    (hf : stanceReg (s.pc f) = some r) (hp' : stanceReg p' = none)
    (hslot : m'.slot = s.mem.slot) : ¬ Held ⟨m', s.pc.set f p'⟩ r := by
  rintro (⟨a, ha⟩ | ⟨c, j, hcj⟩)
  · replace ha : stanceReg ((s.pc.set f p') a) = some r := ha
    rw [Table.get_set] at ha
    split at ha
    · rw [hp'] at ha
      cases ha
    · rename_i hne
      exact hne (stance_unique h hq ha hf)
  · replace hcj : (m'.slot c j).token = some r := hcj
    rw [hslot] at hcj
    exact stance_not_slot h hq hf hcj

/-- A registration that is held was held before, or its waiter has just taken a slot. -/
theorem held_back (hs : ∀ c, SlotInv c s) (hx : exec cfg s.mem i f ch (s.pc f) = some (m', p'))
    {r : Nat} (hr : Held ⟨m', s.pc.set f p'⟩ r) :
    Held s r ∨ ∃ w j, s.pc f = .add w j .acquire ∧ r = w.call := by
  have hagent : ∀ a, stanceReg ((s.pc.set f p') a) = some r →
      Held s r ∨ a = f ∧ stanceReg p' = some r := by
    intro a ha
    rw [Table.get_set] at ha
    split at ha
    · rename_i haf
      exact Or.inr ⟨haf, ha⟩
    · exact Or.inl (Or.inl ⟨a, ha⟩)
  -- the slots stay, and so does what the agent has
  have hquiet : m'.slot = s.mem.slot → (∀ u, stanceReg p' = some u → stanceReg (s.pc f) = some u) →
      Held s r := by
    intro hslot hback
    rcases hr with ⟨a, ha⟩ | ⟨c, j, hcj⟩
    · rcases hagent a ha with hold | ⟨-, hnew⟩
      · exact hold
      · exact Or.inl ⟨f, hback r hnew⟩
    · replace hcj : (m'.slot c j).token = some r := hcj
      rw [hslot] at hcj
      exact Or.inr ⟨c, j, hcj⟩
  have hnone : m'.slot = s.mem.slot → stanceReg p' = none → Held s r := by
    intro hslot hgone
    refine hquiet hslot fun u hu => ?_
    rw [hgone] at hu
    cases hu
  -- one slot has been written
  have hset : ∀ c j g, SlotSet s.mem m' c j g → (∀ u, stanceReg p' = some u → Held s u) →
      (∀ u, g.token = some u → Held s u) → Held s r := by
    intro c j g hset hback hg
    rcases hr with ⟨a, ha⟩ | ⟨d, k, hdk⟩
    · rcases hagent a ha with hold | ⟨-, hnew⟩
      · exact hold
      · exact hback r hnew
    · replace hdk : (m'.slot d k).token = some r := hdk
      rw [hset d k] at hdk
      split at hdk
      · exact hg r hdk
      · exact Or.inr ⟨d, k, hdk⟩
  cases exec_stance hx with
  | stay hslot _ hsame => exact Or.inl (hquiet hslot fun u hu => by rwa [stanceReg, hsame] at hu)
  | leave cj q hslot _ _ _ hgone => exact Or.inl (hnone hslot (by rw [stanceReg, hgone]; rfl))
  | freed w j _ hp' hslot _ => exact Or.inl (hnone hslot (by rw [hp']; rfl))
  | take w j hp hp' _ hslot _ =>
      rcases hr with ⟨a, ha⟩ | ⟨c, k, hck⟩
      · rcases hagent a ha with hold | ⟨-, hnew⟩
        · exact Or.inl hold
        · rw [hp'] at hnew
          exact Or.inr ⟨w, j, hp, (Option.some.inj hnew).symm⟩
      · replace hck : (m'.slot c k).token = some r := hck
        rw [hslot] at hck
        exact Or.inl (Or.inr ⟨c, k, hck⟩)
  | write w j pc pc' g hq hq' huse _ hwrite _ =>
      have hused := ((hs w.counter).fits f j _ hq).1
      refine Or.inl (hset _ _ _ hwrite (fun u hu => ?_) fun u hu => ?_)
      · rw [stanceReg, hq'] at hu
        exact Or.inl ⟨f, by rw [stanceReg, hq]; exact hu⟩
      · rw [WaitingFiber.token, huse, hused] at hu
        cases hu
  | publish w j hp hp' hwrite _ =>
      have hq : stance (s.pc f) = some ((w.counter, j), .fill w .publish) := by
        rw [hp]
        rfl
      have hreg := ((hs w.counter).fits f j _ hq).2.1.1.1
      refine Or.inl (hset _ _ _ hwrite (fun u hu => ?_) fun u hu => ?_)
      · rw [hp'] at hu
        cases hu
      · replace hu : some (s.mem.slot w.counter j).reg = some u := hu
        refine Or.inl ⟨f, ?_⟩
        rw [stanceReg, hq]
        exact (congrArg some hreg.symm).trans hu
  | enter d j _ hq' _ hslot _ => exact Or.inl (hnone hslot (by rw [stanceReg, hq']; rfl))
  | find d j _ hq' hslot _ => exact Or.inl (hnone hslot (by rw [stanceReg, hq']; rfl))
  | claim d j u found hq hq' hfree hwrite _ =>
      have hreg := ((hs d).fits f j _ hq).2.1 u rfl
      refine Or.inl (hset _ _ _ hwrite (fun v hv => ?_) fun v hv => ?_)
      · rw [stanceReg, hq'] at hv
        refine Or.inr ⟨d, j, ?_⟩
        rw [WaitingFiber.token, hfree, hreg]
        exact hv
      · cases hv
  | copy d j u found hq hq' hslot _ =>
      have hreg := ((hs d).fits f j _ hq).1.2.1
      refine Or.inl (hquiet hslot fun v hv => ?_)
      rw [stanceReg, hq', hreg] at hv
      rw [stanceReg, hq]
      exact hv
  | push d j u found _ hq' hslot _ => exact Or.inl (hnone hslot (by rw [stanceReg, hq']; rfl))
  | drop x j v pc _ _ hp' hslot _ => exact Or.inl (hnone hslot (by rw [hp']; rfl))

/-! ## What is recorded -/

/-- `counterAddWaitingFiber` returns `true` where it frees its slot. -/
theorem added_true (hx : exec cfg m i f ch p = some (m', p')) {r : Nat}
    (hr : m'.hist.added r = some true) : m.hist.added r = some true ∨
      ∃ w j, p = .add w j .free ∧ p' = .waitDone w ∧ r = w.call := by
  cases p with
  | add w j pc =>
      obtain ⟨a, n, hmove, rfl, rfl⟩ := exec_add hx
      cases n with
      | goto j' pc' => exact Or.inl hr
      | full => exact Or.inl hr
      | ret b =>
          replace hr : (m.hist.added.set w.call (some b)) r = some true := hr
          rw [Table.get_set] at hr
          split at hr
          · rename_i hrw
            cases hr
            cases hmove
            exact Or.inr ⟨w, j, rfl, rfl, hrw⟩
          · exact Or.inl hr
  | _ =>
      cases exec_call hx with
      | added _ _ _ _ hp _ _ => cases hp
      | _ =>
          rename_i hpart
          simp only [callPart, Prod.mk.injEq] at hpart
          rw [hpart.2.2.1] at hr
          exact Or.inl hr

theorem added_mono (hx : exec cfg m i f ch p = some (m', p')) {r : Nat}
    (hr : m.hist.added r ≠ none) : m'.hist.added r ≠ none := by
  cases exec_call hx with
  | added w j pc b _ _ hpart =>
      simp only [callPart, Prod.mk.injEq] at hpart
      rw [hpart.2.2.1, Table.get_set]
      split
      · simp
      · exact hr
  | _ =>
      rename_i hpart
      simp only [callPart, Prod.mk.injEq] at hpart
      rw [hpart.2.2.1]
      exact hr

theorem Signed.exec {w : WaitCall} (h : Signed s w)
    (hx : exec cfg s.mem i f ch (s.pc f) = some (m', p')) : Signed ⟨m', s.pc.set f p'⟩ w := by
  rcases h with ⟨j, pc, hpc, hp⟩ | hadded
  · by_cases hwf : w.fiber = f
    · rw [hwf] at hp
      rw [hp] at hx
      obtain ⟨a, r, hmove, rfl, rfl⟩ := exec_add hx
      cases r with
      | goto j' pc' =>
          refine Or.inl ⟨j', pc', ?_, by rw [hwf]; exact Table.get_set_self _ _ _⟩
          rintro rfl
          cases hmove
          exact hpc rfl
      | full =>
          cases hmove
          exact absurd rfl hpc
      | ret b =>
          refine Or.inr ?_
          show (s.mem.hist.added.set w.call (some b)) w.call ≠ none
          simp
    · exact Or.inl ⟨j, pc, hpc, (Table.get_set_ne _ _ hwf).trans hp⟩
  · exact Or.inr (added_mono hx hadded)

theorem Waits.signed (hc : CallInv cfg s) {w : WaitCall} (h : Waits s w) : Signed s w := by
  rcases h with hadd | hsusp
  · exact Or.inl hadd
  · refine Or.inr ?_
    rw [hc.suspended w.fiber w hsusp]
    simp

/-- An access pushes nothing, or the registration its agent has. -/
theorem pushes_step (hs : ∀ c, SlotInv c s) (hx : exec cfg s.mem i f ch (s.pc f) = some (m', p')) :
    m'.hist.pushes = s.mem.hist.pushes ∨
      ∃ r, stanceReg (s.pc f) = some r ∧ m'.hist.pushes = Hist.count s.mem.hist.pushes r ∧
        ¬ (∃ w j pc, s.pc f = .add w j pc) ∧ stanceReg p' = none ∧ m'.slot = s.mem.slot := by
  cases hmove : exec_stance hx with
  | push d j r found hq hq' hslot hpush =>
      by_cases hadd : ∃ w j pc, s.pc f = .add w j pc
      · obtain ⟨w, k, pc, hp⟩ := hadd
        rw [hp] at hx
        obtain ⟨a, n, -, rfl, -⟩ := exec_add hx
        cases n <;> exact Or.inl rfl
      · have hreg := ((hs d).fits f j _ hq).1.2.1
        rw [hreg, or_self] at hpush
        exact Or.inr ⟨r, by rw [stanceReg, hq]; rfl, hpush, hadd, by rw [stanceReg, hq']; rfl, hslot⟩
  | _ => exact Or.inl ‹_›

namespace PushInv

theorem exec (h : PushInv s) (hr : RegInv cfg s) (hq : QueueInv s) (hc : CallInv cfg s)
    (hs : ∀ c, SlotInv c s) (hx : exec cfg s.mem i f ch (s.pc f) = some (m', p')) :
    PushInv ⟨m', s.pc.set f p'⟩ := by
  have hcall := fun {r w} => hc.call_mono (exec_call hx) (r := r) (w := w)
  have hpushes := pushes_step hs hx
  -- what is pushed was held
  have hpushed : ∀ r, m'.hist.pushes r ≠ s.mem.hist.pushes r →
      Held s r ∧ m'.hist.pushes r = s.mem.hist.pushes r + 1 ∧ ¬ Held ⟨m', s.pc.set f p'⟩ r ∧
        ¬ ∃ w j pc, s.pc f = .add w j pc := by
    intro r hne
    rcases hpushes with heq | ⟨u, hu, hcount, hadd, hp', hslot⟩
    · exact absurd (by rw [heq]) hne
    · rw [hcount] at hne ⊢
      by_cases hru : r = u
      · subst hru
        exact ⟨Or.inl ⟨f, hu⟩, count_self _ _, not_held_after hr hq hu hp' hslot, hadd⟩
      · exact absurd (count_ne _ hru) hne
  have hfreed : ∀ w j, s.pc f = .add w j .free → p' = .waitDone w → Held s w.call ∧
      ¬ Held ⟨m', s.pc.set f p'⟩ w.call := by
    intro w j hp hp'
    have hslot : m'.slot = s.mem.slot := by
      rw [hp] at hx
      obtain ⟨a, n, hmove, rfl, -⟩ := exec_add hx
      cases hmove
      exact slot_same (a := (s.mem.counters w.counter).setFree j true) rfl fun _ => rfl
    have hstance : stanceReg (s.pc f) = some w.call := by
      rw [hp]
      rfl
    exact ⟨Or.inl ⟨f, hstance⟩, not_held_after hr hq hstance (by rw [hp']; rfl) hslot⟩
  constructor
  · intro r hheld
    have hold : s.mem.hist.pushes r = 0 ∧ s.mem.hist.added r ≠ some true := by
      rcases held_back hs hx hheld with hold | ⟨w, j, hp, rfl⟩
      · exact h.held r hold
      · obtain ⟨hfiber, hrec, -⟩ := hc.inside f w (by rw [hp]; rfl)
        have hnone := hc.adding f w (by rw [hp]; rfl)
        refine ⟨?_, by rw [hnone]; simp⟩
        by_contra hne
        obtain ⟨v, hv, hsigned⟩ := h.signed _ hne
        rw [hrec] at hv
        obtain rfl := Option.some.inj hv
        rcases hsigned with ⟨k, pc, hpc, hp''⟩ | hadded
        · rw [hfiber, hp] at hp''
          cases hp''
          exact hpc rfl
        · exact hadded hnone
    constructor
    · by_contra hne
      exact (hpushed r (by rw [hold.1]; exact hne)).2.2.1 hheld
    · intro htrue
      rcases added_true hx htrue with hbefore | ⟨w, j, hp, hp', rfl⟩
      · exact hold.2 hbefore
      · exact (hfreed w j hp hp').2 hheld
  · intro r
    by_cases heq : m'.hist.pushes r = s.mem.hist.pushes r
    · show m'.hist.pushes r ≤ 1
      rw [heq]
      exact h.once r
    · obtain ⟨hheld, hcount, -, -⟩ := hpushed r heq
      show m'.hist.pushes r ≤ 1
      rw [hcount, (h.held r hheld).1]
  · intro r htrue
    show m'.hist.pushes r = 0
    rcases added_true hx htrue with hbefore | ⟨w, j, hp, hp', rfl⟩
    · by_cases heq : m'.hist.pushes r = s.mem.hist.pushes r
      · rw [heq]
        exact h.self r hbefore
      · exact absurd hbefore (h.held r (hpushed r heq).1).2
    · by_cases heq : m'.hist.pushes w.call = s.mem.hist.pushes w.call
      · rw [heq]
        exact (h.held _ (hfreed w j hp hp').1).1
      · exact absurd ⟨w, j, .free, hp⟩ (hpushed _ heq).2.2.2
  · intro r hne
    replace hne : m'.hist.pushes r ≠ 0 := hne
    by_cases heq : m'.hist.pushes r = s.mem.hist.pushes r
    · rw [heq] at hne
      obtain ⟨w, hw, hsigned⟩ := h.signed r hne
      exact ⟨w, hcall hw, hsigned.exec hx⟩
    · rcases hpushes with hsame | ⟨u, hu, hcount, -⟩
      · exact absurd (by rw [hsame]) heq
      · have hru : r = u := by
          by_contra hru
          exact heq (by rw [hcount, count_ne _ hru])
        obtain ⟨P, hP, -⟩ := place_of_stance hq hu
        obtain ⟨w, hw, hwaits⟩ := hr.waits P u hP
        exact ⟨w, hru ▸ hcall hw, (hwaits.signed hc).exec hx⟩

theorem start (cfg : Config) : PushInv (start cfg) where
  held r _ := ⟨rfl, by simp [Scheduler.start, newHist]⟩
  once _ := Nat.zero_le _
  self _ _ := rfl
  signed _ hne := absurd rfl hne

end PushInv

end Steps

/-! ## Runs -/

/-- The slot and the registration an agent goes by there. -/
def goesBy (p : PC) : Option ((Nat × Nat) × Nat) :=
  match stance p with
  | some (cj, .look (some reg) _) => some (cj, reg)
  | some (cj, .hold reg _ _) => some (cj, reg)
  | _ => none

/-- Every registration is resolved once, and nobody acts on another one. -/
structure Resolved (s : State) : Prop where
  self : ∀ r, s.mem.hist.added r = some true → s.mem.hist.pushes r = 0
  once : ∀ r, s.mem.hist.pushes r ≤ 1
  own : ∀ a c j r, goesBy (s.pc a) = some ((c, j), r) → (s.mem.slot c j).reg = r
  queued : ∀ v, (∃ pos, s.mem.resumableFibers.entry pos = some v) ∨
    (∃ t k, (s.mem.threads t).pinnedResumableFibers.entry k = some v) →
      s.mem.hist.ended v.reg = false

theorem WaitInv.resolved {cfg : Config} {s : State} (h : WaitInv cfg s) (hp : PushInv s) :
    Resolved s where
  self := hp.self
  once := hp.once
  own a c j r hr := by
    unfold goesBy at hr
    split at hr
    · rename_i cj reg found hq
      cases hr
      exact ((h.slots c).fits a j _ hq).2.1 r rfl
    · rename_i cj reg found pushed hq
      cases hr
      exact ((h.slots c).fits a j _ hq).1.2.1
    · cases hr
  queued v hv := by
    obtain ⟨P, hP⟩ : ∃ P, regAt s P = some v.reg := by
      rcases hv with ⟨pos, hpos⟩ | ⟨t, k, hk⟩
      · exact ⟨.resumable pos, by simp only [regAt, hpos, Option.map_some]⟩
      · exact ⟨.pinned t k, by simp only [regAt, hk, Option.map_some]⟩
    obtain ⟨w, hw, hwaits⟩ := h.regs.waits P _ hP
    rw [← (h.calls.number _ w hw).1]
    exact (h.calls.inside _ w hwaits.inside).2.2

/-- While every waiter that takes a slot finds it resolved and left by all others,
every registration is resolved exactly once. -/
theorem resolved_of_run {cfg : Config} (hcfg : cfg.Ok) {σ : Nat → State} {ℓ : Nat → Label}
    {n : Nat} (h : Run (step cfg) (start cfg) σ ℓ n)
    (hg : ∀ k, k < n → ∀ c, Vacant c (σ k) (ℓ k)) : ∀ k, k ≤ n → Resolved (σ k) := by
  have hinv : ∀ k, k ≤ n → WaitInv cfg (σ k) ∧ PushInv (σ k) := by
    refine h.guarded (I := fun s => WaitInv cfg s ∧ PushInv s)
      (G := fun s l => ∀ c, Vacant c s l) ⟨.start hcfg, .start cfg⟩ ?_ hg
    rintro s l s' ⟨hw, hp⟩ hG hs
    refine ⟨hw.step hG hs, ?_⟩
    obtain ⟨-, -, m', p', hx, rfl⟩ := step_eq_some.1 hs
    exact hp.exec hw.regs hw.queues hw.calls hw.slots hx
  intro k hk
  exact (hinv k hk).1.resolved (hinv k hk).2

/-! ## The condition computed -/

/-- Whether nobody stands at the slot that the step takes, and it is claimed. -/
def vacant (s : State) (l : Label) : Bool :=
  match s.pc (s.mem.running l.thread) with
  | .add w j .acquire =>
      !(s.mem.counters w.counter).freeWaitingSlots j ||
        (s.mem.slot w.counter j).inUse &&
          !somePC (fun p => (stance p).any fun x => x.1 = (w.counter, j)) s
  | _ => true

theorem Vacant.of_vacant {s : State} {l : Label} (h : vacant s l = true) (c : Nat) : Vacant c s l := by
  rintro w j hp rfl hfree
  simp only [vacant, hp, hfree, Bool.not_true, Bool.false_or, Bool.and_eq_true,
    Bool.not_eq_true'] at h
  refine ⟨h.1, fun a q ha => ?_⟩
  have hno := not_of_somePC_false h.2 a
  simp [ha] at hno

theorem resolved_pool : Resolved
    (trace (step pairConfig) (start pairConfig) (goes 0 7 ++ poolLabels 61) 176) := by
  have hrun : follows (step pairConfig) vacant (start pairConfig) (goes 0 7 ++ poolLabels 61) =
      true := by decide +kernel
  exact resolved_of_run pairConfig_ok (Run.of_follows ⟨0, .go⟩ hrun)
    (fun k hk => .of_vacant (trace_ok ⟨0, .go⟩ hrun k hk)) 176 (by decide +kernel)

/-! ## A slot that is filled again

Thread `0` has published a slot and not looked at it again when thread `1` brings the
counter on target, wakes it, and takes the same slot for a wait of its own. -/

def refillLabels : List Label :=
  goes 0 7 ++ calls 0 .acquire 38 ++ [⟨0, .handle 0⟩] ++ calls 0 .acquire 38 ++ [⟨0, .handle 1⟩] ++
    calls 0 (.submitOn 1 1) 38 ++ goes 1 19 ++ calls 0 (.waitOn 0 false 1) 7 ++
    calls 1 (.add 0 1) 44 ++ calls 1 (.waitOn 0 false 0) 17 ++ goes 0 5

/-- No counter is released where the run goes. -/
def noRelease (s : State) (l : Label) : Bool :=
  match s.pc (s.mem.running l.thread) with
  | .releaseHandle _ _ _ => false
  | _ => true

/-- The waiter has claimed the other registration and returns, and is woken as well. -/
theorem not_resolved :
    ¬ ∀ (cfg : Config), cfg.Ok → ∀ (σ : Nat → State) (ℓ : Nat → Label) (n : Nat),
      Run (step cfg) (start cfg) σ ℓ n → (∀ k, k < n → noRelease (σ k) (ℓ k) = true) →
        ∀ k, k ≤ n → Resolved (σ k) := by
  intro h
  have hrun : follows (step pairConfig) noRelease (start pairConfig) refillLabels = true := by
    decide +kernel
  have hlast : (trace (step pairConfig) (start pairConfig) refillLabels 221).mem.hist.added 0 =
        some true ∧
      (trace (step pairConfig) (start pairConfig) refillLabels 221).mem.hist.pushes 0 = 1 := by
    decide +kernel
  have hres := h pairConfig pairConfig_ok _ _ _ (Run.of_follows ⟨0, .go⟩ hrun)
    (trace_ok ⟨0, .go⟩ hrun) 221 (by decide +kernel)
  have hzero := hres.self 0 hlast.1
  rw [hlast.2] at hzero
  cases hzero

end TaskDispatcher.Scheduler
