import TaskDispatcher.Scheduler.Accesses
import TaskDispatcher.Scheduler.Exclusivity

/-!
# The calls of `wait`

Every call of `wait` belongs to the fiber that made it until it returns, and
passes through three phases there: it registers, it is suspended, it returns.
An entry of a queue of resumable fibers names a call of its fiber.
-/

namespace TaskDispatcher.Scheduler

open TaskDispatcher.Library TaskDispatcher.Container

inductive CallPhase where
  | none
  | adding (w : WaitCall)
  | suspended (w : WaitCall)
  | returning (w : WaitCall)

def CallPhase.call : CallPhase → Option WaitCall
  | .none => Option.none
  | .adding w => some w
  | .suspended w => some w
  | .returning w => some w

/-- The phase of the call of `wait` a fiber is in. -/
def callPhase : PC → CallPhase
  | .waitStore w => .adding w
  | .add w _ _ => .adding w
  | .idleDeq (.wait w) _ => .suspended w
  | .yieldTo _ (.wait w) => .suspended w
  | .clean (.yielded (.wait w)) => .suspended w
  | .idleEnq (.yielded (.wait w)) _ _ => .suspended w
  | .waitDone w => .returning w
  | _ => .none

/-- The records of the calls. -/
def callPart (hist : Hist) : Nat × Table (Option WaitCall) × Table (Option Bool) × Table Bool :=
  (hist.nextCall, hist.call, hist.added, hist.ended)

/-- What a step of agent `f` does to the calls. -/
inductive CallMove (m : Mem) (f : Nat) (p : PC) (m' : Mem) (p' : PC) : Prop where
  | same : callPhase p' = callPhase p → callPart m'.hist = callPart m.hist → CallMove m f p m' p'
  | begin (w : WaitCall) : p = .body → w.call = m.hist.nextCall → w.fiber = f → p' = .waitStore w →
      callPart m'.hist =
        (m.hist.nextCall + 1, m.hist.call.set m.hist.nextCall (some w), m.hist.added, m.hist.ended) →
      CallMove m f p m' p'
  | added (w : WaitCall) (j : Nat) (pc : AddPC) (b : Bool) : p = .add w j pc →
      p' = (if b then .waitDone w else .idleDeq (.wait w) .load) →
      callPart m'.hist =
        (m.hist.nextCall, m.hist.call, m.hist.added.set w.call (some b), m.hist.ended) →
      CallMove m f p m' p'
  | woken (w : WaitCall) : callPhase p = .suspended w → p' = .waitDone w →
      callPart m'.hist = callPart m.hist → CallMove m f p m' p'
  | ended (w : WaitCall) : p = .waitDone w → callPhase p' = .none →
      callPart m'.hist =
        (m.hist.nextCall, m.hist.call, m.hist.added, m.hist.ended.set w.call true) →
      CallMove m f p m' p'

section Steps

variable {cfg : Config} {s s' : State} {m m' : Mem} {i f : Nat} {ch : Choice} {p p' : PC} {l : Label}

theorem callPhase_nextSlot (x : Scan) (j : Nat) : callPhase (nextSlot x j) = .none := by
  unfold nextSlot
  split
  · rfl
  · cases x.k <;> rfl

theorem callPhase_afterPush (reg : Nat) (k : PushK) : callPhase (afterPush reg k) = .none := by
  cases k <;> rfl

/-- `cleanUpPrevFiber` returns into `wait` or to the worker. -/
theorem callMove_afterClean {k : CleanK} (hp : callPhase p = callPhase (.clean k))
    (hpart : callPart m'.hist = callPart m.hist) : CallMove m f p m' (afterClean k) := by
  rcases k with _ | w | (_ | _)
  · exact .same hp.symm hpart
  · exact .woken w hp rfl hpart
  · exact .same hp.symm hpart
  · exact .same hp.symm hpart

theorem exec_call (hx : exec cfg m i f ch p = some (m', p')) : CallMove m f p m' p' := by
  cases p with
  | add w j pc =>
      obtain ⟨a, r, -, rfl, rfl⟩ := exec_add hx
      cases r with
      | goto j' pc' => exact .same rfl rfl
      | full => exact .same rfl rfl
      | ret b => exact .added w j pc b rfl rfl rfl
  | scan x j pc =>
      obtain ⟨a, r, -, rfl, rfl⟩ := exec_scan hx
      cases r with
      | skip => exact .same (callPhase_nextSlot x j) rfl
      | _ => exact .same rfl rfl
  | clean k =>
      simp only [exec, cleanStep] at hx
      split at hx <;> cases hx
      · exact callMove_afterClean rfl rfl
      · rcases k with _ | w | _ <;> exact .same rfl rfl
      · exact callMove_afterClean rfl rfl
  | idleEnq k v pc =>
      have hk : callPhase (.idleEnq k v pc) = callPhase (.clean k) := by
        rcases k with _ | w | _ <;> rfl
      simp only [exec] at hx
      split at hx <;> cases hx
      · rcases k with _ | w | _ <;> exact .same rfl rfl
      · exact callMove_afterClean hk rfl
  | yieldTo g k =>
      cases hx
      cases k <;> exact .same rfl rfl
  | idleDeq k pc =>
      simp only [exec] at hx
      split at hx
      · cases hx
        cases k <;> exact .same rfl rfl
      · cases hx
        cases k <;> exact .same rfl rfl
      · split at hx <;> cases hx <;> exact .same rfl rfl
  | waitDone w =>
      simp only [exec, afterWait] at hx
      split at hx
      · cases hx
        exact .ended w rfl rfl rfl
      · split at hx <;> cases hx
        exact .ended w rfl rfl rfl
  | increment inc =>
      simp only [exec, incrementStep] at hx
      split at hx <;> cases hx
      · exact .same rfl rfl
      · exact .same rfl rfl
      · refine .same rfl ?_
        show callPart (Hist.announce _ _ _) = _
        rw [Hist.announce_eq]
        rfl
  | body =>
      simp only [exec] at hx
      split at hx
      · rename_i u
        cases u <;> simp only [userStep, beginWait] at hx <;> (repeat' split at hx) <;> cases hx <;>
          first
            | exact .same rfl rfl
            | exact .begin _ rfl rfl rfl rfl rfl
      · cases hx
  | _ =>
      simp only [exec, submitNext, afterRelease, pinStep, submitTasks, enqueueNext] at hx
      (repeat' split at hx) <;> cases hx <;> first
        | exact .same rfl rfl
        | exact .same (callPhase_afterPush _ _) rfl

/-! ## The invariant -/

structure CallInv (cfg : Config) (s : State) : Prop where
  /-- a fiber is in a call of its own that has not returned -/
  inside : ∀ a w, (callPhase (s.pc a)).call = some w →
    w.fiber = a ∧ s.mem.hist.call w.call = some w ∧ s.mem.hist.ended w.call = false
  number : ∀ r w, s.mem.hist.call r = some w →
    w.call = r ∧ w.fiber < cfg.numFibers ∧ r < s.mem.hist.nextCall
  fresh : ∀ r, s.mem.hist.nextCall ≤ r → s.mem.hist.added r = none ∧ s.mem.hist.ended r = false
  opened : ∀ r w, s.mem.hist.call r = some w → s.mem.hist.ended r = false →
    (callPhase (s.pc w.fiber)).call = some w
  adding : ∀ a w, callPhase (s.pc a) = .adding w → s.mem.hist.added w.call = none
  suspended : ∀ a w, callPhase (s.pc a) = .suspended w → s.mem.hist.added w.call = some false
  returning : ∀ a w, callPhase (s.pc a) = .returning w → s.mem.hist.added w.call ≠ none
  known : ∀ r, s.mem.hist.added r ≠ none ∨ s.mem.hist.ended r = true → s.mem.hist.call r ≠ none
  ended : ∀ r, s.mem.hist.ended r = true → s.mem.hist.added r ≠ none

namespace CallInv

/-- Two fibers are never in the same call. -/
theorem inside_inj (h : CallInv cfg s) {a b : Nat} {w v : WaitCall}
    (ha : (callPhase (s.pc a)).call = some w) (hb : (callPhase (s.pc b)).call = some v)
    (heq : w.call = v.call) : a = b ∧ w = v := by
  obtain ⟨hfa, hca, -⟩ := h.inside a w ha
  obtain ⟨hfb, hcb, -⟩ := h.inside b v hb
  rw [heq, hcb] at hca
  obtain rfl := Option.some.inj hca
  exact ⟨hfa.symm.trans hfb, rfl⟩

theorem step_same (h : CallInv cfg s) (hphase : callPhase p' = callPhase (s.pc f))
    (hpart : callPart m'.hist = callPart s.mem.hist) : CallInv cfg ⟨m', s.pc.set f p'⟩ := by
  have hpc : ∀ a, callPhase ((s.pc.set f p') a) = callPhase (s.pc a) := by
    intro a
    rw [Table.get_set]
    split
    · rename_i ha
      rw [hphase, ha]
    · rfl
  simp only [callPart, Prod.mk.injEq] at hpart
  obtain ⟨hnext, hcall, hadded, hended⟩ := hpart
  constructor <;> simp only [hpc, hnext, hcall, hadded, hended]
  · exact h.inside
  · exact h.number
  · exact h.fresh
  · exact h.opened
  · exact h.adding
  · exact h.suspended
  · exact h.returning
  · exact h.known
  · exact h.ended

theorem step_begin (h : CallInv cfg s) (hf : f < cfg.numFibers) {w : WaitCall}
    (hp : callPhase (s.pc f) = .none)
    (hw : w.call = s.mem.hist.nextCall) (hfiber : w.fiber = f)
    (hpart : callPart m'.hist = (s.mem.hist.nextCall + 1,
      s.mem.hist.call.set s.mem.hist.nextCall (some w), s.mem.hist.added, s.mem.hist.ended)) :
    CallInv cfg ⟨m', s.pc.set f (.waitStore w)⟩ := by
  have hpc : ∀ a, callPhase ((s.pc.set f (.waitStore w)) a) =
      if a = f then .adding w else callPhase (s.pc a) := by
    intro a
    rw [Table.get_set]
    split <;> rfl
  simp only [callPart, Prod.mk.injEq] at hpart
  obtain ⟨hnext, hcall, hadded, hended⟩ := hpart
  obtain ⟨hfresh, hlive⟩ := h.fresh _ (le_refl _)
  have hold : ∀ r v, s.mem.hist.call r = some v → r ≠ s.mem.hist.nextCall := by
    intro r v hr
    exact Nat.ne_of_lt (h.number r v hr).2.2
  have hget : ∀ r, (s.mem.hist.call.set s.mem.hist.nextCall (some w)) r =
      if r = s.mem.hist.nextCall then some w else s.mem.hist.call r := fun r => Table.get_set _ _ _ _
  constructor <;> simp only [hpc, hnext, hcall, hadded, hended, hget]
  · intro a v hv
    split at hv
    · rename_i ha
      obtain rfl := Option.some.inj hv
      exact ⟨hfiber.trans ha.symm, by rw [if_pos hw], by rw [hw, hlive]⟩
    · obtain ⟨h1, h2, h3⟩ := h.inside a v hv
      exact ⟨h1, by rw [if_neg (hold _ _ h2), h2], h3⟩
  · intro r v hr
    split at hr
    · rename_i heq
      obtain rfl := Option.some.inj hr
      exact ⟨hw.trans heq.symm, hfiber ▸ hf, by omega⟩
    · obtain ⟨h1, h2, h3⟩ := h.number r v hr
      exact ⟨h1, h2, by omega⟩
  · intro r hr
    exact h.fresh r (by omega)
  · intro r v hr hopen
    split at hr
    · obtain rfl := Option.some.inj hr
      rw [if_pos hfiber]
      rfl
    · have hphase := h.opened r v hr hopen
      have hne : v.fiber ≠ f := by
        intro heq
        rw [heq, hp] at hphase
        cases hphase
      rw [if_neg hne]
      exact hphase
  · intro a v hv
    split at hv
    · cases hv
      rw [hw]
      exact hfresh
    · exact h.adding a v hv
  · intro a v hv
    split at hv
    · cases hv
    · exact h.suspended a v hv
  · intro a v hv
    split at hv
    · cases hv
    · exact h.returning a v hv
  · intro r hr
    split
    · simp
    · exact h.known r hr
  · exact h.ended

/-- A call of fiber `f` goes on to another phase. -/
theorem step_phase (h : CallInv cfg s) {w : WaitCall} {q : CallPhase} {b : Bool}
    (hp : (callPhase (s.pc f)).call = some w) (hp' : callPhase p' = q)
    (hq : q = .returning w ∨ q = .suspended w ∧ b = false)
    (hnext : m'.hist.nextCall = s.mem.hist.nextCall) (hcall : m'.hist.call = s.mem.hist.call)
    (hget : ∀ r, m'.hist.added r = if r = w.call then some b else s.mem.hist.added r)
    (hended : m'.hist.ended = s.mem.hist.ended) :
    CallInv cfg ⟨m', s.pc.set f p'⟩ := by
  have hpc : ∀ a, callPhase ((s.pc.set f p') a) = if a = f then q else callPhase (s.pc a) := by
    intro a
    rw [Table.get_set]
    split
    · exact hp'
    · rfl
  have hqcall : q.call = some w := by rcases hq with rfl | ⟨rfl, -⟩ <;> rfl
  obtain ⟨hfiber, hrec, hopen⟩ := h.inside f w hp
  have hother : ∀ a v, a ≠ f → (callPhase (s.pc a)).call = some v → v.call ≠ w.call := by
    intro a v ha hv heq
    exact ha (h.inside_inj hv hp heq).1
  constructor <;> simp only [hpc, hnext, hcall, hended, hget]
  · intro a v hv
    split at hv
    · rename_i ha
      rw [hqcall] at hv
      obtain rfl := Option.some.inj hv
      exact ⟨hfiber.trans ha.symm, hrec, hopen⟩
    · exact h.inside a v hv
  · exact h.number
  · intro r hr
    obtain ⟨h1, h2⟩ := h.fresh r hr
    have hne : r ≠ w.call := by
      have := (h.number _ _ hrec).2.2
      omega
    rw [if_neg hne]
    exact ⟨h1, h2⟩
  · intro r v hr hlive
    split
    · rename_i heq
      have hphase := h.opened r v hr hlive
      rw [heq, hp] at hphase
      rw [hqcall, hphase]
    · exact h.opened r v hr hlive
  · intro a v hv
    split at hv
    · rcases hq with rfl | ⟨rfl, -⟩ <;> cases hv
    · rename_i ha
      rw [if_neg (hother a v ha (by rw [hv]; rfl))]
      exact h.adding a v hv
  · intro a v hv
    split at hv
    · rcases hq with rfl | ⟨rfl, rfl⟩
      · cases hv
      · cases hv
        rw [if_pos rfl]
    · rename_i ha
      rw [if_neg (hother a v ha (by rw [hv]; rfl))]
      exact h.suspended a v hv
  · intro a v hv
    split at hv
    · rcases hq with rfl | ⟨rfl, -⟩
      · cases hv
        rw [if_pos rfl]
        simp
      · cases hv
    · rename_i ha
      rw [if_neg (hother a v ha (by rw [hv]; rfl))]
      exact h.returning a v hv
  · intro r hr
    split at hr
    · rename_i heq
      rw [heq, hrec]
      simp
    · exact h.known r hr
  · intro r hr
    split
    · simp
    · exact h.ended r hr

theorem step_ended (h : CallInv cfg s) {w : WaitCall}
    (hp : callPhase (s.pc f) = .returning w) (hp' : callPhase p' = .none)
    (hpart : callPart m'.hist = (s.mem.hist.nextCall, s.mem.hist.call, s.mem.hist.added,
      s.mem.hist.ended.set w.call true)) : CallInv cfg ⟨m', s.pc.set f p'⟩ := by
  have hpc : ∀ a, callPhase ((s.pc.set f p') a) = if a = f then .none else callPhase (s.pc a) := by
    intro a
    rw [Table.get_set]
    split
    · exact hp'
    · rfl
  simp only [callPart, Prod.mk.injEq] at hpart
  obtain ⟨hnext, hcall, hadded, hended⟩ := hpart
  have hget : ∀ r, (s.mem.hist.ended.set w.call true) r =
      if r = w.call then true else s.mem.hist.ended r := fun r => Table.get_set _ _ _ _
  have hpcall : (callPhase (s.pc f)).call = some w := by rw [hp]; rfl
  obtain ⟨hfiber, hrec, hopen⟩ := h.inside f w hpcall
  constructor <;> simp only [hpc, hnext, hcall, hadded, hended, hget]
  · intro a v hv
    split at hv
    · cases hv
    · rename_i ha
      obtain ⟨h1, h2, h3⟩ := h.inside a v hv
      rw [if_neg fun heq => ha (h.inside_inj hv hpcall heq).1]
      exact ⟨h1, h2, h3⟩
  · exact h.number
  · intro r hr
    obtain ⟨h1, h2⟩ := h.fresh r hr
    have hne : r ≠ w.call := by
      have := (h.number _ _ hrec).2.2
      omega
    rw [if_neg hne]
    exact ⟨h1, h2⟩
  · intro r v hr hlive
    split at hlive
    · cases hlive
    · rename_i hne
      have hphase := h.opened r v hr hlive
      split
      · rename_i heq
        rw [heq, hpcall] at hphase
        obtain rfl := Option.some.inj hphase
        exact absurd (h.number r w hr).1.symm hne
      · exact hphase
  · intro a v hv
    split at hv
    · cases hv
    · exact h.adding a v hv
  · intro a v hv
    split at hv
    · cases hv
    · exact h.suspended a v hv
  · intro a v hv
    split at hv
    · cases hv
    · exact h.returning a v hv
  · intro r hr
    by_cases heq : r = w.call
    · rw [heq, hrec]
      simp
    · rw [if_neg heq] at hr
      exact h.known r hr
  · intro r hr
    split at hr
    · rename_i heq
      rw [heq]
      exact h.returning f w hp
    · exact h.ended r hr

theorem exec (h : CallInv cfg s) (hf : FiberInv cfg s) (hi : i < cfg.numThreads)
    (hx : exec cfg s.mem i (s.mem.running i) ch (s.pc (s.mem.running i)) = some (m', p')) :
    CallInv cfg ⟨m', s.pc.set (s.mem.running i) p'⟩ := by
  cases exec_call hx with
  | same hphase hpart => exact h.step_same hphase hpart
  | begin w hp hw hfiber hp' hpart =>
      have hrange : s.mem.running i < cfg.numFibers := by
        have hcur := hf.current_of_pc hi (by rw [hp]; simp [ThreadPC]) (by rw [hp]; simp)
        exact hf.range (.current i) _ (by simp only [fiberAt, if_pos hi, hcur])
      rw [hp']
      exact h.step_begin hrange (by rw [hp]; rfl) hw hfiber hpart
  | added w j pc b hp hp' hpart =>
      simp only [callPart, Prod.mk.injEq] at hpart
      obtain ⟨hnext, hcall, hadded, hended⟩ := hpart
      refine h.step_phase (b := b) (by rw [hp]; rfl) rfl ?_ hnext hcall (fun r => ?_) hended
      · rw [hp']
        cases b
        · exact Or.inr ⟨rfl, rfl⟩
        · exact Or.inl rfl
      · rw [hadded, Table.get_set]
  | woken w hp hp' hpart =>
      have hadded := h.suspended _ w hp
      simp only [callPart, Prod.mk.injEq] at hpart
      obtain ⟨hnext, hcall, hsame, hended⟩ := hpart
      refine h.step_phase (b := false) (by rw [hp]; rfl) rfl (Or.inl (by rw [hp']; rfl)) hnext hcall
        (fun r => ?_) hended
      rw [hsame]
      split
      · rename_i hr
        rw [hr, hadded]
      · rfl
  | ended w hp hp' hpart => exact h.step_ended (by rw [hp]; rfl) hp' hpart

theorem start (cfg : Config) : CallInv cfg (start cfg) := by
  have hnone : ∀ a, callPhase ((Scheduler.start cfg).pc a) = .none := by
    intro a
    rw [start_pc]
    split
    · rfl
    · split <;> rfl
  have hended : ∀ r, (Scheduler.start cfg).mem.hist.ended r = false := fun _ => rfl
  have hcall : ∀ r, (Scheduler.start cfg).mem.hist.call r = none := fun _ => rfl
  constructor <;> (try simp only [hnone])
  · simp [CallPhase.call]
  · simp [hcall]
  · exact fun _ _ => ⟨rfl, rfl⟩
  · simp [hcall]
  · simp
  · simp
  · simp
  · rintro r (hr | hr)
    · exact absurd rfl hr
    · cases hr
  · simp [hended]

end CallInv

end Steps

end TaskDispatcher.Scheduler
