import TaskDispatcher.Scheduler.Queues
import TaskDispatcher.Library.Tokens

/-!
# Fiber exclusivity

A fiber index is a token.  It lies in the idle queue, in the hands of the agent
that took it out, as the current or the previous fiber of a thread, or with the
suspended fiber itself, and every step moves it from one of these places to
another.
-/

namespace TaskDispatcher.Scheduler

open TaskDispatcher.Library TaskDispatcher.Container

/-- Where a fiber index can be. -/
inductive FiberPlace where
  | idle (pos : Nat)
  | hand (a : Nat)
  | current (i : Nat)
  | previous (i : Nat)
  | suspended (f : Nat)

/-- The fiber an agent has acquired or resumed and not switched to yet. -/
def fiberHand (q : Mpmc Nat) : PC → Option Nat
  | .idleDeq _ pc => pc.claimed.bind (q.log[·]?)
  | .startSwitch g => some g
  | .yieldTo g _ => some g
  | _ => none

/-- Whether the previous fiber is already back in the idle queue. -/
def handedOn : PC → Bool
  | .idleEnq _ _ pc => pc.claimed
  | _ => false

/-- The previous fiber of thread `i` until it is cleaned up. -/
def previousFiber (s : State) (i : Nat) : Option Nat :=
  if (s.mem.tls i).previousFiberDest ≠ .none ∧ handedOn (s.pc (s.mem.running i)) = false then
    (s.mem.tls i).previousFiberIndex
  else none

def fiberAt (cfg : Config) (s : State) : FiberPlace → Option Nat
  | .idle pos => s.mem.idleFibers.entry pos
  | .hand a => fiberHand s.mem.idleFibers (s.pc a)
  | .current i => if i < cfg.numThreads then (s.mem.tls i).currentFiberIndex else none
  | .previous i => if i < cfg.numThreads then previousFiber s i else none
  | .suspended f => if s.mem.isWaitingCleanedUp f then some f else none

/-- A fiber that is waiting to be pooled or never ran goes on from here. -/
def PoolPC (p : PC) : Prop := p = .entry ∨ ∃ src, p = .clean (.yielded (.resume src))

/-- A fiber that is suspended in `wait` goes on from here. -/
def WaitPC (p : PC) : Prop := ∃ w, p = .clean (.yielded (.wait w))

/-- Whether an agent holds a fiber that it resumes from `wait`. -/
def resuming : PC → Bool
  | .yieldTo _ (.resume _) => true
  | _ => false

/-- How a fiber recorded at a place has switched out. -/
def Resting (s : State) : FiberPlace → PC → Prop
  | .idle _, p => PoolPC p
  | .hand a, p => if resuming (s.pc a) then WaitPC p else PoolPC p
  | .current _, _ => True
  | .previous i, p =>
      match (s.mem.tls i).previousFiberDest with
      | .none => True
      | .waiting => WaitPC p
      | .pool => ∃ src, p = .clean (.yielded (.resume src))
  | .suspended _, p => WaitPC p

/-- What a thread fiber does until it is switched back to. -/
def ThreadPC (p : PC) : Prop := (∃ pc, p = .idleDeq .start pc) ∨ ∃ g, p = .startSwitch g

structure FiberInv (cfg : Config) (s : State) : Prop where
  linear : Linear (fiberAt cfg s)
  range : ∀ P g, fiberAt cfg s P = some g → g < cfg.numFibers
  resting : ∀ P g, fiberAt cfg s P = some g → Resting s P (s.pc g)
  runs : ∀ i, i < cfg.numThreads → s.mem.running i = cfg.numFibers + i ∨
    (s.mem.tls i).currentFiberIndex = some (s.mem.running i)
  thread : ∀ i, i < cfg.numThreads →
    ThreadPC (s.pc (cfg.numFibers + i)) ∧ s.mem.running i = cfg.numFibers + i ∧
        (s.mem.tls i).currentFiberIndex = none ∨
      s.pc (cfg.numFibers + i) = .done
  fiber : ∀ a, a < cfg.numFibers → ¬ ThreadPC (s.pc a)
  parked : ∀ a, a < cfg.numFibers → (∀ i, i < cfg.numThreads → s.mem.running i ≠ a) →
    s.pc a = .entry ∨ (∃ k, s.pc a = .clean (.yielded k)) ∨ s.pc a = .done
  pooling : ∀ i, i < cfg.numThreads → ∀ k v pc, s.pc (s.mem.running i) = .idleEnq k v pc →
    (s.mem.tls i).previousFiberDest = .pool ∧ (s.mem.tls i).previousFiberIndex = some v
  previous : ∀ i, i < cfg.numThreads → (s.mem.tls i).previousFiberDest ≠ .none →
    (s.mem.tls i).previousFiberIndex ≠ none

namespace FiberInv

variable {cfg : Config} {s : State}

theorem current_of_running (h : FiberInv cfg s) {i : Nat} (hi : i < cfg.numThreads)
    (hf : s.mem.running i < cfg.numFibers) :
    fiberAt cfg s (.current i) = some (s.mem.running i) := by
  rcases h.runs i hi with hr | hr
  · omega
  · simp only [fiberAt, if_pos hi, hr]

/-- No agent runs on two threads. -/
theorem running_inj (h : FiberInv cfg s) {i j : Nat} (hi : i < cfg.numThreads)
    (hj : j < cfg.numThreads) (hij : s.mem.running i = s.mem.running j) : i = j := by
  by_cases hf : s.mem.running i < cfg.numFibers
  · have hci := h.current_of_running hi hf
    have hcj := h.current_of_running hj (hij ▸ hf)
    rw [← hij] at hcj
    exact FiberPlace.current.inj (h.linear _ _ _ hci hcj)
  · have key : ∀ i, i < cfg.numThreads → ¬ s.mem.running i < cfg.numFibers →
        s.mem.running i = cfg.numFibers + i := by
      intro i hi hn
      rcases h.runs i hi with hr | hr
      · exact hr
      · exact absurd (h.range (.current i) _ (by simp only [fiberAt, if_pos hi, hr])) hn
    have h1 := key i hi hf
    have h2 := key j hj (hij ▸ hf)
    omega

/-- The running fiber is recorded nowhere else. -/
theorem ne_running (h : FiberInv cfg s) {i : Nat} (hi : i < cfg.numThreads) {P : FiberPlace} {g : Nat}
    (hP : fiberAt cfg s P = some g) (hne : P ≠ .current i) : g ≠ s.mem.running i := by
  rintro rfl
  exact hne (h.linear _ _ _ hP (h.current_of_running hi (h.range _ _ hP)))

/-! ## Steps that stay on the fiber -/

section NoSwitch

variable {i : Nat} {m' : Mem} {p' : PC}

/-- What no step but a switch can change. -/
theorem noSwitch (h : FiberInv cfg s) (hi : i < cfg.numThreads)
    (hrun : ∀ j, m'.running j = s.mem.running j)
    (hcur : ∀ j, (m'.tls j).currentFiberIndex = (s.mem.tls j).currentFiberIndex)
    (hkind : ThreadPC p' ↔ ThreadPC (s.pc (s.mem.running i)))
    (hdone : s.pc (s.mem.running i) ≠ .done)
    (hlin : Linear (fiberAt cfg ⟨m', s.pc.set (s.mem.running i) p'⟩))
    (hrange : ∀ P g, fiberAt cfg ⟨m', s.pc.set (s.mem.running i) p'⟩ P = some g → g < cfg.numFibers)
    (hrest : ∀ P g, fiberAt cfg ⟨m', s.pc.set (s.mem.running i) p'⟩ P = some g →
      Resting ⟨m', s.pc.set (s.mem.running i) p'⟩ P ((s.pc.set (s.mem.running i) p') g))
    (hpool : ∀ j, j < cfg.numThreads → ∀ k v pc,
      (s.pc.set (s.mem.running i) p') (s.mem.running j) = .idleEnq k v pc →
      (m'.tls j).previousFiberDest = .pool ∧ (m'.tls j).previousFiberIndex = some v)
    (hprev : ∀ j, j < cfg.numThreads → (m'.tls j).previousFiberDest ≠ .none →
      (m'.tls j).previousFiberIndex ≠ none) :
    FiberInv cfg ⟨m', s.pc.set (s.mem.running i) p'⟩ where
  linear := hlin
  range := hrange
  resting := hrest
  runs j hj := by
    show m'.running j = _ ∨ (m'.tls j).currentFiberIndex = some (m'.running j)
    rw [hrun, hcur]
    exact h.runs j hj
  thread j hj := by
    show ThreadPC ((s.pc.set _ p') _) ∧ m'.running j = _ ∧ (m'.tls j).currentFiberIndex = none ∨
      (s.pc.set _ p') _ = .done
    rw [hrun, hcur, Table.get_set]
    split
    · rename_i heq
      have hold := h.thread j hj
      rw [heq] at hold
      rcases hold with ⟨hk, hold⟩ | hold
      · exact Or.inl ⟨hkind.2 hk, heq ▸ hold⟩
      · exact absurd hold hdone
    · exact h.thread j hj
  fiber a ha := by
    show ¬ ThreadPC ((s.pc.set _ p') a)
    rw [Table.get_set]
    split
    · rename_i heq
      rw [hkind, ← heq]
      exact h.fiber a ha
    · exact h.fiber a ha
  parked a ha hna := by
    have hna' : ∀ j, j < cfg.numThreads → s.mem.running j ≠ a := fun j hj => hrun j ▸ hna j hj
    show (s.pc.set _ p') a = _ ∨ (∃ k, (s.pc.set _ p') a = _) ∨ (s.pc.set _ p') a = _
    rw [Table.get_set_ne _ _ (hna' i hi).symm]
    exact h.parked a ha hna'
  pooling j hj := by
    show ∀ k v pc, (s.pc.set _ p') (m'.running j) = _ → _
    rw [hrun]
    exact hpool j hj
  previous := hprev

/-- The tokens after a step of agent `f`, place by place. -/
theorem fiberAt_hand (f a : Nat) :
    fiberAt cfg ⟨m', s.pc.set f p'⟩ (.hand a) =
      if a = f then fiberHand m'.idleFibers p' else fiberHand m'.idleFibers (s.pc a) := by
  show fiberHand m'.idleFibers ((s.pc.set f p') a) = _
  rw [Table.get_set]
  split <;> rfl

theorem handedOn_set {f : Nat} (hon : handedOn p' = handedOn (s.pc f)) (a : Nat) :
    handedOn ((s.pc.set f p') a) = handedOn (s.pc a) := by
  rw [Table.get_set]
  split
  · rename_i heq
    rw [hon, heq]
  · rfl

theorem previousFiber_frame {f : Nat} (htls : m'.tls = s.mem.tls)
    (hon : handedOn p' = handedOn (s.pc f)) (j : Nat) :
    previousFiber ⟨m', s.pc.set f p'⟩ j = previousFiber s j := by
  unfold previousFiber Mem.running
  rw [htls, handedOn_set hon]

/-- A step that leaves every token where it is. -/
theorem fiberAt_frame {f : Nat} (hidle : ∀ pos, m'.idleFibers.entry pos = s.mem.idleFibers.entry pos)
    (hlog : m'.idleFibers.log = s.mem.idleFibers.log) (htls : m'.tls = s.mem.tls)
    (hcl : m'.isWaitingCleanedUp = s.mem.isWaitingCleanedUp)
    (hhand : fiberHand s.mem.idleFibers p' = fiberHand s.mem.idleFibers (s.pc f))
    (hon : handedOn p' = handedOn (s.pc f)) :
    fiberAt cfg ⟨m', s.pc.set f p'⟩ = fiberAt cfg s := by
  have hq : ∀ p, fiberHand m'.idleFibers p = fiberHand s.mem.idleFibers p := by
    intro p
    cases p <;> simp [fiberHand, hlog]
  funext P
  cases P with
  | idle pos => exact hidle pos
  | hand a =>
      rw [fiberAt_hand, hq, hq]
      split
      · rename_i heq
        rw [hhand, heq]
        rfl
      · rfl
  | current j =>
      simp only [fiberAt, htls]
  | previous j =>
      simp only [fiberAt, previousFiber_frame htls hon]
  | suspended g => simp only [fiberAt, hcl]

/-- The accesses that have nothing to do with fibers. -/
theorem frame (h : FiberInv cfg s) (hi : i < cfg.numThreads)
    (hidle : ∀ pos, m'.idleFibers.entry pos = s.mem.idleFibers.entry pos)
    (hlog : m'.idleFibers.log = s.mem.idleFibers.log) (htls : m'.tls = s.mem.tls)
    (hcl : m'.isWaitingCleanedUp = s.mem.isWaitingCleanedUp)
    (hhand : fiberHand s.mem.idleFibers p' = fiberHand s.mem.idleFibers (s.pc (s.mem.running i)))
    (hon : handedOn p' = handedOn (s.pc (s.mem.running i)))
    (hres : resuming p' = resuming (s.pc (s.mem.running i)))
    (hkind : ThreadPC p' ↔ ThreadPC (s.pc (s.mem.running i)))
    (hdone : s.pc (s.mem.running i) ≠ .done)
    (hpool : ∀ k v pc, p' = .idleEnq k v pc →
      (s.mem.tls i).previousFiberDest = .pool ∧ (s.mem.tls i).previousFiberIndex = some v) :
    FiberInv cfg ⟨m', s.pc.set (s.mem.running i) p'⟩ := by
  have htok : fiberAt cfg ⟨m', s.pc.set (s.mem.running i) p'⟩ = fiberAt cfg s :=
    fiberAt_frame hidle hlog htls hcl hhand hon
  refine h.noSwitch hi (fun j => by rw [Mem.running, Mem.running, htls]) (fun j => by rw [htls])
    hkind hdone (htok ▸ h.linear) (htok ▸ h.range) ?_ ?_ (fun j hj => htls ▸ h.previous j hj)
  · intro P g hP
    rw [htok] at hP
    have hold := h.resting P g hP
    by_cases hcurrent : P = .current i
    · subst hcurrent
      trivial
    · rw [Table.get_set_ne _ _ (h.ne_running hi hP hcurrent)]
      cases P with
      | idle _ => exact hold
      | current _ => trivial
      | suspended _ => exact hold
      | previous j =>
          simp only [Resting, htls] at hold ⊢
          exact hold
      | hand a =>
          simp only [Resting] at hold ⊢
          by_cases ha : a = s.mem.running i
          · subst ha
            rw [Table.get_set_self, hres]
            exact hold
          · rw [Table.get_set_ne _ _ ha]
            exact hold
  · intro j hj k v pc heq
    rw [htls]
    by_cases hji : s.mem.running j = s.mem.running i
    · obtain rfl := h.running_inj hj hi hji
      rw [Table.get_set_self] at heq
      exact hpool k v pc heq
    · rw [Table.get_set_ne _ _ hji] at heq
      exact h.pooling j hj k v pc heq

/-- A step in which the tokens move but no thread switches.  `hsrc` says where
each token was, and that it rests the same way there. -/
theorem moved (h : FiberInv cfg s) (hi : i < cfg.numThreads)
    (hlin : Linear (fiberAt cfg ⟨m', s.pc.set (s.mem.running i) p'⟩))
    (hsrc : ∀ P g, fiberAt cfg ⟨m', s.pc.set (s.mem.running i) p'⟩ P = some g →
      P = .current i ∧ fiberAt cfg s P = some g ∨
      ∃ Q, Q ≠ .current i ∧ fiberAt cfg s Q = some g ∧ (Resting s Q (s.pc g) →
        Resting ⟨m', s.pc.set (s.mem.running i) p'⟩ P (s.pc g)))
    (hrun : ∀ j, m'.running j = s.mem.running j)
    (hcur : ∀ j, (m'.tls j).currentFiberIndex = (s.mem.tls j).currentFiberIndex)
    (hkind : ThreadPC p' ↔ ThreadPC (s.pc (s.mem.running i)))
    (hdone : s.pc (s.mem.running i) ≠ .done)
    (hpool : ∀ k v pc, p' = .idleEnq k v pc →
      (m'.tls i).previousFiberDest = .pool ∧ (m'.tls i).previousFiberIndex = some v)
    (htls : ∀ j, j ≠ i → m'.tls j = s.mem.tls j)
    (hprev : (m'.tls i).previousFiberDest ≠ .none → (m'.tls i).previousFiberIndex ≠ none) :
    FiberInv cfg ⟨m', s.pc.set (s.mem.running i) p'⟩ := by
  refine h.noSwitch hi hrun hcur hkind hdone hlin ?_ ?_ ?_ ?_
  · intro P g hP
    rcases hsrc P g hP with ⟨-, hQ⟩ | ⟨Q, -, hQ, -⟩ <;> exact h.range _ g hQ
  · intro P g hP
    rcases hsrc P g hP with ⟨rfl, -⟩ | ⟨Q, hne, hQ, hrest⟩
    · trivial
    · rw [Table.get_set_ne _ _ (h.ne_running hi hQ hne)]
      exact hrest (h.resting Q g hQ)
  · intro j hj k v pc heq
    by_cases hji : s.mem.running j = s.mem.running i
    · obtain rfl := h.running_inj hj hi hji
      rw [Table.get_set_self] at heq
      exact hpool k v pc heq
    · rw [Table.get_set_ne _ _ hji] at heq
      rw [htls j fun hne => hji (by rw [hne])]
      exact h.pooling j hj k v pc heq
  · intro j hj
    by_cases hji : j = i
    · rw [hji]
      exact hprev
    · rw [htls j hji]
      exact h.previous j hj

/-! ## The idle queue -/

theorem fiberHand_congr {q q' : Mpmc Nat} (hlog : q'.log = q.log) (p : PC) :
    fiberHand q' p = fiberHand q p := by
  cases p <;> simp [fiberHand, hlog]

/-- Appending to the queue does not change what the agents have taken out. -/
theorem fiberHand_append (hq : QueueInv s) {q' : Mpmc Nat} {v : Nat}
    (hlog : q'.log = s.mem.idleFibers.log ++ [v]) (a : Nat) :
    fiberHand q' (s.pc a) = fiberHand s.mem.idleFibers (s.pc a) := by
  cases hp : s.pc a with
  | idleDeq k pc =>
      cases hc : pc.claimed with
      | none => simp [fiberHand, hc]
      | some pos =>
          have hclaim : (roles idleCaller s.pc a).claimed = some (.inr pos) := by
            show (idleCaller (s.pc a)).claimed = _
            rw [hp]
            cases pc <;> cases hc <;> rfl
          have hsome := (hq.idle.claimed_dequeue hclaim).2.2.2
          simp only [fiberHand, hc, Option.bind_some, hlog]
          rw [hsome]
          exact Mpmc.Inv.log_append v hsome
  | _ => rfl

theorem take_moved (hpc : ∃ k pc, s.pc (s.mem.running i) = .idleDeq k pc ∧ pc.claimed = none)
    {k : AcquireK} {pc' : DequeuePC Nat} (hclaim : pc'.claimed = some s.mem.idleFibers.dequeuePos)
    (hlog : m'.idleFibers.log = s.mem.idleFibers.log)
    (hdeq : m'.idleFibers.dequeuePos = s.mem.idleFibers.dequeuePos + 1)
    (htls : m'.tls = s.mem.tls) (hcl : m'.isWaitingCleanedUp = s.mem.isWaitingCleanedUp) :
    Moved (fiberAt cfg s) (fiberAt cfg ⟨m', s.pc.set (s.mem.running i) (.idleDeq k pc')⟩)
      (.idle s.mem.idleFibers.dequeuePos) (.hand (s.mem.running i)) where
  gone := by
    show m'.idleFibers.entry _ = none
    rw [Mpmc.entry_take hlog hdeq, if_pos rfl]
  here := by
    rw [fiberAt_hand, if_pos rfl]
    show (pc'.claimed.bind fun pos => m'.idleFibers.log[pos]?) = s.mem.idleFibers.entry _
    rw [Mpmc.entry_dequeuePos, hclaim, hlog]
    rfl
  free := by
    obtain ⟨k', pc, hpc, hnone⟩ := hpc
    simp only [fiberAt, hpc, fiberHand, hnone, Option.bind_none]
  other P h1 h2 := by
    cases P with
    | idle pos =>
        show m'.idleFibers.entry pos = _
        rw [Mpmc.entry_take hlog hdeq, if_neg fun heq => h1 (by rw [heq])]
        rfl
    | hand a =>
        rw [fiberAt_hand, if_neg fun heq => h2 (by rw [heq]), fiberHand_congr hlog]
        rfl
    | current j => simp only [fiberAt, htls]
    | previous j =>
        have hon : handedOn (.idleDeq k pc') = handedOn (s.pc (s.mem.running i)) := by
          obtain ⟨k', pc, hpc, -⟩ := hpc
          rw [hpc]
          rfl
        simp only [fiberAt, previousFiber_frame htls hon]
    | suspended g => simp only [fiberAt, hcl]

/-- A dequeue of `acquireFreeFiber` takes the oldest idle fiber. -/
theorem take (h : FiberInv cfg s) (hi : i < cfg.numThreads) {k : AcquireK}
    {pc' : DequeuePC Nat} (hpc : s.pc (s.mem.running i) = .idleDeq k (.claim s.mem.idleFibers.dequeuePos))
    (hclaim : pc'.claimed = some s.mem.idleFibers.dequeuePos)
    (hlog : m'.idleFibers.log = s.mem.idleFibers.log)
    (hdeq : m'.idleFibers.dequeuePos = s.mem.idleFibers.dequeuePos + 1)
    (htls : m'.tls = s.mem.tls) (hcl : m'.isWaitingCleanedUp = s.mem.isWaitingCleanedUp)
    (hp' : p' = .idleDeq k pc') : FiberInv cfg ⟨m', s.pc.set (s.mem.running i) p'⟩ := by
  subst hp'
  have hmoved : Moved (fiberAt cfg s)
      (fiberAt cfg ⟨m', s.pc.set (s.mem.running i) (.idleDeq k pc')⟩) _ _ :=
    take_moved ⟨k, _, hpc, rfl⟩ hclaim hlog hdeq htls hcl
  refine h.moved hi (hmoved.linear h.linear) ?_ (fun j => by rw [Mem.running, Mem.running, htls])
    (fun j => by rw [htls]) ?_ (by rw [hpc]; simp) (by simp) (fun j _ => by rw [htls])
    (htls ▸ h.previous i hi)
  · intro P g hP
    rcases hmoved.source hP with ⟨rfl, hfrom⟩ | ⟨h1, h2, hold⟩
    · refine Or.inr ⟨.idle s.mem.idleFibers.dequeuePos, by simp, hfrom, fun hrest => ?_⟩
      simpa [Resting, resuming] using hrest
    · by_cases hcurrent : P = .current i
      · exact Or.inl ⟨hcurrent, hold⟩
      · refine Or.inr ⟨P, hcurrent, hold, fun hrest => ?_⟩
        cases P with
        | hand a =>
            have ha : a ≠ s.mem.running i := fun heq => h2 (by rw [heq])
            simpa [Resting, Table.get_set_ne _ _ ha] using hrest
        | previous j => simpa [Resting, htls] using hrest
        | _ => exact hrest
  · rw [hpc]
    simp [ThreadPC]

theorem previousFiber_other (h : FiberInv cfg s) (hi : i < cfg.numThreads) {j : Nat}
    (hj : j < cfg.numThreads) (hji : j ≠ i) (htls : m'.tls j = s.mem.tls j) :
    previousFiber ⟨m', s.pc.set (s.mem.running i) p'⟩ j = previousFiber s j := by
  have hne : s.mem.running j ≠ s.mem.running i := fun heq => hji (h.running_inj hj hi heq)
  unfold previousFiber
  show (if (m'.tls j).previousFiberDest ≠ .none ∧
      handedOn ((s.pc.set (s.mem.running i) p') (m'.tls j).running) = false then
    (m'.tls j).previousFiberIndex else none) = _
  rw [htls, show (s.mem.tls j).running = s.mem.running j from rfl, Table.get_set_ne _ _ hne]

theorem put_moved (h : FiberInv cfg s) (hq : QueueInv s) (hi : i < cfg.numThreads) {k : CleanK}
    {v : Nat} {pc pc' : EnqueuePC} (hpc : s.pc (s.mem.running i) = .idleEnq k v pc)
    (hbefore : pc.claimed = false) (hafter : pc'.claimed = true)
    (hlog : m'.idleFibers.log = s.mem.idleFibers.log ++ [v])
    (hdeq : m'.idleFibers.dequeuePos = s.mem.idleFibers.dequeuePos)
    (htls : m'.tls = s.mem.tls) (hcl : m'.isWaitingCleanedUp = s.mem.isWaitingCleanedUp) :
    fiberAt cfg s (.previous i) = some v ∧
      Moved (fiberAt cfg s) (fiberAt cfg ⟨m', s.pc.set (s.mem.running i) (.idleEnq k v pc')⟩)
        (.previous i) (.idle s.mem.idleFibers.log.length) := by
  obtain ⟨hdest, hprevious⟩ := h.pooling i hi k v pc hpc
  have hle : s.mem.idleFibers.dequeuePos ≤ s.mem.idleFibers.log.length := by
    rw [hq.idle.log_length]
    exact hq.idle.deq_le
  have hfrom : fiberAt cfg s (.previous i) = some v := by
    simp [fiberAt, hi, previousFiber, hdest, hprevious, hpc, handedOn, hbefore]
  have hidle : ∀ pos, fiberAt cfg ⟨m', s.pc.set (s.mem.running i) (.idleEnq k v pc')⟩ (.idle pos) =
      if pos = s.mem.idleFibers.log.length then some v else fiberAt cfg s (.idle pos) :=
    fun pos => Mpmc.entry_put hlog hdeq hle pos
  refine ⟨hfrom, ?_, ?_, Mpmc.entry_length _, ?_⟩
  · have hrun : m'.running i = s.mem.running i := by rw [Mem.running, Mem.running, htls]
    simp [fiberAt, previousFiber, hrun, handedOn, hafter]
  · rw [hidle, if_pos rfl, hfrom]
  · intro P h1 h2
    cases P with
    | idle pos => rw [hidle, if_neg fun heq => h2 (by rw [heq])]
    | hand a =>
        rw [fiberAt_hand, fiberHand_append hq hlog]
        split
        · rename_i heq
          show none = fiberHand _ (s.pc a)
          rw [heq, hpc]
          rfl
        · rfl
    | current j => simp only [fiberAt, htls]
    | previous j =>
        by_cases hj : j < cfg.numThreads
        · simp only [fiberAt, if_pos hj]
          exact h.previousFiber_other hi hj (fun heq => h1 (by rw [heq])) (by rw [htls])
        · simp only [fiberAt, if_neg hj]
    | suspended g => simp only [fiberAt, hcl]

/-- `cleanUpPrevFiber` puts the previous fiber into the idle queue. -/
theorem put (h : FiberInv cfg s) (hq : QueueInv s) (hi : i < cfg.numThreads) {k : CleanK} {v : Nat}
    {pc pc' : EnqueuePC} (hpc : s.pc (s.mem.running i) = .idleEnq k v pc)
    (hbefore : pc.claimed = false) (hafter : pc'.claimed = true)
    (hlog : m'.idleFibers.log = s.mem.idleFibers.log ++ [v])
    (hdeq : m'.idleFibers.dequeuePos = s.mem.idleFibers.dequeuePos)
    (htls : m'.tls = s.mem.tls) (hcl : m'.isWaitingCleanedUp = s.mem.isWaitingCleanedUp)
    (hp' : p' = .idleEnq k v pc') : FiberInv cfg ⟨m', s.pc.set (s.mem.running i) p'⟩ := by
  subst hp'
  obtain ⟨hdest, hprevious⟩ := h.pooling i hi k v pc hpc
  obtain ⟨-, hmoved⟩ := h.put_moved hq hi hpc hbefore hafter hlog hdeq htls hcl
  refine h.moved hi (hmoved.linear h.linear) ?_ (fun j => by rw [Mem.running, Mem.running, htls])
    (fun j => by rw [htls]) ?_ (by rw [hpc]; simp) ?_ (fun j _ => by rw [htls])
    (htls ▸ h.previous i hi)
  · intro P g hP
    rcases hmoved.source hP with ⟨rfl, hfrom⟩ | ⟨-, -, hold⟩
    · refine Or.inr ⟨.previous i, by simp, hfrom, fun hrest => ?_⟩
      simp only [Resting, hdest] at hrest
      exact Or.inr hrest
    · by_cases hcurrent : P = .current i
      · exact Or.inl ⟨hcurrent, hold⟩
      · refine Or.inr ⟨P, hcurrent, hold, fun hrest => ?_⟩
        cases P with
        | hand a =>
            by_cases ha : a = s.mem.running i
            · subst ha
              simp only [Resting, hpc] at hrest
              simpa [Resting, resuming] using hrest
            · simpa [Resting, Table.get_set_ne _ _ ha] using hrest
        | previous j => simpa [Resting, htls] using hrest
        | _ => exact hrest
  · rw [hpc]
    simp [ThreadPC]
  · intro k' v' pc'' heq
    obtain ⟨rfl, rfl, -⟩ := PC.idleEnq.inj heq
    rw [htls]
    exact ⟨hdest, hprevious⟩

/-- A continuation of `cleanUpPrevFiber` holds no fiber. -/
theorem afterClean_hand (q : Mpmc Nat) (k : CleanK) : fiberHand q (afterClean k) = none ∧
    handedOn (afterClean k) = false ∧ resuming (afterClean k) = false ∧ ¬ ThreadPC (afterClean k) ∧
    ∀ k' v pc, afterClean k ≠ .idleEnq k' v pc := by
  rcases k with _ | _ | (_ | _) <;> simp [afterClean, fiberHand, handedOn, resuming, ThreadPC]

theorem resting_congr {P : FiberPlace} {p : PC}
    (hres : P = .hand (s.mem.running i) → resuming p' = resuming (s.pc (s.mem.running i)))
    (htls : ∀ j, P = .previous j → m'.tls j = s.mem.tls j) (hrest : Resting s P p) :
    Resting ⟨m', s.pc.set (s.mem.running i) p'⟩ P p := by
  cases P with
  | hand a =>
      by_cases ha : a = s.mem.running i
      · subst ha
        simp only [Resting, Table.get_set_self, hres rfl]
        exact hrest
      · simp only [Resting, Table.get_set_ne _ _ ha]
        exact hrest
  | previous j =>
      simp only [Resting, htls j rfl]
      exact hrest
  | current j => trivial
  | _ => exact hrest

/-- The enqueue of `cleanUpPrevFiber` has returned, and the record of the
previous fiber is cleared. -/
theorem finishClean (h : FiberInv cfg s) (hi : i < cfg.numThreads) {k : CleanK} {v : Nat}
    {pc : EnqueuePC} (hpc : s.pc (s.mem.running i) = .idleEnq k v pc)
    (hlog : m'.idleFibers.log = s.mem.idleFibers.log)
    (hdeq : m'.idleFibers.dequeuePos = s.mem.idleFibers.dequeuePos)
    (htls : m'.tls = s.mem.tls.set i
      { s.mem.tls i with previousFiberIndex := none, previousFiberDest := .none })
    (hcl : m'.isWaitingCleanedUp = s.mem.isWaitingCleanedUp) (hp' : p' = afterClean k) :
    FiberInv cfg ⟨m', s.pc.set (s.mem.running i) p'⟩ := by
  subst hp'
  obtain ⟨hhand, hon, hres, hkind, hpool⟩ := afterClean_hand m'.idleFibers k
  have hself : m'.tls i =
      { s.mem.tls i with previousFiberIndex := none, previousFiberDest := .none } := by
    rw [htls, Table.get_set_self]
  have hne : ∀ j, j ≠ i → m'.tls j = s.mem.tls j := fun j hj => by rw [htls, Table.get_set_ne _ _ hj]
  have hsub : ∀ P g, fiberAt cfg ⟨m', s.pc.set (s.mem.running i) (afterClean k)⟩ P = some g →
      (∀ j, P = .previous j → j ≠ i) ∧ fiberAt cfg s P = some g := by
    intro P g hP
    cases P with
    | idle pos => exact ⟨by simp, (Mpmc.entry_congr hlog hdeq pos).symm.trans hP⟩
    | hand a =>
        refine ⟨by simp, ?_⟩
        rw [fiberAt_hand, hhand, fiberHand_congr hlog] at hP
        split at hP
        · cases hP
        · exact hP
    | current j =>
        refine ⟨by simp, ?_⟩
        by_cases hji : j = i
        · subst hji
          simpa [fiberAt, hself] using hP
        · simpa [fiberAt, hne j hji] using hP
    | previous j =>
        by_cases hj : j < cfg.numThreads
        · by_cases hji : j = i
          · subst hji
            simp [fiberAt, previousFiber, hself] at hP
          · refine ⟨fun j' heq => by rw [← FiberPlace.previous.inj heq]; exact hji, ?_⟩
            simp only [fiberAt, if_pos hj] at hP ⊢
            rwa [h.previousFiber_other hi hj hji (hne j hji)] at hP
        · simp [fiberAt, hj] at hP
    | suspended g' => exact ⟨by simp, by simpa only [fiberAt, hcl] using hP⟩
  refine h.moved hi (h.linear.mono fun P r hr => (hsub P r hr).2) ?_ ?_ ?_ ?_
    (by rw [hpc]; simp) (fun k' v' pc' heq => absurd heq (hpool k' v' pc')) hne ?_
  · intro P g hP
    obtain ⟨hP1, hP2⟩ := hsub P g hP
    by_cases hcurrent : P = .current i
    · exact Or.inl ⟨hcurrent, hP2⟩
    · refine Or.inr ⟨P, hcurrent, hP2, resting_congr (fun _ => ?_) fun j hj => hne j (hP1 j hj)⟩
      rw [hres, hpc]
      rfl
  · intro j
    by_cases hji : j = i
    · subst hji
      rw [Mem.running, hself]
      rfl
    · rw [Mem.running, Mem.running, hne j hji]
  · intro j
    by_cases hji : j = i
    · subst hji
      rw [hself]
    · rw [hne j hji]
  · rw [hpc]
    exact ⟨fun ht => absurd ht hkind, fun ht => by simp [ThreadPC] at ht⟩
  · rw [hself]
    exact fun hn => absurd rfl hn

/-! ## Suspending and resuming -/

theorem suspend_moved (h : FiberInv cfg s) (hi : i < cfg.numThreads) {k : CleanK} {v : Nat}
    (hpc : s.pc (s.mem.running i) = .clean k)
    (hdest : (s.mem.tls i).previousFiberDest = .waiting)
    (hprevious : (s.mem.tls i).previousFiberIndex = some v)
    (hidle : m'.idleFibers = s.mem.idleFibers)
    (htls : m'.tls = s.mem.tls.set i
      { s.mem.tls i with previousFiberIndex := none, previousFiberDest := .none })
    (hcl : m'.isWaitingCleanedUp = s.mem.isWaitingCleanedUp.set v true) :
    fiberAt cfg s (.previous i) = some v ∧
      Moved (fiberAt cfg s) (fiberAt cfg ⟨m', s.pc.set (s.mem.running i) (afterClean k)⟩)
        (.previous i) (.suspended v) := by
  obtain ⟨hhand, -, -, -, -⟩ := afterClean_hand m'.idleFibers k
  have hself : m'.tls i =
      { s.mem.tls i with previousFiberIndex := none, previousFiberDest := .none } := by
    rw [htls, Table.get_set_self]
  have hne : ∀ j, j ≠ i → m'.tls j = s.mem.tls j := fun j hj => by rw [htls, Table.get_set_ne _ _ hj]
  have hfrom : fiberAt cfg s (.previous i) = some v := by
    simp [fiberAt, hi, previousFiber, hdest, hprevious, hpc, handedOn]
  refine ⟨hfrom, ?_, ?_, ?_, ?_⟩
  · simp [fiberAt, previousFiber, hself]
  · rw [hfrom]
    simp [fiberAt, hcl]
  · -- otherwise it would be in two places
    cases hfree : fiberAt cfg s (.suspended v) with
    | none => rfl
    | some g =>
        have hg : g = v := by
          simp only [fiberAt] at hfree
          split at hfree <;> simp_all
        rw [hg] at hfree
        cases h.linear _ _ _ hfrom hfree
  · intro P h1 h2
    cases P with
    | idle pos =>
        show m'.idleFibers.entry pos = _
        rw [hidle]
        rfl
    | hand a =>
        rw [fiberAt_hand, hhand, hidle]
        split
        · rename_i heq
          show none = fiberHand _ (s.pc a)
          rw [heq, hpc]
          rfl
        · rfl
    | current j =>
        by_cases hji : j = i
        · subst hji
          simp only [fiberAt, hself]
        · simp only [fiberAt, hne j hji]
    | previous j =>
        by_cases hj : j < cfg.numThreads
        · have hji : j ≠ i := fun heq => h1 (by rw [heq])
          simp only [fiberAt, if_pos hj, h.previousFiber_other hi hj hji (hne j hji)]
        · simp only [fiberAt, if_neg hj]
    | suspended g =>
        have hg : g ≠ v := fun heq => h2 (by rw [heq])
        simp only [fiberAt, hcl, Table.get_set_ne _ _ hg]

/-- `cleanUpPrevFiber` lets the previous fiber be resumed from now on. -/
theorem suspend (h : FiberInv cfg s) (hi : i < cfg.numThreads) {k : CleanK} {v : Nat}
    (hpc : s.pc (s.mem.running i) = .clean k)
    (hdest : (s.mem.tls i).previousFiberDest = .waiting)
    (hprevious : (s.mem.tls i).previousFiberIndex = some v)
    (hidle : m'.idleFibers = s.mem.idleFibers)
    (htls : m'.tls = s.mem.tls.set i
      { s.mem.tls i with previousFiberIndex := none, previousFiberDest := .none })
    (hcl : m'.isWaitingCleanedUp = s.mem.isWaitingCleanedUp.set v true) (hp' : p' = afterClean k) :
    FiberInv cfg ⟨m', s.pc.set (s.mem.running i) p'⟩ := by
  subst hp'
  obtain ⟨-, -, hres, hkind, hpool⟩ := afterClean_hand m'.idleFibers k
  have hself : m'.tls i =
      { s.mem.tls i with previousFiberIndex := none, previousFiberDest := .none } := by
    rw [htls, Table.get_set_self]
  have hne : ∀ j, j ≠ i → m'.tls j = s.mem.tls j := fun j hj => by rw [htls, Table.get_set_ne _ _ hj]
  obtain ⟨-, hmoved⟩ := h.suspend_moved hi hpc hdest hprevious hidle htls hcl
  refine h.moved hi (hmoved.linear h.linear) ?_ ?_ ?_ ?_
    (by rw [hpc]; simp) (fun k' v' pc' heq => absurd heq (hpool k' v' pc')) hne ?_
  · intro P g hP
    rcases hmoved.source hP with ⟨rfl, hfrom⟩ | ⟨h1, -, hold⟩
    · refine Or.inr ⟨.previous i, by simp, hfrom, fun hrest => ?_⟩
      simpa only [Resting, hdest] using hrest
    · by_cases hcurrent : P = .current i
      · exact Or.inl ⟨hcurrent, hold⟩
      · refine Or.inr ⟨P, hcurrent, hold, resting_congr (fun _ => ?_) fun j hj => hne j fun heq => ?_⟩
        · rw [hres, hpc]
          rfl
        · exact h1 (by rw [hj, heq])
  · intro j
    by_cases hji : j = i
    · subst hji
      rw [Mem.running, hself]
      rfl
    · rw [Mem.running, Mem.running, hne j hji]
  · intro j
    by_cases hji : j = i
    · subst hji
      rw [hself]
    · rw [hne j hji]
  · rw [hpc]
    exact ⟨fun ht => absurd ht hkind, fun ht => by simp [ThreadPC] at ht⟩
  · rw [hself]
    exact fun hn => absurd rfl hn

theorem resume_moved {src : ResumeSource} {v : Wake}
    (hpc : s.pc (s.mem.running i) = .tryResume src v)
    (hwaiting : s.mem.isWaitingCleanedUp v.fiber = true)
    (hidle : m'.idleFibers = s.mem.idleFibers) (htls : m'.tls = s.mem.tls)
    (hcl : m'.isWaitingCleanedUp = s.mem.isWaitingCleanedUp.set v.fiber false) :
    Moved (fiberAt cfg s)
      (fiberAt cfg ⟨m', s.pc.set (s.mem.running i) (.yieldTo v.fiber (.resume src))⟩)
      (.suspended v.fiber) (.hand (s.mem.running i)) where
  gone := by simp [fiberAt, hcl]
  here := by
    rw [fiberAt_hand, if_pos rfl]
    simp [fiberAt, fiberHand, hwaiting]
  free := by simp only [fiberAt, hpc, fiberHand]
  other P h1 h2 := by
    have hon : handedOn (.yieldTo v.fiber (.resume src)) = handedOn (s.pc (s.mem.running i)) := by
      rw [hpc]
      rfl
    cases P with
    | idle pos =>
        show m'.idleFibers.entry pos = _
        rw [hidle]
        rfl
    | hand a =>
        rw [fiberAt_hand, if_neg fun heq => h2 (by rw [heq]), hidle]
        rfl
    | current j => simp only [fiberAt, htls]
    | previous j => simp only [fiberAt, previousFiber_frame htls hon]
    | suspended g =>
        have hg : g ≠ v.fiber := fun heq => h1 (by rw [heq])
        simp only [fiberAt, hcl, Table.get_set_ne _ _ hg]

/-- A successful `tryResumeFiber` claims the suspended fiber. -/
theorem resume (h : FiberInv cfg s) (hi : i < cfg.numThreads) {src : ResumeSource} {v : Wake}
    (hpc : s.pc (s.mem.running i) = .tryResume src v)
    (hwaiting : s.mem.isWaitingCleanedUp v.fiber = true)
    (hidle : m'.idleFibers = s.mem.idleFibers) (htls : m'.tls = s.mem.tls)
    (hcl : m'.isWaitingCleanedUp = s.mem.isWaitingCleanedUp.set v.fiber false)
    (hp' : p' = .yieldTo v.fiber (.resume src)) :
    FiberInv cfg ⟨m', s.pc.set (s.mem.running i) p'⟩ := by
  subst hp'
  have hmoved : Moved (fiberAt cfg s) (fiberAt cfg
      ⟨m', s.pc.set (s.mem.running i) (.yieldTo v.fiber (.resume src))⟩) _ _ :=
    resume_moved hpc hwaiting hidle htls hcl
  refine h.moved hi (hmoved.linear h.linear) ?_ (fun j => by rw [Mem.running, Mem.running, htls])
    (fun j => by rw [htls]) ?_ (by rw [hpc]; simp) (by simp) (fun j _ => by rw [htls])
    (htls ▸ h.previous i hi)
  · intro P g hP
    rcases hmoved.source hP with ⟨rfl, hfrom⟩ | ⟨-, h2, hold⟩
    · refine Or.inr ⟨.suspended v.fiber, by simp, hfrom, fun hrest => ?_⟩
      simpa [Resting, resuming] using hrest
    · by_cases hcurrent : P = .current i
      · exact Or.inl ⟨hcurrent, hold⟩
      · exact Or.inr ⟨P, hcurrent, hold, resting_congr (fun heq => absurd heq h2)
          fun j _ => by rw [htls]⟩
  · rw [hpc]
    simp [ThreadPC]

theorem clear_tokens (h : FiberInv cfg s) (hi : i < cfg.numThreads) {w : WaitCall}
    (hpc : s.pc (s.mem.running i) = .waitStore w)
    (hidle : m'.idleFibers = s.mem.idleFibers) (htls : m'.tls = s.mem.tls)
    (hcl : m'.isWaitingCleanedUp = s.mem.isWaitingCleanedUp.set (s.mem.running i) false) :
    fiberAt cfg ⟨m', s.pc.set (s.mem.running i) (.add w 0 .acquire)⟩ = fiberAt cfg s := by
  have hon : handedOn (.add w 0 .acquire) = handedOn (s.pc (s.mem.running i)) := by
    rw [hpc]
    rfl
  funext P
  cases P with
  | idle pos =>
      show m'.idleFibers.entry pos = _
      rw [hidle]
      rfl
  | hand a =>
      rw [fiberAt_hand, hidle]
      split
      · rename_i heq
        simp only [fiberAt, heq, hpc, fiberHand]
      · rfl
  | current j => simp only [fiberAt, htls]
  | previous j => simp only [fiberAt, previousFiber_frame htls hon]
  | suspended g =>
      simp only [fiberAt, hcl, Table.get_set]
      split
      · rename_i hg
        cases hw : s.mem.isWaitingCleanedUp g with
        | false => rfl
        | true =>
            have hs : fiberAt cfg s (.suspended g) = some g := by simp [fiberAt, hw]
            exact absurd hg (h.ne_running hi hs (by simp))
      · rfl

/-- `wait` clears the flag of its own fiber, which is not suspended. -/
theorem clear (h : FiberInv cfg s) (hi : i < cfg.numThreads) {w : WaitCall}
    (hpc : s.pc (s.mem.running i) = .waitStore w)
    (hidle : m'.idleFibers = s.mem.idleFibers) (htls : m'.tls = s.mem.tls)
    (hcl : m'.isWaitingCleanedUp = s.mem.isWaitingCleanedUp.set (s.mem.running i) false)
    (hp' : p' = .add w 0 .acquire) : FiberInv cfg ⟨m', s.pc.set (s.mem.running i) p'⟩ := by
  subst hp'
  have htok : fiberAt cfg ⟨m', s.pc.set (s.mem.running i) (.add w 0 .acquire)⟩ = fiberAt cfg s :=
    h.clear_tokens hi hpc hidle htls hcl
  refine h.moved hi (htok ▸ h.linear) ?_ (fun j => by rw [Mem.running, Mem.running, htls])
    (fun j => by rw [htls]) ?_ (by rw [hpc]; simp) (by simp) (fun j _ => by rw [htls])
    (htls ▸ h.previous i hi)
  · intro P g hP
    rw [htok] at hP
    by_cases hcurrent : P = .current i
    · exact Or.inl ⟨hcurrent, hP⟩
    · refine Or.inr ⟨P, hcurrent, hP, resting_congr (fun _ => ?_) fun j _ => by rw [htls]⟩
      rw [hpc]
      rfl
  · rw [hpc]
    simp [ThreadPC]

end NoSwitch

/-! ## Fiber switches -/

section Switch

variable {i : Nat} {m' : Mem} {p' : PC} {t' : Tls}

theorem running_ne_thread (h : FiberInv cfg s) (hi : i < cfg.numThreads) {j : Nat} (hji : j ≠ i) :
    s.mem.running i ≠ cfg.numFibers + j := by
  intro heq
  rcases h.runs i hi with hr | hr
  · omega
  · have hrange := h.range (.current i) (s.mem.running i) (by simp only [fiberAt, if_pos hi, hr])
    omega

/-- An agent at an access that no thread fiber makes is a fiber. -/
theorem current_of_pc (h : FiberInv cfg s) (hi : i < cfg.numThreads)
    (hkind : ¬ ThreadPC (s.pc (s.mem.running i))) (hdone : s.pc (s.mem.running i) ≠ .done) :
    (s.mem.tls i).currentFiberIndex = some (s.mem.running i) := by
  rcases h.runs i hi with hr | hr
  · rw [hr] at hkind hdone
    rcases h.thread i hi with ⟨ht, -⟩ | hd
    · exact absurd ht hkind
    · exact absurd hd hdone
  · exact hr

/-- Thread `i` switches to the agent `t'.running`. -/
theorem switched (h : FiberInv cfg s) (hi : i < cfg.numThreads) (htls : m'.tls = s.mem.tls.set i t')
    (hlin : Linear (fiberAt cfg ⟨m', s.pc.set (s.mem.running i) p'⟩))
    (hsrc : ∀ P g, fiberAt cfg ⟨m', s.pc.set (s.mem.running i) p'⟩ P = some g →
      (∃ Q, fiberAt cfg s Q = some g) ∧ Resting ⟨m', s.pc.set (s.mem.running i) p'⟩ P
        (if g = s.mem.running i then p' else s.pc g))
    (hruns : t'.running = cfg.numFibers + i ∨ t'.currentFiberIndex = some t'.running)
    (hthread : (s.pc.set (s.mem.running i) p') (cfg.numFibers + i) = .done)
    (hkind : ¬ ThreadPC p')
    (hpark : (∃ k, p' = .clean (.yielded k)) ∨ p' = .done)
    (hpool : ∀ k v pc, (s.pc.set (s.mem.running i) p') t'.running ≠ .idleEnq k v pc)
    (hprev : t'.previousFiberDest ≠ .none → t'.previousFiberIndex ≠ none) :
    FiberInv cfg ⟨m', s.pc.set (s.mem.running i) p'⟩ where
  linear := hlin
  range P g hP := by
    obtain ⟨⟨Q, hQ⟩, -⟩ := hsrc P g hP
    exact h.range Q g hQ
  resting P g hP := by
    show Resting _ P ((s.pc.set _ p') g)
    rw [Table.get_set]
    exact (hsrc P g hP).2
  runs j hj := by
    show (m'.tls j).running = _ ∨ (m'.tls j).currentFiberIndex = some (m'.tls j).running
    by_cases hji : j = i
    · rw [hji, htls, Table.get_set_self]
      exact hruns
    · rw [htls, Table.get_set_ne _ _ hji]
      exact h.runs j hj
  thread j hj := by
    show ThreadPC ((s.pc.set _ p') _) ∧ (m'.tls j).running = _ ∧ (m'.tls j).currentFiberIndex = none ∨
      (s.pc.set _ p') _ = .done
    by_cases hji : j = i
    · rw [hji]
      exact Or.inr hthread
    · rw [htls, Table.get_set_ne _ _ hji, Table.get_set_ne _ _ (h.running_ne_thread hi hji).symm]
      exact h.thread j hj
  fiber a ha := by
    show ¬ ThreadPC ((s.pc.set _ p') a)
    rw [Table.get_set]
    split
    · exact hkind
    · exact h.fiber a ha
  parked a ha hna := by
    show (s.pc.set _ p') a = _ ∨ (∃ k, (s.pc.set _ p') a = _) ∨ (s.pc.set _ p') a = _
    by_cases hf : a = s.mem.running i
    · rw [hf, Table.get_set_self]
      exact Or.inr hpark
    · rw [Table.get_set_ne _ _ hf]
      refine h.parked a ha fun j hj => ?_
      by_cases hji : j = i
      · rw [hji]
        exact fun heq => hf heq.symm
      · have hrun := hna j hj
        rwa [show (Mem.running m' j) = s.mem.running j by
          rw [Mem.running, Mem.running, htls, Table.get_set_ne _ _ hji]] at hrun
  pooling j hj k v pc heq := by
    replace heq : (s.pc.set (s.mem.running i) p') (m'.tls j).running = .idleEnq k v pc := heq
    show (m'.tls j).previousFiberDest = _ ∧ (m'.tls j).previousFiberIndex = _
    by_cases hji : j = i
    · rw [hji, htls, Table.get_set_self] at heq
      exact absurd heq (hpool k v pc)
    · have hrun : s.mem.running j ≠ s.mem.running i := fun hne => hji (h.running_inj hj hi hne)
      rw [htls, Table.get_set_ne _ _ hji] at heq ⊢
      replace heq : (s.pc.set (s.mem.running i) p') (s.mem.running j) = .idleEnq k v pc := heq
      rw [Table.get_set_ne _ _ hrun] at heq
      exact h.pooling j hj k v pc heq
  previous j hj := by
    show (m'.tls j).previousFiberDest ≠ _ → (m'.tls j).previousFiberIndex ≠ _
    by_cases hji : j = i
    · rw [hji, htls, Table.get_set_self]
      exact hprev
    · rw [htls, Table.get_set_ne _ _ hji]
      exact h.previous j hj

theorem previousFiber_switch (htls : m'.tls = s.mem.tls.set i t')
    (hrun : handedOn ((s.pc.set (s.mem.running i) p') t'.running) = false) :
    previousFiber ⟨m', s.pc.set (s.mem.running i) p'⟩ i =
      if t'.previousFiberDest ≠ .none then t'.previousFiberIndex else none := by
  simp only [previousFiber, Mem.running, htls, Table.get_set_self]
  rw [show handedOn ((s.pc.set (s.mem.tls i).running p') t'.running) = false from hrun]
  simp

/-- A parked fiber has handed on no previous fiber and is in no idle enqueue. -/
theorem parked_quiet (h : FiberInv cfg s) {P : FiberPlace} {g : Nat} (hP : fiberAt cfg s P = some g)
    (hplace : ∃ a, P = .hand a) :
    handedOn (s.pc g) = false ∧ ∀ k v pc, s.pc g ≠ .idleEnq k v pc := by
  obtain ⟨a, rfl⟩ := hplace
  have hrest := h.resting _ g hP
  simp only [Resting] at hrest
  split at hrest
  · obtain ⟨w, hw⟩ := hrest
    rw [hw]
    exact ⟨rfl, by simp⟩
  · rcases hrest with he | ⟨src, he⟩ <;> rw [he] <;> exact ⟨rfl, by simp⟩

/-- The tokens that a switch of thread `i` does not touch. -/
theorem fiberAt_switch (h : FiberInv cfg s) (hi : i < cfg.numThreads)
    (htls : m'.tls = s.mem.tls.set i t') (hidle : m'.idleFibers = s.mem.idleFibers)
    (hcl : m'.isWaitingCleanedUp = s.mem.isWaitingCleanedUp) {P : FiberPlace}
    (hhand : P ≠ .hand (s.mem.running i)) (hcur : P ≠ .current i) (hprev : P ≠ .previous i) :
    fiberAt cfg ⟨m', s.pc.set (s.mem.running i) p'⟩ P = fiberAt cfg s P := by
  cases P with
  | idle pos =>
      show m'.idleFibers.entry pos = _
      rw [hidle]
      rfl
  | hand a =>
      rw [fiberAt_hand, if_neg fun heq => hhand (by rw [heq]), hidle]
      rfl
  | current j =>
      have hji : j ≠ i := fun heq => hcur (by rw [heq])
      simp only [fiberAt, htls, Table.get_set_ne _ _ hji]
  | previous j =>
      by_cases hj : j < cfg.numThreads
      · have hji : j ≠ i := fun heq => hprev (by rw [heq])
        simp only [fiberAt, if_pos hj,
          h.previousFiber_other hi hj hji (by rw [htls, Table.get_set_ne _ _ hji])]
      · simp only [fiberAt, if_neg hj]
  | suspended g => simp only [fiberAt, hcl]

/-- How the fibers rest that a switch of thread `i` does not touch. -/
theorem resting_switch (h : FiberInv cfg s) (hi : i < cfg.numThreads)
    (htls : m'.tls = s.mem.tls.set i t') {P : FiberPlace} {g : Nat}
    (hP : fiberAt cfg s P = some g)
    (hhand : P ≠ .hand (s.mem.running i)) (hcur : P ≠ .current i) (hprev : P ≠ .previous i) :
    Resting ⟨m', s.pc.set (s.mem.running i) p'⟩ P
      (if g = s.mem.running i then p' else s.pc g) := by
  rw [if_neg (h.ne_running hi hP hcur)]
  refine resting_congr (fun heq => absurd heq hhand) (fun j hj => ?_) (h.resting P g hP)
  rw [htls, Table.get_set_ne _ _ fun hji => hprev (by rw [hj, hji])]

/-- The tokens before and after `switch_to_fiber` in `yieldToFiber`. -/
structure Yielded (cfg : Config) (s s' : State) (i g : Nat) : Prop where
  current : fiberAt cfg s (.current i) = some (s.mem.running i)
  hand : fiberAt cfg s (.hand (s.mem.running i)) = some g
  gone : fiberAt cfg s' (.hand (s.mem.running i)) = none
  here : fiberAt cfg s' (.current i) = some g
  back : fiberAt cfg s' (.previous i) = some (s.mem.running i)
  other : ∀ P, P ≠ .hand (s.mem.running i) → P ≠ .current i → P ≠ .previous i →
    fiberAt cfg s' P = fiberAt cfg s P

theorem Yielded.linear {s' : State} {g : Nat} (hy : Yielded cfg s s' i g)
    (hlin : Linear (fiberAt cfg s)) : Linear (fiberAt cfg s') := by
  classical
  refine hlin.of_source (fun P => if P = .current i then .hand (s.mem.running i)
    else if P = .previous i then .current i else P) ?_ ?_
  · intro P r hP
    by_cases h2 : P = .current i
    · rw [if_pos h2, hy.hand, ← hP, h2, hy.here]
    · by_cases h3 : P = .previous i
      · rw [if_neg h2, if_pos h3, hy.current, ← hP, h3, hy.back]
      · by_cases h1 : P = .hand (s.mem.running i)
        · rw [h1, hy.gone] at hP
          cases hP
        · rw [if_neg h2, if_neg h3, ← hy.other P h1 h2 h3]
          exact hP
  · intro P Q r hP hQ
    have hP1 : P ≠ .hand (s.mem.running i) := by
      rintro rfl
      rw [hy.gone] at hP
      cases hP
    have hQ1 : Q ≠ .hand (s.mem.running i) := by
      rintro rfl
      rw [hy.gone] at hQ
      cases hQ
    split_ifs with h1 h2 h3 h4 h5 h6 <;> intro heq
    · rw [h1, h2]
    · cases heq
    · exact absurd heq.symm hQ1
    · cases heq
    · rw [h4, h6]
    · exact absurd heq.symm ‹_›
    · exact absurd heq hP1
    · exact absurd heq ‹_›
    · exact heq

/-- Nothing is lost if the thread had no previous fiber left. -/
theorem Yielded.total {s' : State} {g : Nat} {d : Nat → Prop} (hy : Yielded cfg s s' i g)
    (hnone : fiberAt cfg s (.previous i) = none) (htot : Total d (fiberAt cfg s)) :
    Total d (fiberAt cfg s') := by
  intro r hr
  obtain ⟨P, hP⟩ := htot r hr
  by_cases h1 : P = .hand (s.mem.running i)
  · exact ⟨.current i, by rw [hy.here, ← hy.hand, ← h1, hP]⟩
  by_cases h2 : P = .current i
  · exact ⟨.previous i, by rw [hy.back, ← hy.current, ← h2, hP]⟩
  by_cases h3 : P = .previous i
  · rw [h3, hnone] at hP
    cases hP
  · exact ⟨P, by rw [hy.other P h1 h2 h3, hP]⟩

theorem yieldTo_tokens (h : FiberInv cfg s) (hi : i < cfg.numThreads) {g : Nat} {k : YieldK}
    (hpc : s.pc (s.mem.running i) = .yieldTo g k)
    (htls : m'.tls = s.mem.tls.set i
      { currentFiberIndex := some g
        previousFiberIndex := (s.mem.tls i).currentFiberIndex
        previousFiberDest := destination k
        running := g })
    (hidle : m'.idleFibers = s.mem.idleFibers)
    (hcl : m'.isWaitingCleanedUp = s.mem.isWaitingCleanedUp) :
    Yielded cfg s ⟨m', s.pc.set (s.mem.running i) (.clean (.yielded k))⟩ i g := by
  have hkind : ¬ ThreadPC (s.pc (s.mem.running i)) := by
    rw [hpc]
    simp [ThreadPC]
  have hcurrent := h.current_of_pc hi hkind (by rw [hpc]; simp)
  have hhand : fiberAt cfg s (.hand (s.mem.running i)) = some g := by
    simp only [fiberAt, hpc, fiberHand]
  have hne : g ≠ s.mem.running i := h.ne_running hi hhand (by simp)
  have hdest : destination k ≠ .none := by cases k <;> simp [destination]
  have hon : handedOn ((s.pc.set (s.mem.running i) (.clean (.yielded k))) g) = false := by
    rw [Table.get_set_ne _ _ hne]
    exact (h.parked_quiet hhand ⟨_, rfl⟩).1
  refine ⟨?_, hhand, ?_, ?_, ?_, fun P h1 h2 h3 => h.fiberAt_switch hi htls hidle hcl h1 h2 h3⟩
  · simp only [fiberAt, if_pos hi, hcurrent]
  · rw [fiberAt_hand, if_pos rfl]
    rfl
  · simp [fiberAt, hi, htls]
  · simp only [fiberAt, if_pos hi]
    rw [previousFiber_switch htls hon, if_pos hdest, hcurrent]

/-- `switch_to_fiber` in `yieldToFiber`. -/
theorem yieldTo (h : FiberInv cfg s) (hi : i < cfg.numThreads) {g : Nat} {k : YieldK}
    (hpc : s.pc (s.mem.running i) = .yieldTo g k)
    (htls : m'.tls = s.mem.tls.set i
      { currentFiberIndex := some g
        previousFiberIndex := (s.mem.tls i).currentFiberIndex
        previousFiberDest := destination k
        running := g })
    (hidle : m'.idleFibers = s.mem.idleFibers)
    (hcl : m'.isWaitingCleanedUp = s.mem.isWaitingCleanedUp)
    (hp' : p' = .clean (.yielded k)) : FiberInv cfg ⟨m', s.pc.set (s.mem.running i) p'⟩ := by
  subst hp'
  have hy := h.yieldTo_tokens hi hpc htls hidle hcl
  have hcurrent := h.current_of_pc hi (by rw [hpc]; simp [ThreadPC]) (by rw [hpc]; simp)
  have hne : g ≠ s.mem.running i := h.ne_running hi hy.hand (by simp)
  have hthread : s.pc (cfg.numFibers + i) = .done := by
    rcases h.thread i hi with ⟨-, -, hnone⟩ | hd
    · rw [hcurrent] at hnone
      cases hnone
    · exact hd
  refine h.switched hi htls (hy.linear h.linear) ?_ (Or.inr rfl) ?_ (by simp [ThreadPC])
    (Or.inl ⟨k, rfl⟩) ?_ (fun _ => by simp [hcurrent])
  · intro P r hP
    by_cases h1 : P = .hand (s.mem.running i)
    · rw [h1, hy.gone] at hP
      cases hP
    by_cases h2 : P = .current i
    · subst h2
      rw [hy.here] at hP
      obtain rfl := Option.some.inj hP
      exact ⟨⟨_, hy.hand⟩, trivial⟩
    by_cases h3 : P = .previous i
    · subst h3
      rw [hy.back] at hP
      obtain rfl := Option.some.inj hP
      refine ⟨⟨_, hy.current⟩, ?_⟩
      simp only [Resting, htls, Table.get_set_self, if_true]
      cases k with
      | wait w => exact ⟨w, rfl⟩
      | resume src => exact ⟨src, rfl⟩
    · rw [hy.other P h1 h2 h3] at hP
      exact ⟨⟨P, hP⟩, h.resting_switch hi htls hP h1 h2 h3⟩
  · have hthreadNe : cfg.numFibers + i ≠ s.mem.running i := by
      intro heq
      rw [← heq, hthread] at hpc
      cases hpc
    rw [Table.get_set_ne _ _ hthreadNe]
    exact hthread
  · rw [Table.get_set_ne _ _ hne]
    exact (h.parked_quiet hy.hand ⟨_, rfl⟩).2

/-- Only the thread fiber makes the first switch. -/
theorem running_of_startSwitch (h : FiberInv cfg s) (hi : i < cfg.numThreads) {g : Nat}
    (hpc : s.pc (s.mem.running i) = .startSwitch g) : s.mem.running i = cfg.numFibers + i := by
  rcases h.runs i hi with hr | hr
  · exact hr
  · refine absurd (Or.inr ⟨g, hpc⟩) (h.fiber _ (h.range (.current i) _ ?_))
    simp only [fiberAt, if_pos hi, hr]

theorem startSwitch_moved (h : FiberInv cfg s) (hi : i < cfg.numThreads) {g : Nat}
    (hpc : s.pc (s.mem.running i) = .startSwitch g)
    (htls : m'.tls = s.mem.tls.set i
      { s.mem.tls i with currentFiberIndex := some g, running := g })
    (hidle : m'.idleFibers = s.mem.idleFibers)
    (hcl : m'.isWaitingCleanedUp = s.mem.isWaitingCleanedUp) :
    Moved (fiberAt cfg s) (fiberAt cfg ⟨m', s.pc.set (s.mem.running i) .done⟩)
      (.hand (s.mem.running i)) (.current i) := by
  have hrun := h.running_of_startSwitch hi hpc
  have hhand : fiberAt cfg s (.hand (s.mem.running i)) = some g := by
    simp only [fiberAt, hpc, fiberHand]
  have hne : g ≠ s.mem.running i := by
    have := h.range _ _ hhand
    omega
  have hon : handedOn ((s.pc.set (s.mem.running i) .done) g) = false := by
    rw [Table.get_set_ne _ _ hne]
    exact (h.parked_quiet hhand ⟨_, rfl⟩).1
  refine ⟨?_, ?_, ?_, ?_⟩
  · rw [fiberAt_hand, if_pos rfl]
    rfl
  · rw [hhand]
    simp [fiberAt, hi, htls]
  · rcases h.thread i hi with ⟨-, -, hnone⟩ | hd
    · simp only [fiberAt, hnone, ite_self]
    · rw [← hrun, hpc] at hd
      cases hd
  · intro P h1 h2
    by_cases h3 : P = .previous i
    · subst h3
      simp only [fiberAt, if_pos hi]
      rw [previousFiber_switch htls hon]
      simp [previousFiber, hpc, handedOn]
    · exact h.fiberAt_switch hi htls hidle hcl h1 h2 h3

/-- The first switch of a thread, away from its thread fiber. -/
theorem startSwitch (h : FiberInv cfg s) (hi : i < cfg.numThreads) {g : Nat}
    (hpc : s.pc (s.mem.running i) = .startSwitch g)
    (htls : m'.tls = s.mem.tls.set i
      { s.mem.tls i with currentFiberIndex := some g, running := g })
    (hidle : m'.idleFibers = s.mem.idleFibers)
    (hcl : m'.isWaitingCleanedUp = s.mem.isWaitingCleanedUp)
    (hp' : p' = .done) : FiberInv cfg ⟨m', s.pc.set (s.mem.running i) p'⟩ := by
  subst hp'
  have hrun := h.running_of_startSwitch hi hpc
  have hmoved := h.startSwitch_moved hi hpc htls hidle hcl
  have hhand : fiberAt cfg s (.hand (s.mem.running i)) = some g := by
    simp only [fiberAt, hpc, fiberHand]
  have hne : g ≠ s.mem.running i := by
    have := h.range _ _ hhand
    omega
  refine h.switched hi htls (hmoved.linear h.linear) ?_ (Or.inr rfl) (by rw [← hrun]; simp)
    (by simp [ThreadPC]) (Or.inr rfl) ?_ (h.previous i hi)
  · intro P r hP
    rcases hmoved.source hP with ⟨rfl, hfrom⟩ | ⟨h1, h2, hold⟩
    · exact ⟨⟨_, hfrom⟩, trivial⟩
    · refine ⟨⟨P, hold⟩, ?_⟩
      by_cases h3 : P = .previous i
      · subst h3
        have hrest := h.resting _ r hold
        rw [if_neg (h.ne_running hi hold (by simp))]
        simpa only [Resting, htls, Table.get_set_self] using hrest
      · exact h.resting_switch hi htls hold h1 h2 h3
  · rw [Table.get_set_ne _ _ hne]
    exact (h.parked_quiet hhand ⟨_, rfl⟩).2

theorem exitSwitch_tokens (h : FiberInv cfg s) (hi : i < cfg.numThreads)
    (hpc : s.pc (s.mem.running i) = .exitSwitch)
    (htls : m'.tls = s.mem.tls.set i { s.mem.tls i with running := cfg.numFibers + i })
    (hidle : m'.idleFibers = s.mem.idleFibers)
    (hcl : m'.isWaitingCleanedUp = s.mem.isWaitingCleanedUp) :
    (s.pc.set (s.mem.running i) .done) (cfg.numFibers + i) = .done ∧
      fiberAt cfg ⟨m', s.pc.set (s.mem.running i) .done⟩ = fiberAt cfg s := by
  have hcurrent := h.current_of_pc hi (by rw [hpc]; simp [ThreadPC]) (by rw [hpc]; simp)
  have hthread : (s.pc.set (s.mem.running i) .done) (cfg.numFibers + i) = .done := by
    rw [Table.get_set]
    split
    · rfl
    · rcases h.thread i hi with ⟨-, -, hnone⟩ | hd
      · rw [hcurrent] at hnone
        cases hnone
      · exact hd
  refine ⟨hthread, funext fun P => ?_⟩
  by_cases h1 : P = .hand (s.mem.running i)
  · rw [h1, fiberAt_hand, if_pos rfl]
    simp only [fiberAt, hpc, fiberHand]
  by_cases h2 : P = .current i
  · subst h2
    simp [fiberAt, htls]
  by_cases h3 : P = .previous i
  · subst h3
    simp only [fiberAt, if_pos hi]
    rw [previousFiber_switch htls (by rw [hthread]; rfl)]
    simp [previousFiber, hpc, handedOn]
  · exact h.fiberAt_switch hi htls hidle hcl h1 h2 h3

/-- A fiber ends and the thread goes back to its thread fiber. -/
theorem exitSwitch (h : FiberInv cfg s) (hi : i < cfg.numThreads)
    (hpc : s.pc (s.mem.running i) = .exitSwitch)
    (htls : m'.tls = s.mem.tls.set i { s.mem.tls i with running := cfg.numFibers + i })
    (hidle : m'.idleFibers = s.mem.idleFibers)
    (hcl : m'.isWaitingCleanedUp = s.mem.isWaitingCleanedUp)
    (hp' : p' = .done) : FiberInv cfg ⟨m', s.pc.set (s.mem.running i) p'⟩ := by
  subst hp'
  obtain ⟨hthread, htok⟩ := h.exitSwitch_tokens hi hpc htls hidle hcl
  refine h.switched hi htls (htok ▸ h.linear) ?_ (Or.inl rfl) hthread
    (by simp [ThreadPC]) (Or.inr rfl) (by rw [hthread]; simp) (h.previous i hi)
  intro P r hP
  rw [htok] at hP
  refine ⟨⟨P, hP⟩, ?_⟩
  by_cases h2 : P = .current i
  · subst h2
    trivial
  by_cases h1 : P = .hand (s.mem.running i)
  · rw [h1] at hP
    simp only [fiberAt, hpc, fiberHand] at hP
    cases hP
  by_cases h3 : P = .previous i
  · subst h3
    have hrest := h.resting _ r hP
    rw [if_neg (h.ne_running hi hP (by simp))]
    simpa only [Resting, htls, Table.get_set_self] using hrest
  · exact h.resting_switch hi htls hP h1 h2 h3

end Switch

/-! ## Every step -/

/-- An access at which an agent holds no fiber. -/
def Plain (p : PC) : Prop :=
  (∀ q, fiberHand q p = none) ∧ handedOn p = false ∧ resuming p = false ∧ ¬ ThreadPC p ∧
    ∀ k v pc, p ≠ .idleEnq k v pc

theorem plain_afterClean (k : CleanK) : Plain (afterClean k) := by
  obtain ⟨-, h2, h3, h4, h5⟩ := afterClean_hand (Mpmc.new 0 0) k
  exact ⟨fun q => (afterClean_hand q k).1, h2, h3, h4, h5⟩

theorem plain_nextSlot (x : Scan) (j : Nat) : Plain (nextSlot x j) := by
  unfold nextSlot
  split
  · simp [Plain, fiberHand, handedOn, resuming, ThreadPC]
  · cases x.k <;> simp [Plain, afterScan, enqueueNext, fiberHand, handedOn, resuming, ThreadPC]

theorem plain_afterPush (reg : Nat) (k : PushK) : Plain (afterPush reg k) := by
  cases k <;> simp [Plain, afterPush, fiberHand, handedOn, resuming, ThreadPC]

section Exec

variable {i : Nat} {ch : Choice} {m' : Mem} {p' : PC}

/-- The accesses at which no fiber is held, before or after. -/
theorem plain (h : FiberInv cfg s) (hi : i < cfg.numThreads)
    (hp : Plain (s.pc (s.mem.running i))) (hdone : s.pc (s.mem.running i) ≠ .done)
    (hidle : m'.idleFibers = s.mem.idleFibers) (htls : m'.tls = s.mem.tls)
    (hcl : m'.isWaitingCleanedUp = s.mem.isWaitingCleanedUp) (hp' : Plain p') :
    FiberInv cfg ⟨m', s.pc.set (s.mem.running i) p'⟩ := by
  obtain ⟨hhand, hon, hres, hkind, -⟩ := hp
  obtain ⟨hhand', hon', hres', hkind', hpool'⟩ := hp'
  exact h.frame hi (fun pos => by rw [hidle]) (by rw [hidle]) htls hcl (by rw [hhand, hhand'])
    (by rw [hon, hon']) (by rw [hres, hres']) ⟨fun ht => absurd ht hkind', fun ht => absurd ht hkind⟩
    hdone fun k v pc heq => absurd heq (hpool' k v pc)

theorem exec_clean (h : FiberInv cfg s) (hi : i < cfg.numThreads) {k : CleanK}
    (hpc : s.pc (s.mem.running i) = .clean k)
    (hx : cleanStep s.mem i k = (m', p')) : FiberInv cfg ⟨m', s.pc.set (s.mem.running i) p'⟩ := by
  have hplain : Plain (s.pc (s.mem.running i)) := by
    rw [hpc]
    simp [Plain, fiberHand, handedOn, resuming, ThreadPC]
  have hdone : s.pc (s.mem.running i) ≠ .done := by
    rw [hpc]
    simp
  have hprev := h.previous i hi
  simp only [cleanStep] at hx
  split at hx <;> rename_i hdest <;> cases hx
  · exact h.plain hi hplain hdone rfl rfl rfl (plain_afterClean k)
  · rw [hdest] at hprev
    obtain ⟨v, hv⟩ := Option.ne_none_iff_exists'.1 (hprev (by simp))
    refine h.frame hi (fun _ => rfl) rfl rfl rfl ?_ ?_ ?_ ?_ hdone ?_
    · rw [hpc]
      rfl
    · rw [hpc]
      rfl
    · rw [hpc]
      rfl
    · rw [hpc]
      simp [ThreadPC]
    · intro k' v' pc' heq
      obtain ⟨-, rfl, -⟩ := PC.idleEnq.inj heq
      simp [hdest, hv]
  · rw [hdest] at hprev
    obtain ⟨v, hv⟩ := Option.ne_none_iff_exists'.1 (hprev (by simp))
    exact h.suspend hi hpc hdest hv rfl rfl (by rw [hv]; rfl) rfl

theorem exec_idleEnq (h : FiberInv cfg s) (hq : QueueInv s) (hi : i < cfg.numThreads) {k : CleanK}
    {v : Nat} {pc : EnqueuePC} (hpc : s.pc (s.mem.running i) = .idleEnq k v pc)
    (hx : exec cfg s.mem i (s.mem.running i) ch (.idleEnq k v pc) = some (m', p')) :
    FiberInv cfg ⟨m', s.pc.set (s.mem.running i) p'⟩ := by
  have heffect := Mpmc.enqueueStep_effect s.mem.idleFibers v (ch = .spurious) pc
  simp only [exec] at hx
  split at hx <;> rename_i hr <;> cases hx <;> rw [hr] at heffect
  · cases heffect with
    | quiet hclaimed hlog hdeq =>
        refine h.frame hi (Mpmc.entry_congr hlog hdeq) hlog rfl rfl ?_ ?_ ?_ ?_ ?_ ?_
        · rw [hpc]
          rfl
        · rw [hpc]
          exact hclaimed
        · rw [hpc]
          rfl
        · rw [hpc]
          simp [ThreadPC]
        · rw [hpc]
          simp
        · intro k' v' pc' heq
          obtain ⟨rfl, rfl, -⟩ := PC.idleEnq.inj heq
          exact h.pooling i hi _ _ _ hpc
    | put hbefore hafter hlog hdeq =>
        exact h.put hq hi hpc hbefore hafter hlog hdeq rfl rfl rfl
  · have hq' : (Mpmc.enqueueStep 0 v (ch = .spurious) s.mem.idleFibers pc).1.log =
          s.mem.idleFibers.log ∧
        (Mpmc.enqueueStep 0 v (ch = .spurious) s.mem.idleFibers pc).1.dequeuePos =
          s.mem.idleFibers.dequeuePos := by
      cases heffect with
      | done _ hlog hdeq => exact ⟨hlog, hdeq⟩
      | full _ _ hsame => exact ⟨by rw [hsame], by rw [hsame]⟩
    exact h.finishClean hi hpc hq'.1 hq'.2 rfl rfl rfl

theorem exec_idleDeq (h : FiberInv cfg s) (hq : QueueInv s) (hi : i < cfg.numThreads) {k : AcquireK}
    {pc : DequeuePC Nat} (hpc : s.pc (s.mem.running i) = .idleDeq k pc)
    (hx : exec cfg s.mem i (s.mem.running i) ch (.idleDeq k pc) = some (m', p')) :
    FiberInv cfg ⟨m', s.pc.set (s.mem.running i) p'⟩ := by
  have heffect := Mpmc.dequeueStep_effect s.mem.idleFibers (ch = .spurious) pc
  have hdone : s.pc (s.mem.running i) ≠ .done := by
    rw [hpc]
    simp
  simp only [exec] at hx
  split at hx <;> rename_i hr
  · cases hx
    rw [hr] at heffect
    cases heffect with
    | quiet hclaimed hlog hdeq =>
        refine h.frame hi (Mpmc.entry_congr hlog hdeq) hlog rfl rfl ?_ ?_ ?_ ?_ hdone (by simp)
        · rw [hpc]
          simp only [fiberHand, hclaimed]
        · rw [hpc]
          rfl
        · rw [hpc]
          rfl
        · rw [hpc]
          simp [ThreadPC]
    | take hclaim hafter hlog hdeq =>
        exact h.take hi (by rw [hpc, hclaim]) hafter hlog hdeq rfl rfl rfl
  · cases hx
    rw [hr] at heffect
    cases heffect with
    | empty hseq _ hsame =>
        refine h.frame hi (fun pos => by rw [hsame]) (by rw [hsame]) rfl rfl ?_ ?_ ?_ ?_ hdone (by simp)
        · rw [hpc, hseq]
          rfl
        · rw [hpc]
          rfl
        · rw [hpc]
          rfl
        · rw [hpc]
          simp [ThreadPC]
  · rename_i g
    rw [hr] at heffect
    cases heffect with
    | @done pos _ hpub hlog hdeq =>
        -- what was read is what was put at the claimed position
        have hread : s.mem.idleFibers.log[pos]? = some g := by
          have hok := hq.idle.ok (s.mem.running i)
          simp only [roles, hpc, idleCaller, hpub, Mpmc.CallerOk] at hok
          rw [hok.2.2.2.1, hok.2.2.2.2]
        have hhand : fiberHand s.mem.idleFibers (s.pc (s.mem.running i)) = some g := by
          rw [hpc, hpub]
          exact hread
        split at hx <;> cases hx <;>
          refine h.frame hi (Mpmc.entry_congr hlog hdeq) hlog rfl rfl ?_ ?_ ?_ ?_ hdone (by simp)
        · exact hhand.symm
        · rw [hpc]
          rfl
        · rw [hpc]
          rfl
        · rw [hpc]
          simp [ThreadPC]
        · exact hhand.symm
        · rw [hpc]
          rfl
        · rw [hpc]
          rfl
        · rw [hpc]
          simp [ThreadPC]

theorem exec (h : FiberInv cfg s) (hq : QueueInv s) (hi : i < cfg.numThreads)
    (hx : exec cfg s.mem i (s.mem.running i) ch (s.pc (s.mem.running i)) = some (m', p')) :
    FiberInv cfg ⟨m', s.pc.set (s.mem.running i) p'⟩ := by
  cases hp : s.pc (s.mem.running i) with
  | startSwitch g =>
      rw [hp] at hx
      cases hx
      exact h.startSwitch hi hp rfl rfl rfl rfl
  | exitSwitch =>
      rw [hp] at hx
      cases hx
      exact h.exitSwitch hi hp rfl rfl rfl rfl
  | clean k =>
      rw [hp] at hx
      exact h.exec_clean hi hp (Option.some.inj hx)
  | idleEnq k v pc => exact h.exec_idleEnq hq hi hp (hp ▸ hx)
  | yieldTo g k =>
      rw [hp] at hx
      cases hx
      exact h.yieldTo hi hp rfl rfl rfl rfl
  | idleDeq k pc => exact h.exec_idleDeq hq hi hp (hp ▸ hx)
  | tryResume src v =>
      have hplain : Plain (s.pc (s.mem.running i)) := by
        rw [hp]
        simp [Plain, fiberHand, handedOn, resuming, ThreadPC]
      have hdone : s.pc (s.mem.running i) ≠ .done := by
        rw [hp]
        simp
      rw [hp] at hx
      simp only [Scheduler.exec] at hx
      split at hx
      · rename_i hwaiting
        cases hx
        exact h.resume hi hp hwaiting rfl rfl rfl rfl
      · split at hx <;> cases hx <;>
          exact h.plain hi hplain hdone rfl rfl rfl
            (by simp [Plain, fiberHand, handedOn, resuming, ThreadPC])
  | waitStore w =>
      rw [hp] at hx
      cases hx
      exact h.clear hi hp rfl rfl rfl rfl
  | done =>
      rw [hp] at hx
      cases hx
  | _ =>
      have hplain : Plain (s.pc (s.mem.running i)) := by
        rw [hp]
        simp [Plain, fiberHand, handedOn, resuming, ThreadPC]
      have hdone : s.pc (s.mem.running i) ≠ .done := by
        rw [hp]
        simp
      rw [hp] at hx
      simp only [Scheduler.exec, userStep, beginWait, afterWait, incrementStep, submitNext,
        afterRelease, pinStep, submitTasks, enqueueNext] at hx
      (repeat' split at hx) <;> cases hx <;> first
        | exact h.plain hi hplain hdone rfl rfl rfl (plain_nextSlot _ _)
        | exact h.plain hi hplain hdone rfl rfl rfl (plain_afterPush _ _)
        | exact h.plain hi hplain hdone rfl rfl rfl
            (by simp [Plain, fiberHand, handedOn, resuming, ThreadPC, DequeuePC.claimed])

end Exec

theorem step {s' : State} {l : Label} (h : FiberInv cfg s) (hq : QueueInv s)
    (hs : Scheduler.step cfg s l = some s') : FiberInv cfg s' := by
  obtain ⟨-, hi, m', p', hx, rfl⟩ := step_eq_some.1 hs
  exact h.exec hq hi hx

end FiberInv

end TaskDispatcher.Scheduler
