import TaskDispatcher.Scheduler.Queues
import TaskDispatcher.Library.Tokens

/-!
# Who owns a counter index

A counter index is a token: it lies in the queue of free counters, with the
agent that took it out or is putting it back, or with a live handle.
-/

namespace TaskDispatcher.Scheduler

open TaskDispatcher.Library TaskDispatcher.Container

inductive CounterPlace where
  | free (pos : Nat)
  | hand (a : Nat)
  | handle (h : Nat)

/-- The counter index an agent is about to hand on. -/
def counterHand (q : Mpmc Nat) : PC → Option Nat
  | .freeDeq _ pc => pc.claimed.bind (q.log[·]?)
  | .resetCount c _ => some c
  | .resetSlot c _ _ => some c
  | .acquireHandle c _ => some c
  | .freeEnq _ c pc => if pc.claimed then none else some c
  | _ => none

def counterAt (s : State) : CounterPlace → Option Nat
  | .free pos => s.mem.freeCounters.entry pos
  | .hand a => counterHand s.mem.freeCounters (s.pc a)
  | .handle h => (s.mem.handles h).map HandleContent.counterIndex

section Steps

variable {cfg : Config} {s : State} {i f : Nat} {ch : Choice} {m' : Mem} {p' : PC}

theorem counterHand_congr {q q' : Mpmc Nat} (hlog : q'.log = q.log) (p : PC) :
    counterHand q' p = counterHand q p := by
  cases p <;> simp [counterHand, hlog]

theorem counterAt_hand (a : Nat) :
    counterAt ⟨m', s.pc.set f p'⟩ (.hand a) =
      if a = f then counterHand m'.freeCounters p' else counterHand m'.freeCounters (s.pc a) := by
  show counterHand m'.freeCounters ((s.pc.set f p') a) = _
  rw [Table.get_set]
  split <;> rfl

theorem counterAt_frame (hlog : m'.freeCounters.log = s.mem.freeCounters.log)
    (hdeq : m'.freeCounters.dequeuePos = s.mem.freeCounters.dequeuePos)
    (hhandles : m'.handles = s.mem.handles)
    (hhand : counterHand s.mem.freeCounters p' = counterHand s.mem.freeCounters (s.pc f)) :
    counterAt ⟨m', s.pc.set f p'⟩ = counterAt s := by
  funext P
  cases P with
  | free pos => exact Mpmc.entry_congr hlog hdeq pos
  | hand a =>
      rw [counterAt_hand, counterHand_congr hlog, counterHand_congr hlog]
      split
      · rename_i ha
        rw [hhand, ha]
        rfl
      · rfl
  | handle h => simp only [counterAt, hhandles]

/-- Appending to the queue does not change what the agents have taken out. -/
theorem counterHand_append (hq : QueueInv s) {q' : Mpmc Nat} {v : Nat}
    (hlog : q'.log = s.mem.freeCounters.log ++ [v]) (a : Nat) :
    counterHand q' (s.pc a) = counterHand s.mem.freeCounters (s.pc a) := by
  cases hp : s.pc a with
  | freeDeq k pc =>
      cases hc : pc.claimed with
      | none => simp [counterHand, hc]
      | some pos =>
          have hclaim : (roles freeCaller s.pc a).claimed = some (.inr pos) := by
            show (freeCaller (s.pc a)).claimed = _
            rw [hp]
            cases pc <;> cases hc <;> rfl
          have hsome := (hq.free.claimed_dequeue hclaim).2.2.2
          simp only [counterHand, hc, Option.bind_some, hlog]
          rw [hsome]
          exact Mpmc.Inv.log_append v hsome
  | _ => rfl

/-- What a step does to the counter indices: one of them moves, or the enqueue
that puts one back fails and loses it. -/
inductive CounterStep (s s' : State) (f : Nat) : Prop where
  | same : counterAt s' = counterAt s → CounterStep s s' f
  | moved {p q : CounterPlace} : Moved (counterAt s) (counterAt s') p q → CounterStep s s' f
  | lost {k : ReleaseK} {c pos : Nat} : s.pc f = .freeEnq k c (.sequence pos) →
      Mpmc.diff 0 (s.mem.freeCounters.cell pos).sequence pos < 0 →
      counterAt s' (.hand f) = none → (∀ P, P ≠ .hand f → counterAt s' P = counterAt s P) →
      CounterStep s s' f

theorem counterStep_freeEnq (hq : QueueInv s) {k : ReleaseK} {c : Nat} {pc : EnqueuePC}
    (hpc : s.pc f = .freeEnq k c pc)
    (hx : exec cfg s.mem i f ch (.freeEnq k c pc) = some (m', p')) :
    CounterStep s ⟨m', s.pc.set f p'⟩ f := by
  have heffect := Mpmc.enqueueStep_effect s.mem.freeCounters c (ch = .spurious) pc
  have hle : s.mem.freeCounters.dequeuePos ≤ s.mem.freeCounters.log.length := by
    rw [hq.free.log_length]
    exact hq.free.deq_le
  simp only [exec] at hx
  split at hx <;> rename_i hr <;> cases hx <;> rw [hr] at heffect
  · cases heffect with
    | quiet hclaimed hlog hdeq =>
        refine .same (counterAt_frame hlog hdeq rfl ?_)
        rw [hpc]
        simp only [counterHand, hclaimed]
    | @put pc' hbefore hafter hlog hdeq =>
        have hentry := Mpmc.entry_put hlog hdeq hle
        refine .moved (p := .hand f) (q := .free s.mem.freeCounters.log.length)
          ⟨?_, ?_, Mpmc.entry_length _, ?_⟩
        · rw [counterAt_hand, if_pos rfl]
          simp only [counterHand, hafter, if_true]
        · refine (hentry _).trans ?_
          rw [if_pos rfl]
          simp [counterAt, hpc, counterHand, hbefore]
        · intro P h1 h2
          cases P with
          | free pos =>
              refine (hentry pos).trans ?_
              rw [if_neg fun heq => h2 (by rw [heq])]
              rfl
          | hand a =>
              rw [counterAt_hand, if_neg fun heq => h1 (by rw [heq]), counterHand_append hq hlog]
              rfl
          | handle h => rfl
  · have hhandles : (afterRelease { s.mem with freeCounters :=
        (Mpmc.enqueueStep 0 c (ch = .spurious) s.mem.freeCounters pc).1 } true k).handles =
          s.mem.handles ∧ (afterRelease { s.mem with freeCounters :=
        (Mpmc.enqueueStep 0 c (ch = .spurious) s.mem.freeCounters pc).1 } true k).freeCounters =
          (Mpmc.enqueueStep 0 c (ch = .spurious) s.mem.freeCounters pc).1 := by
      cases k <;> exact ⟨rfl, rfl⟩
    cases heffect with
    | done hclaimed hlog hdeq =>
        refine .same (counterAt_frame (by rw [hhandles.2, hlog]) (by rw [hhandles.2, hdeq])
          hhandles.1 ?_)
        rw [hpc]
        simp only [counterHand, hclaimed, if_true]
    | full hseq hdiff hsame =>
        subst hseq
        refine .lost hpc hdiff ?_ ?_
        · rw [counterAt_hand, if_pos rfl]
          rfl
        · intro P hP
          cases P with
          | free pos =>
              show (afterRelease _ true k).freeCounters.entry pos = _
              rw [hhandles.2, hsame]
              rfl
          | hand a =>
              rw [counterAt_hand, if_neg fun heq => hP (by rw [heq]), hhandles.2, hsame]
              rfl
          | handle h =>
              show ((afterRelease _ true k).handles h).map _ = _
              rw [hhandles.1]
              rfl

theorem counterStep_freeDeq (hq : QueueInv s) {k : HandleK} {pc : DequeuePC Nat}
    (hpc : s.pc f = .freeDeq k pc)
    (hx : exec cfg s.mem i f ch (.freeDeq k pc) = some (m', p')) :
    CounterStep s ⟨m', s.pc.set f p'⟩ f := by
  have heffect := Mpmc.dequeueStep_effect s.mem.freeCounters (ch = .spurious) pc
  simp only [exec] at hx
  split at hx <;> rename_i hr <;> cases hx <;> rw [hr] at heffect
  · cases heffect with
    | quiet hclaimed hlog hdeq =>
        refine .same (counterAt_frame hlog hdeq rfl ?_)
        rw [hpc]
        simp only [counterHand, hclaimed]
    | @take pc' hclaim hafter hlog hdeq =>
        have hentry := Mpmc.entry_take hlog hdeq
        refine .moved (p := .free s.mem.freeCounters.dequeuePos) (q := .hand f) ⟨?_, ?_, ?_, ?_⟩
        · refine (hentry _).trans ?_
          rw [if_pos rfl]
        · rw [counterAt_hand, if_pos rfl]
          show _ = s.mem.freeCounters.entry _
          rw [Mpmc.entry_dequeuePos]
          simp only [counterHand, hafter, hlog, Option.bind_some]
        · simp [counterAt, hpc, counterHand, hclaim, DequeuePC.claimed]
        · intro P h1 h2
          cases P with
          | free pos =>
              refine (hentry pos).trans ?_
              rw [if_neg fun heq => h1 (by rw [heq])]
              rfl
          | hand a =>
              rw [counterAt_hand, if_neg fun heq => h2 (by rw [heq]), counterHand_congr hlog]
              rfl
          | handle h => rfl
  · cases heffect with
    | empty hseq _ hsame =>
        refine .same (counterAt_frame (by rw [hsame]) (by rw [hsame]) rfl ?_)
        rw [hpc, hseq]
        rfl
  · rename_i c
    cases heffect with
    | @done pos _ hpub hlog hdeq =>
        -- what was read is what was put at the claimed position
        have hread : s.mem.freeCounters.log[pos]? = some c := by
          have hok := hq.free.ok f
          simp only [roles, hpc, freeCaller, hpub, Mpmc.CallerOk] at hok
          rw [hok.2.2.2.1, hok.2.2.2.2]
        refine .same (counterAt_frame hlog hdeq rfl ?_)
        rw [hpc, hpub]
        exact hread.symm

theorem counterStep_acquireHandle {c : Nat} {k : HandleK} (hpc : s.pc f = .acquireHandle c k)
    (hx : exec cfg s.mem i f ch (.acquireHandle c k) = some (m', p')) :
    CounterStep s ⟨m', s.pc.set f p'⟩ f := by
  simp only [exec] at hx
  split at hx
  · rename_i h
    split at hx
    · cases hx
    · rename_i hnone
      have key : ∀ (m' : Mem) (p' : PC), m'.freeCounters = s.mem.freeCounters →
          m'.handles = s.mem.handles.set h (some
            { counterIndex := c, life := s.mem.hist.nextLife, sync := k.sync }) →
          counterHand s.mem.freeCounters p' = none →
          CounterStep s ⟨m', s.pc.set f p'⟩ f := by
        intro m' p' hfree hhandles hp'
        refine .moved (p := .hand f) (q := .handle h) ⟨?_, ?_, ?_, ?_⟩
        · rw [counterAt_hand, if_pos rfl, hfree, hp']
        · simp [counterAt, hhandles, hpc, counterHand]
        · simp [counterAt, hnone]
        · intro P h1 h2
          cases P with
          | free pos => simp only [counterAt, hfree]
          | hand a =>
              rw [counterAt_hand, if_neg fun heq => h1 (by rw [heq]), hfree]
              rfl
          | handle h' =>
              simp only [counterAt, hhandles]
              rw [Table.get_set_ne _ _ fun heq => h2 (by rw [heq])]
      split at hx <;> cases hx <;> exact key _ _ rfl rfl rfl
  · cases hx

theorem counterStep_releaseHandle {h c : Nat} {k : ReleaseK} (hpc : s.pc f = .releaseHandle h c k)
    (hx : exec cfg s.mem i f ch (.releaseHandle h c k) = some (m', p')) :
    CounterStep s ⟨m', s.pc.set f p'⟩ f := by
  simp only [exec] at hx
  split at hx
  · cases hx
  · rename_i x hsome
    split at hx
    · rename_i hc
      cases hx
      refine .moved (p := .handle h) (q := .hand f) ⟨?_, ?_, ?_, ?_⟩
      · simp [counterAt]
      · rw [counterAt_hand, if_pos rfl]
        simp [counterAt, counterHand, hsome, hc, EnqueuePC.claimed]
      · simp [counterAt, hpc, counterHand]
      · intro P h1 h2
        cases P with
        | free pos => rfl
        | hand a =>
            rw [counterAt_hand, if_neg fun heq => h2 (by rw [heq])]
            rfl
        | handle h' =>
            simp only [counterAt]
            rw [Table.get_set_ne _ _ fun heq => h1 (by rw [heq])]
    · cases hx

theorem counterHand_nextSlot (q : Mpmc Nat) (x : Scan) (j : Nat) : counterHand q (nextSlot x j) = none := by
  unfold nextSlot
  split
  · rfl
  · cases x.k <;> rfl

theorem counterHand_afterClean (q : Mpmc Nat) (k : CleanK) : counterHand q (afterClean k) = none := by
  rcases k with _ | _ | (_ | _) <;> rfl

theorem counterHand_afterPush (q : Mpmc Nat) (reg : Nat) (k : PushK) :
    counterHand q (afterPush reg k) = none := by
  cases k <;> rfl

theorem exec_counters (hq : QueueInv s) (hx : exec cfg s.mem i f ch (s.pc f) = some (m', p')) :
    CounterStep s ⟨m', s.pc.set f p'⟩ f := by
  cases hpc : s.pc f with
  | freeEnq k c pc => exact counterStep_freeEnq hq hpc (hpc ▸ hx)
  | freeDeq k pc => exact counterStep_freeDeq hq hpc (hpc ▸ hx)
  | acquireHandle c k => exact counterStep_acquireHandle hpc (hpc ▸ hx)
  | releaseHandle h c k => exact counterStep_releaseHandle hpc (hpc ▸ hx)
  | resetCount c k =>
      rw [hpc] at hx
      cases hx
      exact .same (counterAt_frame rfl rfl rfl (by rw [hpc]; rfl))
  | resetSlot c j k =>
      rw [hpc] at hx
      cases hx
      refine .same (counterAt_frame rfl rfl rfl ?_)
      rw [hpc]
      split <;> rfl
  | _ =>
      have hnone : counterHand s.mem.freeCounters (s.pc f) = none := by
        rw [hpc]
        rfl
      rw [hpc] at hx
      simp only [exec, userStep, beginWait, afterWait, incrementStep, submitNext, afterRelease,
        cleanStep, pinStep, submitTasks, enqueueNext] at hx
      (repeat' split at hx) <;> cases hx <;> first
        | exact .same (counterAt_frame rfl rfl rfl (by rw [hnone]; rfl))
        | exact .same (counterAt_frame rfl rfl rfl
            (by rw [hnone]; exact counterHand_nextSlot _ _ _))
        | exact .same (counterAt_frame rfl rfl rfl
            (by rw [hnone]; exact counterHand_afterClean _ _))
        | exact .same (counterAt_frame rfl rfl rfl
            (by rw [hnone]; exact counterHand_afterPush _ _ _))

end Steps

/-! ## The invariant -/

structure CounterInv (cfg : Config) (s : State) : Prop where
  linear : Linear (counterAt s)
  range : ∀ P c, counterAt s P = some c → c < cfg.maxNumCounters

theorem CounterStep.inv {cfg : Config} {s s' : State} {f : Nat} (h : CounterInv cfg s)
    (hs : CounterStep s s' f) : CounterInv cfg s' := by
  cases hs with
  | same heq => exact ⟨heq ▸ h.linear, heq ▸ h.range⟩
  | moved hm =>
      refine ⟨hm.linear h.linear, fun P c hP => ?_⟩
      rcases hm.source hP with ⟨-, hfrom⟩ | ⟨-, -, hold⟩
      · exact h.range _ c hfrom
      · exact h.range _ c hold
  | lost _ _ hgone hother =>
      have hsub : ∀ P c, counterAt s' P = some c → counterAt s P = some c := by
        intro P c hP
        by_cases hf : P = .hand f
        · rw [hf, hgone] at hP
          cases hP
        · rwa [hother P hf] at hP
      exact ⟨h.linear.mono hsub, fun P c hP => h.range P c (hsub P c hP)⟩

theorem CounterInv.step {cfg : Config} {s s' : State} {l : Label} (h : CounterInv cfg s)
    (hq : QueueInv s) (hs : step cfg s l = some s') : CounterInv cfg s' := by
  obtain ⟨-, -, m', p', hx, rfl⟩ := step_eq_some.1 hs
  exact (exec_counters hq hx).inv h

theorem counterAt_start {cfg : Config} (hcfg : cfg.Ok) (P : CounterPlace) :
    counterAt (start cfg) P =
      match P with
      | .free pos => if pos < cfg.maxNumCounters then some pos else none
      | _ => none := by
  obtain ⟨k, hk, hcounters⟩ := hcfg.counters
  have hpop := (Mpmc.Inv.populate (A := Unit) hk 0 (le_refl (2 ^ k))).2
  rw [← hcounters] at hpop
  obtain ⟨hlog, -, hdeq, -⟩ := hpop
  cases P with
  | free pos =>
      show (populate cfg.maxNumCounters cfg.maxNumCounters).entry pos = _
      have hlog' : (populate cfg.maxNumCounters cfg.maxNumCounters).log =
        List.range cfg.maxNumCounters := hlog
      have hdeq' : (populate cfg.maxNumCounters cfg.maxNumCounters).dequeuePos = 0 := hdeq
      rw [Mpmc.entry, hlog', hdeq', if_pos (Nat.zero_le _)]
      by_cases hpos : pos < cfg.maxNumCounters
      · simp [hpos]
      · simp [hpos]
  | hand a =>
      simp only [counterAt, start_pc]
      split
      · rfl
      · split <;> rfl
  | handle h => rfl

theorem CounterInv.start {cfg : Config} (hcfg : cfg.Ok) : CounterInv cfg (start cfg) := by
  have key : ∀ P c, counterAt (Scheduler.start cfg) P = some c → P = .free c ∧ c < cfg.maxNumCounters := by
    intro P c hP
    rw [counterAt_start hcfg] at hP
    cases P with
    | free pos =>
        simp only at hP
        split at hP
        · rename_i hlt
          rw [← Option.some.inj hP]
          exact ⟨rfl, hlt⟩
        · cases hP
    | hand a => cases hP
    | handle h => cases hP
  refine ⟨fun P Q c hP hQ => ?_, fun P c hP => (key P c hP).2⟩
  rw [(key P c hP).1, (key Q c hQ).1]

theorem total_counters_start {cfg : Config} (hcfg : cfg.Ok) :
    Total (· < cfg.maxNumCounters) (counterAt (start cfg)) := by
  intro c hc
  refine ⟨.free c, ?_⟩
  rw [counterAt_start hcfg]
  exact if_pos hc

/-! ## Handles -/

/-- Live handles carry distinct indices that are not free, and a handle is
acquired only while the pool has one left. -/
structure HandlesExclusive (cfg : Config) (s : State) : Prop where
  distinct : ∀ h h' x x', s.mem.handles h = some x → s.mem.handles h' = some x' →
    x.counterIndex = x'.counterIndex → h = h'
  taken : ∀ h x pos, s.mem.handles h = some x →
    s.mem.freeCounters.entry pos ≠ some x.counterIndex
  available : ∀ a c k, s.pc a = .acquireHandle c k →
    ∀ F : Finset Nat, (∀ h ∈ F, s.mem.handles h ≠ none) → F.card < cfg.maxNumCounters

theorem CounterInv.handlesExclusive {cfg : Config} {s : State} (h : CounterInv cfg s) :
    HandlesExclusive cfg s where
  distinct h₁ h₂ x x' hx hx' heq := by
    have h1 : counterAt s (.handle h₁) = some x.counterIndex := by simp only [counterAt, hx, Option.map_some]
    have h2 : counterAt s (.handle h₂) = some x.counterIndex := by
      simp only [counterAt, hx', Option.map_some, heq]
    exact CounterPlace.handle.inj (h.linear _ _ _ h1 h2)
  taken h₁ x pos hx hfree := by
    have h1 : counterAt s (.handle h₁) = some x.counterIndex := by simp only [counterAt, hx, Option.map_some]
    cases h.linear (.free pos) _ _ hfree h1
  available a c k hpc F hF := by
    classical
    -- the index about to be handed out is one more than the live handles carry
    have hhand : counterAt s (.hand a) = some c := by simp only [counterAt, hpc, counterHand]
    have hmost := AtMost.of_linear h.linear h.range
    have hcard := hmost (insert (.hand a) (F.image .handle)) ?_
    · rw [Finset.card_insert_of_notMem, Finset.card_image_of_injective] at hcard
      · exact hcard
      · exact fun _ _ => CounterPlace.handle.inj
      · intro hmem
        obtain ⟨_, -, heq⟩ := Finset.mem_image.1 hmem
        cases heq
    · intro P hP
      rcases Finset.mem_insert.1 hP with rfl | hmem
      · exact ⟨c, hhand⟩
      · obtain ⟨h₁, hin, rfl⟩ := Finset.mem_image.1 hmem
        obtain ⟨x, hx⟩ := Option.ne_none_iff_exists'.1 (hF h₁ hin)
        exact ⟨x.counterIndex, by simp only [counterAt, hx, Option.map_some]⟩

/-- Counter handles are exclusive in every state of every run. -/
theorem handlesExclusive_of_run {cfg : Config} (hcfg : cfg.Ok) {σ : Nat → State} {ℓ : Nat → Label}
    {n : Nat} (h : Run (step cfg) (start cfg) σ ℓ n) {k : Nat} (hk : k ≤ n) :
    HandlesExclusive cfg (σ k) := by
  have hinv := h.invariant (I := fun s => QueueInv s ∧ CounterInv cfg s)
    ⟨.start hcfg, .start hcfg⟩ (fun s l s' hI hs => ⟨hI.1.step hs, hI.2.step hI.1 hs⟩) k hk
  exact hinv.2.handlesExclusive

/-- The main task acquires both counters, releases the first and is about to
acquire it again. -/
def acquireLabels : List Label :=
  goes 0 7 ++ calls 0 .acquire 38 ++ [⟨0, .handle 0⟩] ++ calls 0 .acquire 38 ++ [⟨0, .handle 1⟩] ++
    calls 0 (.release 0) 7 ++ calls 0 .acquire 38

theorem handlesExclusive_acquire :
    HandlesExclusive pairConfig
      (trace (step pairConfig) (start pairConfig) acquireLabels 134) := by
  have h : follows (step pairConfig) (fun _ _ => true) (start pairConfig) acquireLabels = true := by
    decide +kernel
  exact handlesExclusive_of_run pairConfig_ok (Run.of_follows ⟨0, .go⟩ h) (by decide +kernel)

end TaskDispatcher.Scheduler
