import TaskDispatcher.Scheduler.Accesses
import TaskDispatcher.Scheduler.Exclusivity

/-!
# The queues of pinned resumable fibers

What may still reach the queue of a thread is outstanding: a published slot that
names the thread, a scanner on its way to the queue, an entry of the queue, and
the entry the thread itself may put back.  Only a `wait` call that registers adds
to it, so a queue is never full at an enqueue while at most `maxWaiting` are
outstanding after every registration.
-/

namespace TaskDispatcher.Scheduler

open TaskDispatcher.Library TaskDispatcher.Container

inductive PinnedPlace where
  | slot (c i : Nat)
  | scanner (a : Nat)
  | entry (k : Nat)
  | own
  deriving DecidableEq

/-- Whether a scanner goes on to the queue of thread `t`. -/
def aims (m : Mem) (t : Nat) : PC → Prop
  | .scan x j (.pinned _) => ((m.counters x.counter).slot j).pinnedThreadIndex = some t
  | .pin _ _ _ t' .lock => t' = t
  | .pin _ _ _ t' .push => t' = t
  | _ => False

/-- Whether an agent holds an entry of its thread's queue. -/
def popped : PC → Bool
  | .getUnlock (some _) => true
  | .tryResume .pinned _ => true
  | .reLock _ => true
  | .rePush _ => true
  | _ => false

/-- The places that may still fill the queue of thread `t`. -/
def Outstanding (cfg : Config) (s : State) (t : Nat) : PinnedPlace → Prop
  | .slot c i => ((s.mem.counters c).slot i).inUse = false ∧
      ((s.mem.counters c).slot i).pinnedThreadIndex = some t
  | .scanner a => aims s.mem t (s.pc a)
  | .entry k => ∃ v, (s.mem.threads t).pinnedResumableFibers.entry k = some v
  | .own => t < cfg.numThreads ∧ popped (s.pc (s.mem.running t)) = true

/-- At most as much as the queue holds is outstanding. -/
def PinnedInv (cfg : Config) (s : State) : Prop :=
  ∀ t, AtMost maxWaiting (Outstanding cfg s t)

section Steps

variable {cfg : Config} {s s' : State} {i : Nat} {ch : Choice} {m m' : Mem} {p p' : PC} {l : Label}

/-! ## The slots of a counter -/

/-- The threads of the slots stay, and no slot comes into use. -/
def Calmer (a a' : AtomicCounter) : Prop :=
  ∀ k, (a'.slot k).pinnedThreadIndex = (a.slot k).pinnedThreadIndex ∧
    ((a'.slot k).inUse = false → (a.slot k).inUse = false)

theorem Calmer.refl (a : AtomicCounter) : Calmer a a := fun _ => ⟨rfl, id⟩

theorem Calmer.setFree (a : AtomicCounter) (j : Nat) (b : Bool) : Calmer a (a.setFree j b) :=
  fun _ => ⟨rfl, id⟩

theorem Calmer.setSlot {a : AtomicCounter} {j : Nat} {g : WaitingFiber}
    (hpinned : g.pinnedThreadIndex = (a.slot j).pinnedThreadIndex)
    (huse : g.inUse = false → (a.slot j).inUse = false) : Calmer a (a.setSlot j g) := by
  intro k
  rw [AtomicCounter.slot_setSlot]
  split
  · rename_i hk
    rw [hk]
    exact ⟨hpinned, huse⟩
  · exact ⟨rfl, id⟩

theorem Calmer.counters {d : Nat} {a : AtomicCounter} (h : Calmer (m.counters d) a) (c : Nat) :
    Calmer (m.counters c) ((m.counters.set d a) c) := by
  rw [Table.get_set]
  split
  · rename_i hcd
    rw [hcd]
    exact h
  · exact .refl _

/-- Registering is the only thing a waiter does that adds a pinned entry. -/
theorem AddMove.calmer {a a' : AtomicCounter} {w : WaitCall} {j : Nat} {pc : AddPC} {r : AddNext}
    (h : AddMove a w j pc a' r) (h1 : pc ≠ .writePinned) (h2 : pc ≠ .publish) : Calmer a a' := by
  cases h with
  | writePinned => exact absurd rfl h1
  | publish => exact absurd rfl h2
  | acquire => exact .setFree _ _ _
  | writeFiber => exact .setSlot rfl id
  | writeTarget => exact .setSlot rfl id
  | won => exact .setSlot rfl (by simp)
  | free => exact .setFree _ _ _
  | _ => exact .refl _

theorem ScanMove.calmer {a a' : AtomicCounter} {value : Int} {j : Nat} {pc : ScanPC} {r : ScanNext}
    (h : ScanMove a value j pc a' r) : Calmer a a' := by
  cases h with
  | won => exact .setSlot rfl (by simp)
  | release => exact .setFree _ _ _
  | _ => exact .refl _

/-! ## What is outstanding -/

theorem aims_nextSlot (t : Nat) (x : Scan) (j : Nat) : ¬ aims m t (nextSlot x j) := by
  unfold nextSlot
  split
  · exact id
  · cases x.k <;> exact id

theorem aims_afterClean (t : Nat) (k : CleanK) : ¬ aims m t (afterClean k) := by
  rcases k with _ | _ | (_ | _) <;> exact id

theorem aims_afterPush (t reg : Nat) (k : PushK) : ¬ aims m t (afterPush reg k) := by
  cases k <;> exact id

theorem popped_nextSlot (x : Scan) (j : Nat) : popped (nextSlot x j) = false := by
  unfold nextSlot
  split
  · rfl
  · cases x.k <;> rfl

theorem popped_afterClean (k : CleanK) : popped (afterClean k) = false := by
  rcases k with _ | _ | (_ | _) <;> rfl

theorem popped_afterPush (reg : Nat) (k : PushK) : popped (afterPush reg k) = false := by
  cases k <;> rfl

theorem aims_congr {t : Nat}
    (hslots : ∀ c j, ((m'.counters c).slot j).pinnedThreadIndex =
      ((m.counters c).slot j).pinnedThreadIndex) (p : PC) : aims m' t p ↔ aims m t p := by
  unfold aims
  split
  · rw [hslots]
  · exact Iff.rfl
  · exact Iff.rfl
  · exact Iff.rfl

theorem popped_of_switchedOut {p : PC} (h : SwitchedOut p ∨ p = .done) : popped p = false := by
  rcases h with (rfl | ⟨k, rfl⟩) | rfl <;> rfl

/-- What the thread of the step holds itself. -/
theorem own_step (h : FiberInv cfg s) (hi : i < cfg.numThreads) {t : Nat}
    (hx : exec cfg s.mem i (s.mem.running i) ch (s.pc (s.mem.running i)) = some (m', p'))
    (hown : Outstanding cfg ⟨m', s.pc.set (s.mem.running i) p'⟩ t .own) :
    t = i ∧ popped p' = true ∨ t ≠ i ∧ Outstanding cfg s t .own := by
  obtain ⟨ht, hown⟩ : t < cfg.numThreads ∧
    popped ((s.pc.set (s.mem.running i) p') (m'.running t)) = true := hown
  by_cases hsw : switches (s.pc (s.mem.running i)) = true
  · obtain ⟨hother, hout⟩ := running_switch h hi hx hsw
    by_cases hti : t = i
    · subst hti
      rw [popped_of_switchedOut hout] at hown
      cases hown
    · have hne : s.mem.running t ≠ s.mem.running i := fun heq => hti (h.running_inj ht hi heq)
      rw [hother t hti, Table.get_set_ne _ _ hne] at hown
      exact Or.inr ⟨hti, ht, hown⟩
  · rw [running_frame hx (by simpa using hsw) t] at hown
    by_cases hti : t = i
    · subst hti
      rw [Table.get_set_self] at hown
      exact Or.inl ⟨rfl, hown⟩
    · have hne : s.mem.running t ≠ s.mem.running i := fun heq => hti (h.running_inj ht hi heq)
      rw [Table.get_set_ne _ _ hne] at hown
      exact Or.inr ⟨hti, ht, hown⟩

/-- A place that is outstanding after an access was so before, unless the access
moved something there. -/
theorem outstanding_of (h : FiberInv cfg s) (hi : i < cfg.numThreads) {t : Nat}
    (hx : exec cfg s.mem i (s.mem.running i) ch (s.pc (s.mem.running i)) = some (m', p'))
    (hslots : ∀ c, Calmer (s.mem.counters c) (m'.counters c)) {P : PinnedPlace}
    (hslot : ∀ c j, P = .slot c j → ((m'.counters c).slot j).inUse = false →
      ((s.mem.counters c).slot j).inUse = false)
    (hring : ∀ k, P = .entry k → ∀ v, (m'.threads t).pinnedResumableFibers.entry k = some v →
      (s.mem.threads t).pinnedResumableFibers.entry k = some v)
    (haims : P = .scanner (s.mem.running i) → aims s.mem t p' →
      aims s.mem t (s.pc (s.mem.running i)))
    (hpopped : P = .own → popped p' = true → popped (s.pc (s.mem.running i)) = true)
    (hP : Outstanding cfg ⟨m', s.pc.set (s.mem.running i) p'⟩ t P) : Outstanding cfg s t P := by
  cases P with
  | slot c j =>
      obtain ⟨hfree, hthread⟩ : ((m'.counters c).slot j).inUse = false ∧
        ((m'.counters c).slot j).pinnedThreadIndex = some t := hP
      exact ⟨hslot c j rfl hfree, (hslots c j).1.symm.trans hthread⟩
  | scanner a =>
      replace hP : aims m' t ((s.pc.set (s.mem.running i) p') a) := hP
      rw [aims_congr fun c j => (hslots c j).1, Table.get_set] at hP
      split at hP
      · rename_i ha
        subst ha
        exact haims rfl hP
      · exact hP
  | entry k =>
      obtain ⟨v, hv⟩ : ∃ v, (m'.threads t).pinnedResumableFibers.entry k = some v := hP
      exact ⟨v, hring k rfl v hv⟩
  | own =>
      rcases own_step h hi hx hP with ⟨rfl, hp⟩ | ⟨-, hold⟩
      · exact ⟨hi, hpopped rfl hp⟩
      · exact hold

/-- An access that moves nothing towards a queue. -/
theorem bound_frame (h : FiberInv cfg s) (hi : i < cfg.numThreads) {t n : Nat} (hb : AtMost n (Outstanding cfg s t))
    (hx : exec cfg s.mem i (s.mem.running i) ch (s.pc (s.mem.running i)) = some (m', p'))
    (hslots : ∀ c, Calmer (s.mem.counters c) (m'.counters c))
    (hring : ∀ t, (m'.threads t).pinnedResumableFibers = (s.mem.threads t).pinnedResumableFibers)
    (haims : aims s.mem t p' → aims s.mem t (s.pc (s.mem.running i)))
    (hpopped : popped p' = true → popped (s.pc (s.mem.running i)) = true) :
    AtMost n (Outstanding cfg ⟨m', s.pc.set (s.mem.running i) p'⟩ t) :=
  hb.mono fun _ hP => outstanding_of h hi hx hslots (fun c j _ => (hslots c j).2)
    (fun k _ v hv => by rwa [hring] at hv) (fun _ => haims) (fun _ => hpopped) hP

/-! ## Every step -/

/-- The agent registers a waiter: it writes the thread of its slot or publishes it. -/
def registers : PC → Bool
  | .add _ _ .writePinned => true
  | .add _ _ .publish => true
  | _ => false

/-- Nothing goes to a queue from here. -/
def Aimless (p : PC) : Prop := (∀ m t, ¬ aims m t p) ∧ popped p = false

theorem bound_aimless (h : FiberInv cfg s) (hi : i < cfg.numThreads) {t n : Nat} (hb : AtMost n (Outstanding cfg s t))
    (hx : exec cfg s.mem i (s.mem.running i) ch (s.pc (s.mem.running i)) = some (m', p'))
    (hslots : ∀ c, Calmer (s.mem.counters c) (m'.counters c))
    (hring : ∀ t, (m'.threads t).pinnedResumableFibers = (s.mem.threads t).pinnedResumableFibers)
    (hp' : Aimless p') : AtMost n (Outstanding cfg ⟨m', s.pc.set (s.mem.running i) p'⟩ t) :=
  bound_frame h hi hb hx hslots hring (fun ha => absurd ha (hp'.1 _ _))
    fun hp => absurd hp (by rw [hp'.2]; simp)

theorem aimless_nextSlot (x : Scan) (j : Nat) : Aimless (nextSlot x j) :=
  ⟨fun _ t => aims_nextSlot t x j, popped_nextSlot x j⟩

theorem bound_scan (h : FiberInv cfg s) (hi : i < cfg.numThreads) {t n : Nat} (hb : AtMost n (Outstanding cfg s t)) {x : Scan} {j : Nat} {pc : ScanPC}
    (hpc : s.pc (s.mem.running i) = .scan x j pc)
    (hx : exec cfg s.mem i (s.mem.running i) ch (s.pc (s.mem.running i)) = some (m', p')) :
    AtMost n (Outstanding cfg ⟨m', s.pc.set (s.mem.running i) p'⟩ t) := by
  have hx' := hx
  rw [hpc] at hx'
  obtain ⟨a, r, hmove, rfl, rfl⟩ := exec_scan hx'
  have hcalm := hmove.calmer.counters
  cases hmove with
  | won hfree =>
      -- the claimed slot now is in the hands of the scanner
      refine hb.move (a := .slot x.counter j) (b := .scanner (s.mem.running i)) ?_ ?_ ?_
      · rintro ⟨huse, -⟩
        simp only [Table.get_set_self, AtomicCounter.slot_setSlot, if_true] at huse
        cases huse
      · intro hP
        replace hP : aims _ t ((s.pc.set (s.mem.running i) (.scan x j (.pinned _)))
          (s.mem.running i)) := hP
        rw [Table.get_set_self] at hP
        exact ⟨hfree, (hcalm x.counter j).1.symm.trans hP⟩
      · intro P h1 h2 hP
        exact outstanding_of h hi hx hcalm (fun c k _ => (hcalm c k).2) (fun _ _ _ hv => hv)
          (fun hP' => absurd hP' h2) (fun _ => (by simp [popped, scanNext])) hP
  | pinned hth =>
      refine bound_frame h hi hb hx hcalm (fun _ => rfl) (fun ha => ?_) (by simp [popped, scanNext])
      rw [hpc]
      show _ = some t
      rw [hth, ha]
  | free _ => exact bound_aimless h hi hb hx hcalm (fun _ => rfl) (aimless_nextSlot x j)
  | used _ => exact bound_aimless h hi hb hx hcalm (fun _ => rfl) (aimless_nextSlot x j)
  | offTarget _ => exact bound_aimless h hi hb hx hcalm (fun _ => rfl) (aimless_nextSlot x j)
  | lost _ => exact bound_aimless h hi hb hx hcalm (fun _ => rfl) (aimless_nextSlot x j)
  | release => exact bound_aimless h hi hb hx hcalm (fun _ => rfl) (aimless_nextSlot x j)
  | _ => exact bound_aimless h hi hb hx hcalm (fun _ => rfl) ⟨fun _ _ => id, rfl⟩

theorem bound_add (h : FiberInv cfg s) (hi : i < cfg.numThreads) {t n : Nat} (hb : AtMost n (Outstanding cfg s t)) {w : WaitCall} {j : Nat} {pc : AddPC}
    (hpc : s.pc (s.mem.running i) = .add w j pc) (hreg : registers (.add w j pc) = false)
    (hx : exec cfg s.mem i (s.mem.running i) ch (s.pc (s.mem.running i)) = some (m', p')) :
    AtMost n (Outstanding cfg ⟨m', s.pc.set (s.mem.running i) p'⟩ t) := by
  have hx' := hx
  rw [hpc] at hx'
  obtain ⟨a, r, hmove, rfl, rfl⟩ := exec_add hx'
  have hcalm := (hmove.calmer (by rintro rfl; cases hreg) (by rintro rfl; cases hreg)).counters
  cases r with
  | goto j' pc' =>
      exact bound_aimless h hi hb hx hcalm (fun _ => rfl) ⟨fun _ _ => id, rfl⟩
  | full => exact bound_aimless h hi hb hx hcalm (fun _ => rfl) ⟨fun _ _ => id, rfl⟩
  | ret b =>
      cases b <;> exact bound_aimless h hi hb hx hcalm (fun _ => rfl) ⟨fun _ _ => id, rfl⟩

theorem calmer_refl (c : Nat) : Calmer (m.counters c) (m.counters c) := .refl _

theorem bound_pin (h : FiberInv cfg s) (hr : ∀ t, Fifo.Ok maxWaiting (s.mem.threads t).pinnedResumableFibers)
    (hi : i < cfg.numThreads) {t n : Nat} (hb : AtMost n (Outstanding cfg s t)) {x : Scan} {j reg th : Nat}
    {pc : PinPC} (hpc : s.pc (s.mem.running i) = .pin x j reg th pc)
    (hx : exec cfg s.mem i (s.mem.running i) ch (s.pc (s.mem.running i)) = some (m', p')) :
    AtMost n (Outstanding cfg ⟨m', s.pc.set (s.mem.running i) p'⟩ t) := by
  have hx' := hx
  rw [hpc] at hx'
  have hring : ∀ t (wt : WorkerThread),
      wt.pinnedResumableFibers = (s.mem.threads th).pinnedResumableFibers →
      ((s.mem.threads.set th wt) t).pinnedResumableFibers =
        (s.mem.threads t).pinnedResumableFibers := by
    intro t wt hwt
    rw [Table.get_set]
    split
    · rename_i htt
      rw [hwt, htt]
    · rfl
  cases pc with
  | lock =>
      simp only [exec, pinStep] at hx'
      split at hx' <;> cases hx'
      · exact bound_frame h hi hb hx calmer_refl (fun _ => rfl) (fun ha => hpc ▸ ha) (by simp [popped])
      · exact bound_frame h hi hb hx calmer_refl (fun _ => hring _ _ rfl) (fun ha => hpc ▸ ha)
          (by simp [popped])
  | unlock =>
      cases hx'
      exact bound_aimless h hi hb hx calmer_refl (fun _ => hring _ _ rfl) ⟨fun _ _ => id, rfl⟩
  | push =>
      cases hx'
      by_cases htt : t = th
      · subst htt
        have hentry := Fifo.entry_enqueue (N := maxWaiting) (hr t).taken_le
          { fiber := ((s.mem.counters x.counter).slot j).fiberIndex
            reg := ((s.mem.counters x.counter).slot j).reg }
        refine hb.move (a := .scanner (s.mem.running i))
          (b := .entry (s.mem.threads t).pinnedResumableFibers.log.length) ?_ ?_ ?_
        · intro hP
          replace hP : aims _ t ((s.pc.set (s.mem.running i) (.pin x j reg t .unlock))
            (s.mem.running i)) := hP
          rw [Table.get_set_self] at hP
          exact absurd hP id
        · intro _
          show aims s.mem t (s.pc (s.mem.running i))
          rw [hpc]
          rfl
        · intro P h1 h2 hP
          refine outstanding_of h hi hx calmer_refl (fun c k _ => id) ?_ (fun hP' => absurd hP' h1)
            (fun _ => (by simp [popped])) hP
          intro k hk v hv
          simp only [Table.get_set_self] at hv
          rw [hentry, if_neg fun heq => h2 (by rw [hk, heq])] at hv
          split at hv
          · cases hv
          · exact hv
      · refine hb.mono fun P hP => ?_
        refine outstanding_of h hi hx calmer_refl (fun c k _ => id) ?_ (fun _ => (by simp [aims]))
          (fun _ => (by simp [popped])) hP
        intro k _ v hv
        simp only [Table.get_set_ne _ _ htt] at hv
        exact hv

theorem bound_exec (h : FiberInv cfg s) (hq : QueueInv s) (hinv : PinnedInv cfg s) (hi : i < cfg.numThreads) {t : Nat} (hreg : registers (s.pc (s.mem.running i)) = false)
    (hx : exec cfg s.mem i (s.mem.running i) ch (s.pc (s.mem.running i)) = some (m', p')) :
    AtMost maxWaiting (Outstanding cfg ⟨m', s.pc.set (s.mem.running i) p'⟩ t) := by
  have hb := hinv t
  have hring : ∀ t (wt : WorkerThread),
      wt.pinnedResumableFibers = (s.mem.threads i).pinnedResumableFibers →
      ((s.mem.threads.set i wt) t).pinnedResumableFibers =
        (s.mem.threads t).pinnedResumableFibers := by
    intro t wt hwt
    rw [Table.get_set]
    split
    · rename_i htt
      rw [hwt, htt]
    · rfl
  have hx' := hx
  cases hpc : s.pc (s.mem.running i) with
  | scan x j pc => exact bound_scan h hi hb hpc hx
  | add w j pc => exact bound_add h hi hb hpc (hpc ▸ hreg) hx
  | pin x j reg th pc => exact bound_pin h hq.pinned hi hb hpc hx
  | getLock =>
      rw [hpc] at hx'
      simp only [exec] at hx'
      split at hx' <;> cases hx'
      · exact bound_aimless h hi hb hx calmer_refl (fun _ => rfl) ⟨fun _ _ => id, rfl⟩
      · exact bound_aimless h hi hb hx calmer_refl (fun _ => hring _ _ rfl) ⟨fun _ _ => id, rfl⟩
  | getPop =>
      rw [hpc] at hx'
      cases hx'
      rcases (hq.pinned i).dequeue maxWaiting_capacity with ⟨-, hd⟩ | ⟨v, hv, hout, hlog, htaken, -⟩
      · refine bound_aimless h hi hb hx calmer_refl (fun _ => hring _ _ (by rw [hd])) ?_
        rw [hd]
        exact ⟨fun _ _ => id, rfl⟩
      · by_cases hti : t = i
        · subst hti
          have hentry := Fifo.entry_dequeue hlog htaken
          refine hb.move (a := .entry (s.mem.threads t).pinnedResumableFibers.taken) (b := .own)
            ?_ ?_ ?_
          · rintro ⟨u, hu⟩
            simp only [Table.get_set_self] at hu
            rw [hentry, if_pos rfl] at hu
            cases hu
          · intro _
            refine ⟨v, ?_⟩
            rw [Fifo.entry, if_pos (le_refl _), hv]
          · intro P h1 h2 hP
            refine outstanding_of h hi hx calmer_refl (fun c k _ => id) ?_ (fun _ => (by simp [aims]))
              (fun hP' => absurd hP' h2) hP
            intro k hk u hu
            simp only [Table.get_set_self] at hu
            rwa [hentry, if_neg fun heq => h1 (by rw [hk, heq])] at hu
        · refine hb.mono fun P hP => ?_
          cases P with
          | own =>
              rcases own_step h hi hx hP with ⟨heq, -⟩ | ⟨-, hold⟩
              · exact absurd heq hti
              · exact hold
          | _ =>
              refine outstanding_of h hi hx calmer_refl (fun c k _ => id) ?_ (fun _ => (by simp [aims]))
                (by simp) hP
              intro k _ u hu
              simp only [Table.get_set_ne _ _ hti] at hu
              exact hu
  | getUnlock got =>
      rw [hpc] at hx'
      cases hx'
      refine bound_frame h hi hb hx calmer_refl (fun _ => hring _ _ rfl) ?_ ?_
      · cases got <;> simp [aims]
      · rw [hpc]
        cases got <;> exact fun hp => hp
  | tryResume src v =>
      rw [hpc] at hx'
      simp only [exec] at hx'
      split at hx'
      · cases hx'
        exact bound_aimless h hi hb hx calmer_refl (fun _ => rfl) ⟨fun _ _ => id, rfl⟩
      · split at hx' <;> cases hx'
        · exact bound_frame h hi hb hx calmer_refl (fun _ => rfl) (by simp [aims]) (by rw [hpc]; exact id)
        · exact bound_aimless h hi hb hx calmer_refl (fun _ => rfl) ⟨fun _ _ => id, rfl⟩
  | reLock v =>
      rw [hpc] at hx'
      simp only [exec] at hx'
      split at hx' <;> cases hx'
      · exact bound_frame h hi hb hx calmer_refl (fun _ => rfl) (by simp [aims]) (by rw [hpc]; exact id)
      · exact bound_frame h hi hb hx calmer_refl (fun _ => hring _ _ rfl) (by simp [aims])
          (by rw [hpc]; exact id)
  | rePush v =>
      rw [hpc] at hx'
      cases hx'
      by_cases hti : t = i
      · subst hti
        have hentry := Fifo.entry_enqueue (N := maxWaiting) (hq.pinned t).taken_le v
        refine hb.move (a := .own) (b := .entry (s.mem.threads t).pinnedResumableFibers.log.length)
          ?_ ?_ ?_
        · intro hP
          rcases own_step h hi hx hP with ⟨-, hp⟩ | ⟨hne, -⟩
          · cases hp
          · exact absurd rfl hne
        · intro _
          refine ⟨hi, ?_⟩
          rw [hpc]
          rfl
        · intro P h1 h2 hP
          refine outstanding_of h hi hx calmer_refl (fun c k _ => id) ?_ (fun _ => (by simp [aims]))
            (fun hP' => absurd hP' h1) hP
          intro k hk u hu
          simp only [Table.get_set_self] at hu
          rw [hentry, if_neg fun heq => h2 (by rw [hk, heq])] at hu
          split at hu
          · cases hu
          · exact hu
      · refine hb.mono fun P hP => ?_
        refine outstanding_of h hi hx calmer_refl (fun c k _ => id) ?_ (fun _ => (by simp [aims]))
          (fun _ => (by simp [popped])) hP
        intro k _ u hu
        simp only [Table.get_set_ne _ _ hti] at hu
        exact hu
  | reUnlock =>
      rw [hpc] at hx'
      cases hx'
      exact bound_aimless h hi hb hx calmer_refl (fun _ => hring _ _ rfl) ⟨fun _ _ => id, rfl⟩
  | increment inc =>
      rw [hpc] at hx'
      simp only [exec, incrementStep] at hx'
      have hcalm : ∀ c, Calmer (s.mem.counters c) ((s.mem.counters.set inc.counter
          { s.mem.counters inc.counter with
            count := (s.mem.counters inc.counter).count + inc.amount }) c) :=
        Calmer.counters fun _ => ⟨rfl, id⟩
      split at hx' <;> cases hx' <;>
        exact bound_aimless h hi hb hx hcalm (fun _ => rfl) ⟨fun _ _ => id, rfl⟩
  | resetCount c k =>
      rw [hpc] at hx'
      cases hx'
      exact bound_aimless h hi hb hx (Calmer.counters fun _ => ⟨rfl, id⟩) (fun _ => rfl)
        ⟨fun _ _ => id, rfl⟩
  | resetSlot c j k =>
      rw [hpc] at hx'
      cases hx'
      refine bound_aimless h hi hb hx (Calmer.counters (.setFree _ _ _)) (fun _ => rfl) ?_
      split <;> exact ⟨fun _ _ => id, rfl⟩
  | _ =>
      rw [hpc] at hx'
      simp only [exec, userStep, beginWait, afterWait, submitNext, afterRelease, cleanStep,
        submitTasks, enqueueNext] at hx'
      (repeat' split at hx') <;> cases hx' <;> first
        | exact bound_aimless h hi hb hx calmer_refl (fun _ => rfl) ⟨fun _ _ => id, rfl⟩
        | exact bound_aimless h hi hb hx calmer_refl (fun _ => rfl)
            ⟨fun _ t => aims_afterClean t _, popped_afterClean _⟩
        | exact bound_aimless h hi hb hx calmer_refl (fun _ => rfl)
            ⟨fun _ t => aims_afterPush t _ _, popped_afterPush _ _⟩

/-! ## Runs -/

/-- Every registration leaves at most `maxWaiting` outstanding for each thread. -/
def RegistersWithin (cfg : Config) (s : State) (l : Label) : Prop :=
  registers (s.pc (s.mem.running l.thread)) = true →
    ∀ s', step cfg s l = some s' → ∀ t, AtMost maxWaiting (Outstanding cfg s' t)

theorem PinnedInv.step (h : FibersInv cfg s) (hinv : PinnedInv cfg s) (hg : RegistersWithin cfg s l)
    (hs : step cfg s l = some s') : PinnedInv cfg s' := by
  have hs' := hs
  obtain ⟨-, hi, m', p', hx, rfl⟩ := step_eq_some.1 hs
  intro t
  by_cases hreg : registers (s.pc (s.mem.running l.thread)) = true
  · exact hg hreg _ hs' t
  · exact bound_exec h.fibers h.queues hinv hi (by simpa using hreg) hx

theorem PinnedInv.start (cfg : Config) : PinnedInv cfg (start cfg) := by
  intro t F hF
  have hnone : ∀ P, ¬ Outstanding cfg (Scheduler.start cfg) t P := by
    intro P hP
    cases P with
    | slot c j =>
        obtain ⟨huse, -⟩ := hP
        cases huse
    | scanner a =>
        replace hP : aims _ t ((Scheduler.start cfg).pc a) := hP
        rw [start_pc] at hP
        split at hP
        · exact hP
        · split at hP <;> exact hP
    | entry k =>
        obtain ⟨v, hv⟩ := hP
        cases hv
    | own =>
        obtain ⟨-, hP⟩ := hP
        rw [start_pc] at hP
        split at hP
        · cases hP
        · split at hP <;> cases hP
  have hempty : F = ∅ := Finset.eq_empty_of_forall_notMem fun P hP => hnone P (hF P hP)
  rw [hempty]
  exact Nat.zero_le _

/-- The queue an access of thread `i` enqueues on. -/
def pinnedEnqueue (i : Nat) : PC → Option Nat
  | .pin _ _ _ t .push => some t
  | .rePush _ => some i
  | _ => none

/-- A full queue together with the entry on its way makes one too many. -/
theorem PinnedInv.not_full (hinv : PinnedInv cfg s) (hqueues : QueueInv s)
    (hi : i < cfg.numThreads) {t : Nat}
    (hq : pinnedEnqueue i (s.pc (s.mem.running i)) = some t) :
    (s.mem.threads t).pinnedResumableFibers.full maxWaiting = false := by
  have hring := hqueues.pinned t
  rw [Bool.eq_false_iff]
  intro hfull
  have hlen := (hring.full_iff maxWaiting_capacity).1 hfull
  obtain ⟨P, hP, hne⟩ : ∃ P, Outstanding cfg s t P ∧ ∀ k, P ≠ .entry k := by
    cases hpc : s.pc (s.mem.running i) with
    | pin x j reg th pc =>
        rw [hpc] at hq
        cases pc with
        | push =>
            refine ⟨.scanner (s.mem.running i), ?_, by simp⟩
            show aims s.mem t (s.pc (s.mem.running i))
            rw [hpc]
            exact Option.some.inj hq
        | lock => cases hq
        | unlock => cases hq
    | rePush v =>
        rw [hpc] at hq
        cases hq
        refine ⟨.own, ⟨hi, ?_⟩, by simp⟩
        rw [hpc]
        rfl
    | _ =>
        rw [hpc] at hq
        cases hq
  refine AtMost.not_of_succ (f := fun k =>
    .entry ((s.mem.threads t).pinnedResumableFibers.taken + k)) ?_ ?_ hP
    (fun k heq => hne _ heq.symm) (hinv t)
  · intro x y hxy
    have := PinnedPlace.entry.inj hxy
    omega
  · intro k hk
    have hlt : (s.mem.threads t).pinnedResumableFibers.taken + k <
        (s.mem.threads t).pinnedResumableFibers.log.length := by omega
    show ∃ v, (s.mem.threads t).pinnedResumableFibers.entry _ = some v
    rw [Fifo.entry, if_pos (Nat.le_add_right _ _)]
    exact ⟨_, List.getElem?_eq_getElem hlt⟩

end Steps

/-- No queue of pinned fibers is full when a fiber is enqueued on it. -/
theorem pinned_not_full_of_run {cfg : Config} (hcfg : cfg.Ok) {σ : Nat → State} {ℓ : Nat → Label}
    {n : Nat} (h : Run (step cfg) (start cfg) σ ℓ n)
    (hg : ∀ k, k < n → RegistersWithin cfg (σ k) (ℓ k)) {k : Nat} (hk : k < n) {t : Nat}
    (hq : pinnedEnqueue (ℓ k).thread ((σ k).pc ((σ k).mem.running (ℓ k).thread)) = some t) :
    ((σ k).mem.threads t).pinnedResumableFibers.full maxWaiting = false := by
  have hinv : ∀ j, j ≤ n → FibersInv cfg (σ j) ∧ PinnedInv cfg (σ j) :=
    h.guarded (I := fun s => FibersInv cfg s ∧ PinnedInv cfg s) ⟨.start hcfg, .start cfg⟩
      (fun s l s' hI hG hs => ⟨hI.1.step hs, PinnedInv.step hI.1 hI.2 hG hs⟩) hg
  obtain ⟨-, hi, -⟩ := step_eq_some.1 (h.next k hk)
  obtain ⟨hfibers, hpinned⟩ := hinv k (Nat.le_of_lt hk)
  exact hpinned.not_full hfibers.queues hi hq

/-! ## A bound that can be computed -/

/-- Places that include everything outstanding for any thread. -/
def outstandingPlaces (s : State) : List PinnedPlace :=
  ((List.range s.mem.counters.cells.length).flatMap fun c =>
    ((List.range (s.mem.counters c).waitingFibers.cells.length).filter fun j =>
      ((s.mem.counters c).slot j).inUse = false).map fun j => .slot c j) ++
  ((List.range s.pc.cells.length).filter fun a =>
    match s.pc a with
    | .scan _ _ (.pinned _) => true
    | .pin .. => true
    | _ => false).map .scanner ++
  (s.mem.threads.cells.flatMap fun th =>
    (List.range th.pinnedResumableFibers.log.length).map .entry) ++ [.own]

/-- Nothing is outstanding where nothing was ever written. -/
def restQuiet (s : State) : Bool :=
  s.mem.counters.cells.all (fun a => a.waitingFibers.rest.inUse) &&
    s.mem.counters.rest.waitingFibers.cells.isEmpty && s.mem.counters.rest.waitingFibers.rest.inUse &&
    s.pc.rest = .done && s.mem.threads.rest.pinnedResumableFibers.log.isEmpty

theorem get_cases {α : Type} (t : Table α) (i : Nat) :
    i < t.cells.length ∧ t i ∈ t.cells ∨ t i = t.rest := by
  rcases Nat.lt_or_ge i t.cells.length with hlt | hge
  · refine Or.inl ⟨hlt, ?_⟩
    show Table.lookup t.rest t.cells i ∈ t.cells
    rw [Table.lookup_eq_getD, List.getElem?_eq_getElem hlt]
    exact List.getElem_mem hlt
  · exact Or.inr (t.get_eq_rest hge)

theorem mem_outstandingPlaces {cfg : Config} {s : State} (hrest : restQuiet s = true) {t : Nat}
    {P : PinnedPlace} (hP : Outstanding cfg s t P) : P ∈ outstandingPlaces s := by
  simp only [restQuiet, Bool.and_eq_true, List.all_eq_true, decide_eq_true_eq,
    List.isEmpty_iff] at hrest
  obtain ⟨⟨⟨⟨hcells, hnone⟩, hinUse⟩, hdone⟩, hlog⟩ := hrest
  simp only [outstandingPlaces, List.mem_append, List.mem_flatMap, List.mem_map, List.mem_filter,
    List.mem_range, List.mem_singleton]
  cases P with
  | slot c j =>
      obtain ⟨huse, -⟩ := hP
      refine Or.inl (Or.inl (Or.inl ⟨c, ?_, j, ⟨?_, by simpa using huse⟩, rfl⟩))
      · rcases get_cases s.mem.counters c with ⟨hlt, -⟩ | hr
        · exact hlt
        · rw [hr, AtomicCounter.slot, Table.get_eq_rest _ (by rw [hnone]; exact Nat.zero_le _),
            hinUse] at huse
          cases huse
      · by_contra hge
        have hdefault := (s.mem.counters c).waitingFibers.get_eq_rest (Nat.le_of_not_lt hge)
        rw [AtomicCounter.slot, hdefault] at huse
        rcases get_cases s.mem.counters c with ⟨-, hmem⟩ | hr
        · rw [hcells _ hmem] at huse
          cases huse
        · rw [hr, hinUse] at huse
          cases huse
  | scanner a =>
      replace hP : aims s.mem t (s.pc a) := hP
      refine Or.inl (Or.inl (Or.inr ⟨a, ⟨?_, ?_⟩, rfl⟩))
      · by_contra hge
        rw [s.pc.get_eq_rest (Nat.le_of_not_lt hge), hdone] at hP
        exact hP
      · unfold aims at hP
        split at hP <;> rename_i heq <;> first
          | rw [heq]
          | exact absurd hP id
  | entry k =>
      obtain ⟨v, hv⟩ := hP
      have hk : k < (s.mem.threads t).pinnedResumableFibers.log.length := by
        rw [Fifo.entry] at hv
        split at hv
        · exact (List.getElem?_eq_some_iff.1 hv).1
        · cases hv
      rcases get_cases s.mem.threads t with ⟨-, hmem⟩ | hr
      · exact Or.inl (Or.inr ⟨_, hmem, k, hk, rfl⟩)
      · rw [hr, hlog] at hk
        cases hk
  | own => exact Or.inr rfl

/-- Whether the step of a registration can be seen to stay within the bound. -/
def registersFew (cfg : Config) (s : State) (l : Label) : Bool :=
  !registers (s.pc (s.mem.running l.thread)) ||
    match step cfg s l with
    | some s' => restQuiet s' && decide ((outstandingPlaces s').length ≤ maxWaiting)
    | none => true

theorem RegistersWithin.of_few {cfg : Config} {s : State} {l : Label}
    (h : registersFew cfg s l = true) : RegistersWithin cfg s l := by
  classical
  intro hreg s' hs t F hF
  simp only [registersFew, hreg, Bool.not_true, Bool.false_or, hs, Bool.and_eq_true,
    decide_eq_true_eq] at h
  have hsub : F ⊆ (outstandingPlaces s').toFinset := fun P hP =>
    List.mem_toFinset.2 (mem_outstandingPlaces h.1 (hF P hP))
  exact (Finset.card_le_card hsub).trans ((List.toFinset_card_le _).trans h.2)

/-- The main task submits one task and waits for it, and thread `1` runs it up to
the enqueue on the queue of thread `0`. -/
def wakeLabels : List Label :=
  goes 0 7 ++ calls 0 (.submit 0 1) 38 ++ [⟨0, .handle 0⟩] ++ goes 0 38 ++ goes 1 19 ++
    calls 0 (.waitFor 0 true) 12 ++ calls 1 .ret 8

theorem pinned_not_full_wake :
    ((trace (step pairConfig) (start pairConfig) wakeLabels 125).mem.threads
      0).pinnedResumableFibers.full maxWaiting = false := by
  have hrun : follows (step pairConfig) (registersFew pairConfig) (start pairConfig) wakeLabels =
      true := by decide +kernel
  exact pinned_not_full_of_run pairConfig_ok (Run.of_follows ⟨0, .go⟩ hrun)
    (fun k hk => .of_few (trace_ok ⟨0, .go⟩ hrun k hk)) (k := 125) (by decide +kernel)
    (by decide +kernel)

/-! ## More waiters than the queue holds

Two counters have room for more waiters than one queue.  Thread `0` suspends
thirty-two fibers on the first counter and one on the second, all pinned to it,
and stays busy while thread `1` brings both counters on target. -/

def busyConfig : Config where
  numFibers := 64
  numThreads := 2
  maxNumCounters := 2
  maxNumTasks := 64

theorem busyConfig_ok : busyConfig.Ok :=
  ⟨⟨6, by decide, rfl⟩, ⟨1, by decide, rfl⟩, ⟨6, by decide, rfl⟩⟩

def busyLabels : List Label :=
  goes 0 7 ++ calls 0 .acquire 38 ++ [⟨0, .handle 0⟩] ++ calls 0 .acquire 38 ++ [⟨0, .handle 1⟩] ++
    calls 0 (.submitOn 0 34) 203 ++ goes 1 19 ++
    (List.range 32).flatMap (fun k => calls 0 (.waitOn 0 true 99) (28 + k)) ++
    calls 0 (.waitOn 1 true 1) 28 ++ calls 1 (.add 0 65) 289 ++ calls 1 (.add 1 1) 8

/-- The thirty-third pinned fiber is enqueued on a full queue. -/
theorem pinned_overflow :
    ¬ ∀ (cfg : Config), cfg.Ok → ∀ (σ : Nat → State) (ℓ : Nat → Label) (n : Nat),
      Run (step cfg) (start cfg) σ ℓ n → ∀ k, k < n → ∀ t,
        pinnedEnqueue (ℓ k).thread ((σ k).pc ((σ k).mem.running (ℓ k).thread)) = some t →
        ((σ k).mem.threads t).pinnedResumableFibers.full maxWaiting = false := by
  intro h
  have hrun : follows (step busyConfig) (fun _ _ => true) (start busyConfig) busyLabels = true := by
    decide +kernel
  have hlast : pinnedEnqueue 1
        ((trace (step busyConfig) (start busyConfig) busyLabels 2061).pc
          ((trace (step busyConfig) (start busyConfig) busyLabels 2061).mem.running 1)) = some 0 ∧
      ((trace (step busyConfig) (start busyConfig) busyLabels 2061).mem.threads
        0).pinnedResumableFibers.full maxWaiting = true := by
    decide +kernel
  have hk : 2061 < busyLabels.length := by decide +kernel
  have hlabel : busyLabels.getD 2061 ⟨0, .go⟩ = ⟨1, .go⟩ := by decide +kernel
  have hfull := h busyConfig busyConfig_ok _ _ _ (Run.of_follows ⟨0, .go⟩ hrun) 2061 hk 0
    (by simpa only [hlabel] using hlast.1)
  rw [hlast.2] at hfull
  cases hfull

end TaskDispatcher.Scheduler
