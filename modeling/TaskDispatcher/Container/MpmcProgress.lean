import TaskDispatcher.Container.MpmcLinear
import Mathlib.Tactic.IntervalCases

/-!
# `MPMCQueue` is lock-free

A thread that is between its call and its claim can be held up only by the claims of
others: of four accesses that it makes, one claims a position or returns, or somebody has
claimed a position meanwhile.
-/

namespace TaskDispatcher.Container

open TaskDispatcher.Library

variable {T A : Type}

/-- How many accesses a caller makes at most until its call returns or a position is
claimed. -/
def Caller.rank (q : Mpmc T) : Caller T → Nat
  | .idle => 0
  | .enqueue _ .load => 3
  | .enqueue _ (.sequence pos) => if pos = q.enqueuePos then 2 else 4
  | .enqueue _ (.claim pos) => if pos = q.enqueuePos then 1 else 3
  | .enqueue _ (.write _) => 2
  | .enqueue _ (.publish _) => 1
  | .dequeue .load => 3
  | .dequeue (.sequence pos) => if pos = q.dequeuePos then 2 else 4
  | .dequeue (.claim pos) => if pos = q.dequeuePos then 1 else 3
  | .dequeue (.read _) => 2
  | .dequeue (.publish _ _) => 1

/-- No position is claimed. -/
def Unclaimed (q q' : Mpmc T) : Prop :=
  q'.enqueuePos = q.enqueuePos ∧ q'.dequeuePos = q.dequeuePos

theorem Caller.rank_congr {q q' : Mpmc T} (h : Unclaimed q q') (l : Caller T) :
    l.rank q' = l.rank q := by
  obtain ⟨henq, hdeq⟩ := h
  cases l with
  | idle => rfl
  | enqueue v pc => cases pc <;> simp only [Caller.rank, henq]
  | dequeue pc => cases pc <;> simp only [Caller.rank, hdeq]

theorem Caller.rank_le (q : Mpmc T) (l : Caller T) : l.rank q ≤ 4 := by
  cases l with
  | idle => exact Nat.zero_le 4
  | enqueue v pc => cases pc <;> simp only [Caller.rank] <;> (try split) <;> omega
  | dequeue pc => cases pc <;> simp only [Caller.rank] <;> (try split) <;> omega

theorem Caller.rank_pos (q : Mpmc T) {l : Caller T} (hl : l ≠ .idle) : 0 < l.rank q := by
  cases l with
  | idle => exact absurd rfl hl
  | enqueue v pc => cases pc <;> simp only [Caller.rank] <;> (try split) <;> omega
  | dequeue pc => cases pc <;> simp only [Caller.rank] <;> (try split) <;> omega

namespace Mpmc

variable {q : Mpmc T} {caller : A → Caller T} {a : A}

/-- The next position to claim is not ahead of its cell. -/
theorem Inv.sequence_enqueuePos (h : Inv q caller) :
    (q.cell q.enqueuePos).sequence ≤ q.enqueuePos := by
  have h2 := h.two_le_size
  have hle := h.deq_le
  have hsize := h.enq_le
  rcases Nat.lt_or_ge q.enqueuePos (q.dequeuePos + q.size) with hlt | hge
  · rcases h.vacant q.enqueuePos (le_refl _) hlt with hseq | ⟨-, hseq, -⟩ <;> omega
  · -- the cell is the one of the oldest value
    have heq : q.enqueuePos = q.dequeuePos + q.size := by omega
    have hcell : q.cell q.enqueuePos = q.cell q.dequeuePos := by
      rw [heq]
      exact h.cell_add_size q.dequeuePos
    rw [hcell]
    rcases h.filled q.dequeuePos (le_refl _) (by omega) with ⟨hseq, -⟩ | ⟨hseq, -⟩ <;> omega

theorem Inv.sequence_dequeuePos (h : Inv q caller) :
    (q.cell q.dequeuePos).sequence ≤ q.dequeuePos + 1 := by
  have h2 := h.two_le_size
  rcases Nat.lt_or_ge q.dequeuePos q.enqueuePos with hlt | hge
  · rcases h.filled q.dequeuePos (le_refl _) hlt with ⟨hseq, -⟩ | ⟨hseq, -⟩ <;> omega
  · rcases h.vacant q.dequeuePos hge (by omega) with hseq | ⟨-, hseq, -⟩ <;> omega

/-- An access of `enqueue` that does not fail spuriously claims, returns or goes on. -/
theorem Inv.enqueue_goes (h : Inv q caller) {v : T} {pc : EnqueuePC}
    (ha : caller a = .enqueue v pc) :
    ¬ Unclaimed q (enqueueStep 0 v false q pc).1 ∨
      Caller.afterEnqueue v (enqueueStep 0 v false q pc).2 = .idle ∨
      (Caller.afterEnqueue v (enqueueStep 0 v false q pc).2).rank q < (Caller.enqueue v pc).rank q := by
  cases pc with
  | load =>
      right
      right
      simp [enqueueStep, Caller.afterEnqueue, Caller.rank]
  | sequence pos =>
      right
      simp only [enqueueStep]
      split
      · right
        simp only [Caller.afterEnqueue, Caller.rank]
        split <;> omega
      · rename_i hne
        split
        · exact Or.inl rfl
        · rename_i hnot
          right
          rw [diff_zero] at hne hnot
          -- the position has been claimed since it was loaded
          have hstale : pos ≠ q.enqueuePos := by
            rintro rfl
            have hle := h.sequence_enqueuePos
            omega
          simp only [Caller.afterEnqueue, Caller.rank, if_neg hstale]
          omega
  | claim pos =>
      by_cases hpos : q.enqueuePos = pos
      · left
        rintro ⟨henq, -⟩
        simp only [enqueueStep, hpos, and_self, if_true, Nat.mod_zero] at henq
        omega
      · right
        right
        have hne : pos ≠ q.enqueuePos := fun heq => hpos heq.symm
        simp [enqueueStep, hpos, Caller.afterEnqueue, Caller.rank, hne]
  | write pos =>
      right
      right
      simp [enqueueStep, Caller.afterEnqueue, Caller.rank]
  | publish pos =>
      right
      left
      rfl

theorem Inv.dequeue_goes (h : Inv q caller) {pc : DequeuePC T} (ha : caller a = .dequeue pc) :
    ¬ Unclaimed q (dequeueStep 0 false q pc).1 ∨
      Caller.afterDequeue (dequeueStep 0 false q pc).2 = .idle ∨
      (Caller.afterDequeue (dequeueStep 0 false q pc).2).rank q < (Caller.dequeue pc).rank q := by
  cases pc with
  | load =>
      right
      right
      simp [dequeueStep, Caller.afterDequeue, Caller.rank]
  | sequence pos =>
      right
      simp only [dequeueStep, Nat.mod_zero]
      split
      · right
        simp only [Caller.afterDequeue, Caller.rank]
        split <;> omega
      · rename_i hne
        split
        · exact Or.inl rfl
        · rename_i hnot
          right
          rw [diff_zero] at hne hnot
          have hstale : pos ≠ q.dequeuePos := by
            rintro rfl
            have hle := h.sequence_dequeuePos
            omega
          simp only [Caller.afterDequeue, Caller.rank, if_neg hstale]
          omega
  | claim pos =>
      by_cases hpos : q.dequeuePos = pos
      · left
        rintro ⟨-, hdeq⟩
        simp only [dequeueStep, hpos, and_self, if_true, Nat.mod_zero] at hdeq
        omega
      · right
        right
        have hne : pos ≠ q.dequeuePos := fun heq => hpos heq.symm
        simp [dequeueStep, hpos, Caller.afterDequeue, Caller.rank, hne]
  | read pos =>
      right
      right
      simp [dequeueStep, Caller.afterDequeue, Caller.rank]
  | publish pos x =>
      right
      left
      rfl

end Mpmc

namespace System

variable [DecidableEq A] {s s' : System T A} {N : Nat} {a : A}

/-- The access counts for thread `a`. -/
def counts (a : A) : Action T A → Nat
  | .access b _ => if b = a then 1 else 0
  | _ => 0

/-- The accesses that thread `a` makes in the `n` steps from `j` on. -/
def accesses (a : A) (ℓ : Nat → Action T A) (j : Nat) : Nat → Nat
  | 0 => 0
  | n + 1 => accesses a ℓ j n + counts a (ℓ (j + n))

/-- The call of thread `a` returns. -/
def Returns (a : A) (s s' : System T A) : Prop := s.caller a ≠ .idle ∧ s'.caller a = .idle

/-- What thread `a` has to do in a stretch of a run in which no position is claimed and it
does not return, after `n` of its accesses. -/
def Within (a : A) (n : Nat) (s : System T A) : Prop :=
  s.caller a = .idle ∧ n = 0 ∨ s.caller a ≠ .idle ∧ n + (s.caller a).rank s.queue ≤ 4

omit [DecidableEq A] in
theorem Within.bound {n : Nat} (h : Within a n s) : n ≤ 3 := by
  rcases h with ⟨-, rfl⟩ | ⟨hcalls, hle⟩
  · omega
  · have hpos := Caller.rank_pos s.queue hcalls
    omega

/-- Beginning a call leaves the queue; the thread that begins was in none. -/
theorem Within.begin {n : Nat} (h : Within a n s) {b : A} {l : Caller T} (hl : l ≠ .idle)
    (hload : l.rank s.queue ≤ 4) (hs : s.begin b l = some s') : Within a n s' := by
  unfold System.begin at hs
  split at hs
  · rename_i hidle
    simp only [Option.some.injEq] at hs
    subst hs
    unfold Within
    by_cases hba : a = b
    · subst hba
      obtain ⟨-, rfl⟩ | ⟨hcalls, -⟩ := h
      · right
        show Function.update s.caller a l a ≠ .idle ∧
          0 + (Function.update s.caller a l a).rank s.queue ≤ 4
        rw [Function.update_self]
        exact ⟨hl, by omega⟩
      · exact absurd hidle hcalls
    · show Function.update s.caller b l a = .idle ∧ n = 0 ∨
        Function.update s.caller b l a ≠ .idle ∧
          n + (Function.update s.caller b l a).rank s.queue ≤ 4
      rw [Function.update_of_ne hba]
      exact h
  · cases hs

/-- An access of another thread that claims no position. -/
theorem Within.other {n : Nat} (h : Within a n s) {b : A} (hba : a ≠ b) {q : Mpmc T} {l : Caller T}
    {evs : List (Event T)} (hsame : Unclaimed s.queue q) : Within a n (s.advance b q l evs) := by
  have hcaller : (s.advance b q l evs).caller a = s.caller a := Function.update_of_ne hba _ _
  unfold Within
  rw [hcaller]
  show _ ∨ _ ∧ n + (s.caller a).rank q ≤ 4
  rw [Caller.rank_congr hsame]
  exact h

/-- An access of its own brings a thread nearer to its return or a claim. -/
theorem Within.own {n : Nat} (h : Within a n s) {q : Mpmc T} {l : Caller T}
    {evs : List (Event T)} (hcalls : s.caller a ≠ .idle) (hsame : Unclaimed s.queue q)
    (hstays : ¬ Returns a s (s.advance a q l evs))
    (hgoes : ¬ Unclaimed s.queue q ∨ l = .idle ∨ l.rank s.queue < (s.caller a).rank s.queue) :
    Within a (n + 1) (s.advance a q l evs) := by
  have hcaller : (s.advance a q l evs).caller a = l := Function.update_self _ _ _
  have hle : n + (s.caller a).rank s.queue ≤ 4 := by
    rcases h with ⟨hidle, -⟩ | ⟨-, hle⟩
    · exact absurd hidle hcalls
    · exact hle
  rcases hgoes with hclaim | rfl | hlt
  · exact absurd hsame hclaim
  · exact absurd ⟨hcalls, hcaller⟩ hstays
  · right
    rw [hcaller]
    refine ⟨?_, ?_⟩
    · rintro rfl
      exact hstays ⟨hcalls, hcaller⟩
    · show n + 1 + l.rank q ≤ 4
      rw [Caller.rank_congr hsame]
      omega

/-- One action, of whichever thread. -/
theorem Within.step {n : Nat} (h : Within a n s) (hrec : Recorded N s)
    (hfits : s.queue.enqueuePos + s.queue.size < 2 ^ 63) {act : Action T A}
    (hs : s.step act = some s') (hgenuine : act ≠ .access a true)
    (hsame : Unclaimed s.queue s'.queue) (hstays : ¬ Returns a s s') :
    Within a (n + counts a act) s' := by
  cases act with
  | enqueue b v =>
      apply h.begin (l := .enqueue v .load) _ (Caller.rank_le _ _) hs
      intro heq
      cases heq
  | dequeue b =>
      apply h.begin (l := .dequeue .load) _ (Caller.rank_le _ _) hs
      intro heq
      cases heq
  | access b spurious =>
      show Within a (n + if b = a then 1 else 0) s'
      have hidle : s.caller b ≠ .idle := by
        intro hidle
        simp only [System.step, hidle] at hs
        cases hs
      cases hb : s.caller b with
      | idle => exact absurd hb hidle
      | enqueue v pc =>
          simp only [System.step, hb, Option.some.injEq] at hs
          subst hs
          by_cases hba : b = a
          · subst hba
            have hfalse : spurious = false := by
              cases spurious
              · rfl
              · exact absurd rfl hgenuine
            subst hfalse
            rw [if_pos rfl]
            apply h.own hidle hsame hstays
            rw [hb, hrec.ring.enqueueStep_sizeT hfits hb]
            exact hrec.ring.enqueue_goes hb
          · rw [if_neg hba]
            exact h.other (Ne.symm hba) hsame
      | dequeue pc =>
          simp only [System.step, hb, Option.some.injEq] at hs
          subst hs
          by_cases hba : b = a
          · subst hba
            have hfalse : spurious = false := by
              cases spurious
              · rfl
              · exact absurd rfl hgenuine
            subst hfalse
            rw [if_pos rfl]
            apply h.own hidle hsame hstays
            rw [hb, hrec.ring.dequeueStep_sizeT hfits hb]
            exact hrec.ring.dequeue_goes hb
          · rw [if_neg hba]
            exact h.other (Ne.symm hba) hsame

/-- In every run with fewer than `2 ^ 62` calls, among four accesses of one thread, none of
whose exchanges fails spuriously, there is one step at which some thread claims a position
or the thread returns. -/
theorem lockFree_of_run {k : Nat} (hk : 1 ≤ k) (hk' : k ≤ 62) {d : T} {σ : Nat → System T A}
    {ℓ : Nat → Action T A} {n : Nat} (hrun : Run step (start (2 ^ k) d) σ ℓ n)
    (hcalls : (σ n).calls < 2 ^ 62) (a : A) {j m : Nat} (hjm : j + m ≤ n)
    (hgenuine : ∀ i, i < m → ℓ (j + i) ≠ .access a true) (hfour : 4 ≤ accesses a ℓ j m) :
    ∃ i, i < m ∧ (¬ Unclaimed (σ (j + i)).queue (σ (j + i + 1)).queue ∨
      Returns a (σ (j + i)) (σ (j + i + 1))) := by
  have hsize : (2 : Nat) ^ k ≤ 2 ^ 62 := Nat.pow_le_pow_right (by decide) hk'
  have hmono : ∀ i, i ≤ n → (σ i).calls < 2 ^ 62 := by
    intro i hi
    have hle := hrun.related (R := fun s s' => s.calls ≤ s'.calls) (fun _ => le_refl _)
      (fun _ _ _ => le_trans) (fun _ _ _ => calls_mono) hi (le_refl n)
    exact lt_of_le_of_lt hle hcalls
  have hrec : ∀ i, i ≤ n → Recorded (2 ^ k) (σ i) := by
    apply hrun.guarded (G := fun s _ => s.calls < 2 ^ 62) (Recorded.start hk d)
    · intro s act s' h hc hs
      exact h.step (by omega) (by omega) hs
    · intro i hi
      exact hmono i (Nat.le_of_lt hi)
  by_contra hnone
  have hwithin : ∀ i, i ≤ m → Within a (accesses a ℓ j i) (σ (j + i)) := by
    intro i
    induction i with
    | zero =>
        intro _
        by_cases hidle : (σ j).caller a = .idle
        · exact Or.inl ⟨hidle, rfl⟩
        · right
          refine ⟨hidle, ?_⟩
          rw [Nat.add_zero, accesses, Nat.zero_add]
          exact Caller.rank_le _ _
    | succ i ih =>
        intro hi
        have hle := (hrec (j + i) (by omega)).enqueued.length_le
        have hc := hmono (j + i) (by omega)
        apply (ih (by omega)).step (hrec (j + i) (by omega)) _ (hrun.next (j + i) (by omega))
          (hgenuine i hi)
        · by_contra hclaim
          exact hnone ⟨i, hi, Or.inl hclaim⟩
        · intro hret
          exact hnone ⟨i, hi, Or.inr hret⟩
        · rw [(hrec (j + i) (by omega)).size_eq]
          omega
  have hbound := (hwithin m (le_refl m)).bound
  omega

/-- Thread `1` makes five accesses in the first sixteen steps. -/
theorem lockFree_sample :
    ∃ i, i < 16 ∧
      (¬ Unclaimed (trace step (start 2 0 : System Nat (Fin 2)) sampleActions i).queue
          (trace step (start 2 0 : System Nat (Fin 2)) sampleActions (i + 1)).queue ∨
        Returns 1 (trace step (start 2 0 : System Nat (Fin 2)) sampleActions i)
          (trace step (start 2 0 : System Nat (Fin 2)) sampleActions (i + 1))) := by
  have hfollows : follows step (fun _ _ => true) (start 2 0 : System Nat (Fin 2))
      sampleActions = true := by decide +kernel
  have hrun := Run.of_follows (.dequeue 0) hfollows
  have hgenuine : ∀ i, i < 16 → sampleActions.getD (0 + i) (.dequeue 0) ≠ .access 1 true := by
    intro i hi
    interval_cases i <;> exact fun h => nomatch h
  have hwindow := lockFree_of_run (k := 1) (by decide) (by decide) hrun (by decide +kernel) 1
    (j := 0) (m := 16) (by decide) hgenuine (by decide +kernel)
  simpa only [Nat.zero_add] using hwindow

end System

end TaskDispatcher.Container
