import TaskDispatcher.Container.MpmcSystem
import TaskDispatcher.Container.MpmcRest
import TaskDispatcher.Library.Atomic

/-!
# `MPMCQueue` refines an atomic bounded queue

The calls take effect where they claim their positions.  A call that is refused took
effect on a full or empty queue, or met a call of the other kind between its claim and its
return.
-/

namespace TaskDispatcher.Container

open TaskDispatcher.Library

inductive QueueOp (T : Type) where
  | enqueue (data : T)
  | dequeue
  deriving DecidableEq, Repr

inductive QueueRes (T : Type) where
  | enqueued (b : Bool)
  | dequeued (data : Option T)
  deriving DecidableEq, Repr

variable {T A : Type}

/-- Another thread's dequeue has taken effect and not returned. -/
def DequeueOverlaps (status : A → Status (QueueOp T) (QueueRes T)) (a : A) : Prop :=
  ∃ b v, b ≠ a ∧ status b = .decided .dequeue (.dequeued (some v))

/-- Another thread's enqueue has taken effect and not returned. -/
def EnqueueOverlaps (status : A → Status (QueueOp T) (QueueRes T)) (a : A) : Prop :=
  ∃ b v, b ≠ a ∧ status b = .decided (.enqueue v) (.enqueued true)

/-- A list of at most `N` values. -/
inductive QueueEffect (N : Nat) (status : A → Status (QueueOp T) (QueueRes T)) (a : A) :
    List T → QueueOp T → List T → QueueRes T → Prop where
  | enqueue {l : List T} {v : T} : l.length < N →
      QueueEffect N status a l (.enqueue v) (l ++ [v]) (.enqueued true)
  | full {l : List T} {v : T} : l.length = N ∨ DequeueOverlaps status a →
      QueueEffect N status a l (.enqueue v) l (.enqueued false)
  | dequeue {v : T} {l : List T} :
      QueueEffect N status a (v :: l) .dequeue l (.dequeued (some v))
  | empty {l : List T} : l = [] ∨ EnqueueOverlaps status a →
      QueueEffect N status a l .dequeue l (.dequeued none)

/-- What the operation of a caller has come to. -/
def Caller.status (q : Mpmc T) : Caller T → Status (QueueOp T) (QueueRes T)
  | .idle => .idle
  | .enqueue v pc =>
      if pc.claimed then .decided (.enqueue v) (.enqueued true) else .pending (.enqueue v)
  | .dequeue pc =>
      match pc.claimed with
      | none => .pending .dequeue
      | some pos => .decided .dequeue (.dequeued q.log[pos]?)

namespace System

/-- The atomic object that a system stands for. -/
def view (s : System T A) : Atomic (List T) A (QueueOp T) (QueueRes T) where
  value := s.queue.contents
  status := fun a => (s.caller a).status s.queue

/-- What an action shows of the calls. -/
def shows (s : System T A) : Action T A → List (Visible A (QueueOp T) (QueueRes T))
  | .enqueue a data => [.invoke a (.enqueue data)]
  | .dequeue a => [.invoke a .dequeue]
  | .access a spurious =>
      match s.caller a with
      | .idle => []
      | .enqueue data pc =>
          match (Mpmc.enqueueStep sizeT data spurious s.queue pc).2 with
          | .inl _ => []
          | .inr b => [.ret a (.enqueued b)]
      | .dequeue pc =>
          match (Mpmc.dequeueStep sizeT spurious s.queue pc).2 with
          | .inl _ => []
          | .inr data => [.ret a (.dequeued data)]

end System

/-! ## Positions that a `size_t` keeps apart -/

namespace Mpmc

theorem diff_sizeT {s p : Nat} (hs : s < 2 ^ 63) (hp : p < 2 ^ 63) : diff sizeT s p = diff 0 s p := by
  rw [diff_zero]
  unfold diff sizeT
  rw [Int.bmod_eq_of_le] <;> omega

variable {q : Mpmc T} {caller : A → Caller T}

/-- Below `2 ^ 63` an access of `enqueue` does what it does on unbounded positions. -/
theorem Inv.enqueueStep_sizeT (h : Inv q caller) (hfits : q.enqueuePos + q.size < 2 ^ 63) {a : A}
    {v : T} {pc : EnqueuePC} (ha : caller a = .enqueue v pc) (spurious : Bool) :
    enqueueStep sizeT v spurious q pc = enqueueStep 0 v spurious q pc := by
  have hok := h.ok a
  rw [ha] at hok
  have hmod : ∀ {p : Nat}, p < 2 ^ 63 → p % sizeT = p % 0 := by
    intro p hp
    rw [Nat.mod_zero, Nat.mod_eq_of_lt]
    unfold sizeT
    omega
  cases pc with
  | load => rfl
  | sequence pos =>
      have hpos : pos ≤ q.enqueuePos := hok
      have hseq := h.sequence_lt pos
      simp only [enqueueStep]
      rw [diff_sizeT (by omega) (by omega)]
  | claim pos =>
      have h2 := h.two_le_size
      have hpos : pos ≤ q.enqueuePos := hok.1
      simp only [enqueueStep]
      rw [hmod (show pos + 1 < 2 ^ 63 by omega)]
  | write pos => rfl
  | publish pos =>
      have h2 := h.two_le_size
      have hpos : pos < q.enqueuePos := hok.2.1
      simp only [enqueueStep]
      rw [hmod (show pos + 1 < 2 ^ 63 by omega)]

theorem Inv.dequeueStep_sizeT (h : Inv q caller) (hfits : q.enqueuePos + q.size < 2 ^ 63) {a : A}
    {pc : DequeuePC T} (ha : caller a = .dequeue pc) (spurious : Bool) :
    dequeueStep sizeT spurious q pc = dequeueStep 0 spurious q pc := by
  have hok := h.ok a
  rw [ha] at hok
  have h2 := h.two_le_size
  have hle := h.deq_le
  have hmod : ∀ {p : Nat}, p < 2 ^ 63 → p % sizeT = p % 0 := by
    intro p hp
    rw [Nat.mod_zero, Nat.mod_eq_of_lt]
    unfold sizeT
    omega
  cases pc with
  | load => rfl
  | sequence pos =>
      have hpos : pos ≤ q.dequeuePos := hok
      have hseq := h.sequence_lt pos
      simp only [dequeueStep]
      rw [hmod (show pos + 1 < 2 ^ 63 by omega), Nat.mod_zero,
        diff_sizeT (by omega) (by omega)]
  | claim pos =>
      have hpos : pos ≤ q.dequeuePos := hok.1
      simp only [dequeueStep]
      rw [hmod (show pos + 1 < 2 ^ 63 by omega)]
  | read pos => rfl
  | publish pos x =>
      have hpos : pos < q.dequeuePos := hok.1
      have hmask : q.bufferMask < q.size := Nat.lt_succ_self _
      simp only [dequeueStep]
      rw [hmod (show pos + q.bufferMask + 1 < 2 ^ 63 by omega)]

end Mpmc

/-! ## One action -/

namespace System

variable [DecidableEq A] {s : System T A} {N : Nat} {a : A}

/-- An access of one thread leaves what the others have come to. -/
theorem view_advance (h : Recorded N s) {q : Mpmc T} {l : Caller T} {evs : List (Event T)}
    (hlog : ∀ (pos : Nat) (v : T), s.queue.log[pos]? = some v → q.log[pos]? = some v) :
    (s.advance a q l evs).view =
      { value := q.contents, status := Function.update s.view.status a (l.status q) } := by
  have hstatus : (s.advance a q l evs).view.status =
      Function.update s.view.status a (l.status q) := by
    funext b
    by_cases hb : b = a
    · subst hb
      show (Function.update s.caller b l b).status q = _
      rw [Function.update_self, Function.update_self]
    · show (Function.update s.caller a l b).status q = _
      rw [Function.update_of_ne hb, Function.update_of_ne hb]
      show (s.caller b).status q = (s.caller b).status s.queue
      have hok := h.ring.ok b
      cases hc : s.caller b with
      | idle => rfl
      | enqueue v pc => rfl
      | dequeue pc =>
          rw [hc] at hok
          cases pc with
          | read pos =>
              obtain ⟨-, -, -, hdata⟩ := hok
              show Status.decided _ (QueueRes.dequeued q.log[pos]?) =
                .decided _ (QueueRes.dequeued s.queue.log[pos]?)
              rw [hlog pos _ hdata, hdata]
          | publish pos x =>
              obtain ⟨-, -, -, hdata, -⟩ := hok
              show Status.decided _ (QueueRes.dequeued q.log[pos]?) =
                .decided _ (QueueRes.dequeued s.queue.log[pos]?)
              rw [hlog pos _ hdata, hdata]
          | _ => rfl
  unfold view at hstatus ⊢
  exact congrArg (Atomic.mk q.contents) hstatus

omit [DecidableEq A] in
theorem contents_length (h : Recorded N s) :
    s.queue.contents.length = s.queue.enqueuePos - s.queue.dequeuePos := h.ring.contents_length

omit [DecidableEq A] in
/-- A call in progress that has claimed a position has taken effect. -/
theorem overlaps_of_claimed (h : Recorded N s) {b : A} (hba : b ≠ a) {pos : Nat} :
    ((s.caller b).claimed = some (.inl pos) → EnqueueOverlaps s.view.status a) ∧
      ((s.caller b).claimed = some (.inr pos) → DequeueOverlaps s.view.status a) := by
  have hok := h.ring.ok b
  constructor
  · intro hclaimed
    cases hc : s.caller b with
    | idle =>
        rw [hc] at hclaimed
        cases hclaimed
    | enqueue v pc =>
        refine ⟨b, v, hba, ?_⟩
        show (s.caller b).status s.queue = _
        rw [hc] at hclaimed ⊢
        cases pc <;> first | rfl | cases hclaimed
    | dequeue pc =>
        rw [hc] at hclaimed
        cases pc <;> cases hclaimed
  · intro hclaimed
    cases hc : s.caller b with
    | idle =>
        rw [hc] at hclaimed
        cases hclaimed
    | enqueue v pc =>
        rw [hc] at hclaimed
        cases pc <;> cases hclaimed
    | dequeue pc =>
        rw [hc] at hclaimed hok
        cases pc with
        | read p =>
            obtain ⟨-, -, -, hdata⟩ := hok
            refine ⟨b, (s.queue.cell p).data, hba, ?_⟩
            show (s.caller b).status s.queue = _
            rw [hc, ← hdata]
            rfl
        | publish p x =>
            obtain ⟨-, -, -, hdata, -⟩ := hok
            refine ⟨b, (s.queue.cell p).data, hba, ?_⟩
            show (s.caller b).status s.queue = _
            rw [hc, ← hdata]
            rfl
        | _ => cases hclaimed

/-- An access of `enqueue` is answered by the atomic queue: the claim is its effect. -/
theorem answer_enqueue (h : Recorded N s) (hfits : s.queue.enqueuePos + s.queue.size < 2 ^ 63)
    {v : T} {pc : EnqueuePC} (ha : s.caller a = .enqueue v pc) (spurious : Bool) {s' : System T A}
    (hs : s.step (.access a spurious) = some s') (h' : Recorded N s') :
    Path (Atomic.Step (QueueEffect N)) s.view (s.shows (.access a spurious)) s'.view := by
  have hexact := h.ring.enqueueStep_sizeT hfits ha spurious
  have heffect := Mpmc.enqueueStep_effect s.queue v spurious pc
  have hstatus : s.view.status a = (Caller.enqueue v pc).status s.queue := by
    rw [← ha]
    rfl
  have hlength := contents_length h
  have hlength' := contents_length h'
  simp only [step, ha, Option.some.injEq] at hs
  simp only [shows, ha]
  rw [hexact] at hs ⊢
  subst hs
  generalize hr : Mpmc.enqueueStep 0 v spurious s.queue pc = r at heffect h' hlength' ⊢
  obtain ⟨q, out⟩ := r
  have hlog : q.log = s.queue.log ∨ q.log = s.queue.log ++ [v] := by
    cases heffect with
    | quiet _ hlog _ => exact Or.inl hlog
    | put _ _ hlog _ => exact Or.inr hlog
    | done _ hlog _ => exact Or.inl hlog
    | full _ _ hsame => exact Or.inl (congrArg _ hsame)
  rw [view_advance h (by
    intro pos u hu
    rcases hlog with hlog | hlog
    · rwa [show q.log = s.queue.log from hlog]
    · rw [show q.log = _ from hlog]
      exact Mpmc.Inv.log_append v hu)]
  have hself : ∀ (o : Status (QueueOp T) (QueueRes T)), s.view.status a = o →
      Function.update s.view.status a o = s.view.status := by
    rintro _ rfl
    exact Function.update_eq_self a _
  cases heffect with
  | quiet hclaimed hlog hdeq =>
      have hcontents : q.contents = s.queue.contents := by
        unfold Mpmc.contents
        rw [show q.log = _ from hlog, show q.dequeuePos = _ from hdeq]
      rw [hself _ (by rw [hstatus]; simp only [Caller.status, Caller.afterEnqueue, hclaimed]),
        hcontents]
      exact .refl _
  | put hbefore hafter hlog hdeq =>
      rename_i pc'
      have hle := h.ring.deq_le
      have hcontents : q.contents = s.queue.contents ++ [v] := by
        unfold Mpmc.contents
        rw [show q.log = _ from hlog, show q.dequeuePos = _ from hdeq, List.drop_append_of_le_length]
        rw [h.ring.log_length]
        exact hle
      have hroom : s.queue.contents.length < N := by
        have henq := h'.ring.enq_le
        rw [h'.size_eq] at henq
        change q.contents.length = _ at hlength'
        rw [hcontents, List.length_append, List.length_singleton] at hlength'
        change _ = q.enqueuePos - q.dequeuePos at hlength'
        change q.enqueuePos ≤ q.dequeuePos + N at henq
        omega
      have hpending : s.view.status a = .pending (.enqueue v) := by
        rw [hstatus]
        simp only [Caller.status, hbefore, Bool.false_eq_true, if_false]
      rw [hcontents, show (Caller.afterEnqueue v (.inl pc')).status q =
        .decided (.enqueue v) (.enqueued true) by
          simp only [Caller.status, Caller.afterEnqueue, hafter, if_true]]
      exact .hidden (.commit hpending (.enqueue hroom))
  | done hclaimed hlog hdeq =>
      have hcontents : q.contents = s.queue.contents := by
        unfold Mpmc.contents
        rw [show q.log = _ from hlog, show q.dequeuePos = _ from hdeq]
      have hdecided : s.view.status a = .decided (.enqueue v) (.enqueued true) := by
        rw [hstatus]
        simp only [Caller.status, hclaimed, if_true]
      rw [hcontents]
      exact .one (.ret hdecided)
  | full hpos hneg hsame =>
      rename_i pos
      have hok := h.ring.ok a
      rw [ha, hpos] at hok
      have hle : pos ≤ s.queue.enqueuePos := hok
      rw [Mpmc.diff_zero] at hneg
      have hrefused : s.queue.contents.length = N ∨ DequeueOverlaps s.view.status a := by
        rcases h.ring.full_or_stalled hle (by omega) with hfull | ⟨-, b, hb⟩
        · left
          rw [hlength, hfull, h.size_eq]
          omega
        · right
          refine (overlaps_of_claimed h ?_).2 hb
          rintro rfl
          rw [ha, hpos] at hb
          cases hb
      have hpending : s.view.status a = .pending (.enqueue v) := by
        rw [hstatus, hpos]
        rfl
      rw [show q.contents = s.queue.contents from congrArg _ hsame]
      exact Atomic.answers hpending (.full hrefused)

/-- An access of `dequeue` is answered by the atomic queue: the claim is its effect. -/
theorem answer_dequeue (h : Recorded N s) (hfits : s.queue.enqueuePos + s.queue.size < 2 ^ 63)
    {pc : DequeuePC T} (ha : s.caller a = .dequeue pc) (spurious : Bool) {s' : System T A}
    (hs : s.step (.access a spurious) = some s') (h' : Recorded N s') :
    Path (Atomic.Step (QueueEffect N)) s.view (s.shows (.access a spurious)) s'.view := by
  have hexact := h.ring.dequeueStep_sizeT hfits ha spurious
  have heffect := Mpmc.dequeueStep_effect s.queue spurious pc
  have hok := h.ring.ok a
  have hstatus : s.view.status a = (Caller.dequeue pc).status s.queue := by
    rw [← ha]
    rfl
  simp only [step, ha, Option.some.injEq] at hs
  simp only [shows, ha]
  rw [hexact] at hs ⊢
  subst hs
  generalize hr : Mpmc.dequeueStep 0 spurious s.queue pc = r at heffect h' ⊢
  obtain ⟨q, out⟩ := r
  have hlog : q.log = s.queue.log := by
    cases heffect with
    | quiet _ hlog _ => exact hlog
    | take _ _ hlog _ => exact hlog
    | done _ hlog _ => exact hlog
    | empty _ _ hsame => exact congrArg _ hsame
  rw [view_advance h (by
    intro pos u hu
    rwa [show q.log = s.queue.log from hlog])]
  cases heffect with
  | quiet hclaimed hlog' hdeq =>
      rename_i pc'
      have hcontents : q.contents = s.queue.contents := by
        unfold Mpmc.contents
        rw [show q.log = _ from hlog, show q.dequeuePos = _ from hdeq]
      have hself : (Caller.afterDequeue (.inl pc')).status q =
          s.view.status a := by
        rw [hstatus]
        simp only [Caller.status, Caller.afterDequeue, hclaimed, show q.log = _ from hlog]
      rw [hself, hcontents, Function.update_eq_self]
      exact .refl _
  | take hpc hclaimed hlog' hdeq =>
      rename_i pc'
      have hle := h'.ring.deq_le
      have hlength := h'.ring.log_length
      change q.log.length = q.enqueuePos at hlength
      change q.dequeuePos ≤ q.enqueuePos at hle
      have hlt : s.queue.dequeuePos < s.queue.log.length := by
        rw [show q.dequeuePos = _ from hdeq, ← hlength, show q.log = _ from hlog] at hle
        omega
      have hcontents : s.queue.contents = s.queue.log[s.queue.dequeuePos] :: q.contents := by
        unfold Mpmc.contents
        rw [show q.log = _ from hlog, show q.dequeuePos = _ from hdeq, List.drop_eq_getElem_cons hlt]
      have hpending : s.view.status a = .pending .dequeue := by
        rw [hstatus, hpc]
        rfl
      rw [show (Caller.afterDequeue (.inl pc')).status q =
        .decided .dequeue (.dequeued (some s.queue.log[s.queue.dequeuePos])) by
          simp only [Caller.status, Caller.afterDequeue, hclaimed]
          rw [show q.log = _ from hlog, List.getElem?_eq_getElem hlt]]
      refine .hidden (.commit hpending ?_)
      rw [show s.view.value = _ from hcontents]
      exact .dequeue
  | done hpc hlog' hdeq =>
      rename_i pos x
      rw [ha, hpc] at hok
      obtain ⟨-, -, -, hdata, hx⟩ := hok
      have hcontents : q.contents = s.queue.contents := by
        unfold Mpmc.contents
        rw [show q.log = _ from hlog, show q.dequeuePos = _ from hdeq]
      have hdecided : s.view.status a = .decided .dequeue (.dequeued (some x)) := by
        rw [hstatus, hpc, hx, ← hdata]
        rfl
      rw [hcontents]
      exact .one (.ret hdecided)
  | empty hpc hneg hsame =>
      rename_i pos
      rw [ha, hpc] at hok
      have hle : pos ≤ s.queue.dequeuePos := hok
      rw [Mpmc.diff_zero] at hneg
      have hrefused : s.queue.contents = [] ∨ EnqueueOverlaps s.view.status a := by
        obtain ⟨rfl, hempty | ⟨b, hb⟩⟩ := h.ring.empty_or_stalled hle (by omega)
        · left
          apply List.eq_nil_of_length_eq_zero
          rw [contents_length h, hempty, Nat.sub_self]
        · right
          refine (overlaps_of_claimed h ?_).1 hb
          rintro rfl
          rw [ha, hpc] at hb
          cases hb
      have hpending : s.view.status a = .pending .dequeue := by
        rw [hstatus, hpc]
        rfl
      rw [show q.contents = s.queue.contents from congrArg _ hsame]
      exact Atomic.answers hpending (.empty hrefused)

/-- A call begins as an invocation. -/
theorem answer_begin {l : Caller T} {o : QueueOp T} (hl : l.status s.queue = .pending o)
    {s' : System T A} (hs : s.begin a l = some s') :
    Path (Atomic.Step (QueueEffect N)) s.view [.invoke a o] s'.view := by
  unfold begin at hs
  split at hs
  · rename_i hidle
    cases hs
    have hstatus : s.view.status a = .idle := by
      show (s.caller a).status s.queue = _
      rw [hidle]
      rfl
    have hview : (fun b => (Function.update s.caller a l b).status s.queue) =
        Function.update s.view.status a (.pending o) := by
      funext b
      by_cases hb : b = a
      · subst hb
        rw [Function.update_self, Function.update_self, hl]
      · rw [Function.update_of_ne hb, Function.update_of_ne hb]
        rfl
    have hstep : Atomic.Step (QueueEffect N) s.view (some (.invoke a o)) _ := .invoke o hstatus
    rw [← hview] at hstep
    exact .one hstep
  · cases hs

/-- Every action is answered by the atomic queue while positions are below `2 ^ 63`. -/
theorem simulates {k : Nat} (hk : k ≤ 62) :
    Simulates (step : System T A → Action T A → Option (System T A)) shows
      (Atomic.Step (QueueEffect (2 ^ k))) (fun s t => Recorded (2 ^ k) s ∧ t = s.view)
      (fun s _ => s.calls < 2 ^ 62) := by
  constructor
  rintro s act s' _ ⟨h, rfl⟩ hcalls hs
  have hsize : (2 : Nat) ^ k ≤ 2 ^ 62 := Nat.pow_le_pow_right (by decide) hk
  have hfits : s.queue.enqueuePos + s.queue.size < 2 ^ 63 := by
    have hle := h.enqueued.length_le
    rw [h.size_eq]
    omega
  have h' : Recorded (2 ^ k) s' := h.step (by omega) (by omega) hs
  refine ⟨s'.view, ?_, h', rfl⟩
  cases act with
  | enqueue a data => exact answer_begin rfl hs
  | dequeue a => exact answer_begin rfl hs
  | access a spurious =>
      cases ha : s.caller a with
      | idle =>
          simp only [step, ha] at hs
          cases hs
      | enqueue data pc => exact answer_enqueue h hfits ha spurious hs h'
      | dequeue pc => exact answer_dequeue h hfits ha spurious hs h'

/-! ## Whole runs -/

/-- The calls of every run with fewer than `2 ^ 62` of them are those of an atomic bounded
queue: each takes effect at one moment between its invocation and its return. -/
theorem linearizable_of_run {k : Nat} (hk : 1 ≤ k) (hk' : k ≤ 62) {d : T} {σ : Nat → System T A}
    {ℓ : Nat → Action T A} {n : Nat} (hrun : Run step (start (2 ^ k) d) σ ℓ n)
    (hcalls : (σ n).calls < 2 ^ 62) :
    Path (Atomic.Step (QueueEffect (2 ^ k))) (Atomic.new []) (shown shows σ ℓ n) (σ n).view := by
  have hstart : Recorded (2 ^ k) (start (2 ^ k) d : System T A) ∧
      Atomic.new [] = (start (2 ^ k) d : System T A).view := ⟨Recorded.start hk d, rfl⟩
  have hmono : ∀ j, j ≤ n → (σ j).calls ≤ (σ n).calls := by
    intro j hj
    exact hrun.related (R := fun s s' => s.calls ≤ s'.calls) (fun _ => le_refl _)
      (fun _ _ _ => le_trans) (fun _ _ _ => calls_mono) hj (le_refl n)
  obtain ⟨_, hpath, -, rfl⟩ := (simulates hk').run hrun hstart fun j hj =>
    lt_of_le_of_lt (hmono j (Nat.le_of_lt hj)) hcalls
  exact hpath

/-- Thread `1` takes out what thread `0` has enqueued. -/
theorem linearizable_sample :
    Path (Atomic.Step (QueueEffect 2)) (Atomic.new [])
      (shown shows (trace step (start 2 0 : System Nat (Fin 2)) sampleActions)
        (fun k => sampleActions.getD k (.dequeue 0)) 18)
      (trace step (start 2 0 : System Nat (Fin 2)) sampleActions 18).view := by
  have hfollows : follows step (fun _ _ => true) (start 2 0 : System Nat (Fin 2))
      sampleActions = true := by decide +kernel
  exact linearizable_of_run (k := 1) (by decide) (by decide) (Run.of_follows (.dequeue 0) hfollows)
    (by decide +kernel)

end System

end TaskDispatcher.Container
