import TaskDispatcher.Container.MpmcInvariant
import TaskDispatcher.Library.Transition
import Mathlib.Data.List.Nodup
import Mathlib.Data.List.Perm.Subperm

/-!
# `MPMCQueue` under concurrent calls

Any number of threads call `enqueue` and `dequeue` on one queue, one access at
a time in any order.  The history records the claims, the data writes and the
returns, and the theorems read exactly-once, in-order delivery off it.
-/

namespace TaskDispatcher.Container

open TaskDispatcher.Library

/-- The modulus of `size_t`. -/
def sizeT : Nat := 2 ^ 64

/-- What the history keeps; `call` numbers the calls in the order they began. -/
inductive Event (T : Type) where
  | claimEnqueue (call pos : Nat) (data : T)
  | write (call pos : Nat) (data : T)
  | claimDequeue (call pos : Nat)
  | dequeued (call pos : Nat) (data : T)
  deriving DecidableEq, Repr

namespace Event

variable {T : Type}

/-- What one access of an `enqueue` call adds to the history. -/
def ofEnqueue (call : Nat) (data : T) : EnqueuePC → EnqueuePC ⊕ Bool → List (Event T)
  | .claim pos, .inl (.write _) => [.claimEnqueue call pos data]
  | .write pos, _ => [.write call pos data]
  | _, _ => []

/-- What one access of a `dequeue` call adds to the history. -/
def ofDequeue (call : Nat) : DequeuePC T → DequeuePC T ⊕ Option T → List (Event T)
  | .claim pos, .inl (.read _) => [.claimDequeue call pos]
  | .publish pos _, .inr (some data) => [.dequeued call pos data]
  | _, _ => []

/-- The call and position of an enqueue's claim. -/
def enqueued : Event T → Option (Nat × Nat)
  | .claimEnqueue call pos _ => some (call, pos)
  | _ => none

/-- The call and position of a dequeue's claim. -/
def taken : Event T → Option (Nat × Nat)
  | .claimDequeue call pos => some (call, pos)
  | _ => none

end Event

/-- A queue, the threads `A` that use it and the history. -/
structure System (T A : Type) where
  queue : Mpmc T
  caller : A → Caller T
  call : A → Nat
  calls : Nat
  history : List (Event T)

/-- A thread begins a call or makes the next access of the one it is in. -/
inductive Action (T A : Type) where
  | enqueue (a : A) (data : T)
  | dequeue (a : A)
  | access (a : A) (spurious : Bool)

namespace System

variable {T A : Type}

def start (bufferSize : Nat) (d : T) : System T A where
  queue := Mpmc.new bufferSize d
  caller := fun _ => .idle
  call := fun _ => 0
  calls := 0
  history := []

/-- The claims of positions by enqueue calls, in order. -/
def enqueued (s : System T A) : List (Nat × Nat) := s.history.filterMap Event.enqueued

/-- The claims of positions by dequeue calls, in order. -/
def taken (s : System T A) : List (Nat × Nat) := s.history.filterMap Event.taken

section Step

variable [DecidableEq A]

/-- A thread that is in no call begins one. -/
def begin (s : System T A) (a : A) (l : Caller T) : Option (System T A) :=
  match s.caller a with
  | .idle => some
      { s with
        caller := Function.update s.caller a l
        call := Function.update s.call a s.calls
        calls := s.calls + 1 }
  | _ => none

/-- Thread `a` has made an access: the queue, its call and the history move on. -/
def advance (s : System T A) (a : A) (q : Mpmc T) (l : Caller T) (evs : List (Event T)) :
    System T A :=
  { s with
    queue := q
    caller := Function.update s.caller a l
    history := s.history ++ evs }

def step (s : System T A) : Action T A → Option (System T A)
  | .enqueue a data => s.begin a (.enqueue data .load)
  | .dequeue a => s.begin a (.dequeue .load)
  | .access a spurious =>
      match s.caller a with
      | .idle => none
      | .enqueue data pc =>
          let r := Mpmc.enqueueStep sizeT data spurious s.queue pc
          some (s.advance a r.1 (Caller.afterEnqueue data r.2)
            (Event.ofEnqueue (s.call a) data pc r.2))
      | .dequeue pc =>
          let r := Mpmc.dequeueStep sizeT spurious s.queue pc
          some (s.advance a r.1 (Caller.afterDequeue r.2) (Event.ofDequeue (s.call a) pc r.2))

end Step

/-- The value of position `p` was claimed, written and claimed back by `call`. -/
def Delivered (history : List (Event T)) (call p : Nat) (v : T) : Prop :=
  .claimDequeue call p ∈ history ∧
    ∃ c, .claimEnqueue c p v ∈ history ∧ .write c p v ∈ history

/-- What the history says about a call in progress. -/
def CallRecorded (history : List (Event T)) (call : Nat) : Caller T → Prop
  | .enqueue v (.write pos) => .claimEnqueue call pos v ∈ history
  | .enqueue v (.publish pos) =>
      .claimEnqueue call pos v ∈ history ∧ .write call pos v ∈ history
  | .dequeue (.read pos) => .claimDequeue call pos ∈ history
  | .dequeue (.publish pos _) => .claimDequeue call pos ∈ history
  | _ => True

/-- The positions below `n` were claimed in order, each by a call of its own. -/
structure Ledger (claims : List (Nat × Nat)) (n calls : Nat) : Prop where
  pos : claims.map Prod.snd = List.range n
  lt : ∀ c ∈ claims.map Prod.fst, c < calls
  nodup : (claims.map Prod.fst).Nodup

namespace Ledger

variable {claims : List (Nat × Nat)} {n calls : Nat}

theorem length_le (h : Ledger claims n calls) : n ≤ calls := by
  have hsub : claims.map Prod.fst ⊆ List.range calls :=
    fun c hc => List.mem_range.2 (h.lt c hc)
  have hlen := (List.subperm_of_subset h.nodup hsub).length_le
  have hpos := congrArg List.length h.pos
  simp only [List.length_map, List.length_range] at hlen hpos
  omega

theorem succ_calls (h : Ledger claims n calls) : Ledger claims n (calls + 1) :=
  ⟨h.pos, fun c hc => Nat.lt_succ_of_lt (h.lt c hc), h.nodup⟩

theorem not_mem (h : Ledger claims n calls) : calls ∉ claims.map Prod.fst :=
  fun hc => lt_irrefl _ (h.lt _ hc)

theorem append (h : Ledger claims n calls) {c : Nat} (hc : c < calls)
    (hnew : c ∉ claims.map Prod.fst) : Ledger (claims ++ [(c, n)]) (n + 1) calls where
  pos := by rw [List.map_append, h.pos, List.range_succ]; rfl
  lt := by
    intro d hd
    rw [List.map_append, List.mem_append] at hd
    rcases hd with hd | hd
    · exact h.lt d hd
    · rwa [List.mem_singleton.1 hd]
  nodup := by
    rw [List.map_append]
    refine h.nodup.append (List.nodup_singleton c) ?_
    intro d hd hd'
    rw [List.mem_singleton.1 hd'] at hd
    exact hnew hd

end Ledger

/-- Positions are claimed once each and in order, and every value handed over
was written before. -/
structure Recorded (bufferSize : Nat) (s : System T A) : Prop where
  ring : Mpmc.Inv s.queue s.caller
  size_eq : s.queue.size = bufferSize
  enqueued : Ledger s.enqueued s.queue.enqueuePos s.calls
  taken : Ledger s.taken s.queue.dequeuePos s.calls
  logged : ∀ c p v, .claimEnqueue c p v ∈ s.history → s.queue.log[p]? = some v
  call_lt : ∀ a, s.caller a ≠ .idle → s.call a < s.calls
  call_inj : ∀ a b, s.caller a ≠ .idle → s.caller b ≠ .idle → s.call a = s.call b → a = b
  fresh : ∀ a, s.caller a ≠ .idle → (s.caller a).claimed = none →
    s.call a ∉ s.enqueued.map Prod.fst ∧ s.call a ∉ s.taken.map Prod.fst
  holds : ∀ a, CallRecorded s.history (s.call a) (s.caller a)
  written : ∀ p, p < s.queue.enqueuePos → (∃ a, (s.caller a).claimed = some (.inl p)) ∨
    ∃ c v, .claimEnqueue c p v ∈ s.history ∧ .write c p v ∈ s.history
  returned : ∀ before after c p v, s.history = before ++ .dequeued c p v :: after →
    Delivered before c p v

theorem CallRecorded.mono {history evs : List (Event T)} {call : Nat} {l : Caller T}
    (h : CallRecorded history call l) : CallRecorded (history ++ evs) call l := by
  match l, h with
  | .idle, _ => trivial
  | .enqueue _ .load, _ => trivial
  | .enqueue _ (.sequence _), _ => trivial
  | .enqueue _ (.claim _), _ => trivial
  | .enqueue _ (.write _), h => exact List.mem_append_left _ h
  | .enqueue _ (.publish _), h => exact h.imp (List.mem_append_left _) (List.mem_append_left _)
  | .dequeue .load, _ => trivial
  | .dequeue (.sequence _), _ => trivial
  | .dequeue (.claim _), _ => trivial
  | .dequeue (.read _), h => exact List.mem_append_left _ h
  | .dequeue (.publish _ _), h => exact List.mem_append_left _ h

namespace Recorded

variable {N : Nat} {s : System T A}

theorem start {k : Nat} (hk : 1 ≤ k) (d : T) :
    Recorded (2 ^ k) (System.start (2 ^ k) d : System T A) where
  ring := Mpmc.Inv.new hk d
  size_eq := by
    show 2 ^ k - 1 + 1 = 2 ^ k
    have := Nat.two_pow_pos k
    omega
  enqueued := ⟨rfl, by simp [System.start, System.enqueued], List.nodup_nil⟩
  taken := ⟨rfl, by simp [System.start, System.taken], List.nodup_nil⟩
  logged := by simp [System.start]
  call_lt := fun _ h => absurd rfl h
  call_inj := fun _ _ h => absurd rfl h
  fresh := fun _ h => absurd rfl h
  holds := fun _ => trivial
  written := fun p hp => absurd hp (Nat.not_lt_zero p)
  returned := by simp [System.start]

/-- Fewer than `2 ^ 63` calls leave room for every position in a `size_t`. -/
theorem fits (h : Recorded N s) (hN : N ≤ 2 ^ 63) (hcalls : s.calls < 2 ^ 63) :
    Mpmc.Fits sizeT s.queue := by
  have hle := h.enqueued.length_le
  have hsize := h.size_eq
  refine Or.inr ?_
  unfold sizeT
  omega

/-- Appending an event that returns nothing keeps the returns recorded. -/
theorem returned_append (h : Recorded N s) {evs : List (Event T)}
    (hevs : ∀ e ∈ evs, ∀ c p v, e ≠ .dequeued c p v) (before after : List (Event T)) (c p : Nat)
    (v : T) (heq : s.history ++ evs = before ++ .dequeued c p v :: after) :
    Delivered before c p v := by
  rcases List.append_eq_append_iff.1 heq with ⟨mid, hb, he⟩ | ⟨mid, hh, he⟩
  · -- the returned value would be one of the new events
    exact absurd rfl (hevs (.dequeued c p v) (by rw [he]; simp) c p v)
  · cases mid with
    | nil =>
        exact absurd rfl (hevs (.dequeued c p v) (by rw [← List.nil_append evs, ← he]; simp) c p v)
    | cons e mid =>
        simp only [List.cons_append, List.cons.injEq] at he
        exact h.returned before mid c p v (by rw [hh, he.1])

/-- The claim and the write of a position that is no longer being filled. -/
theorem exists_written (h : Recorded N s) {p : Nat} {v : T} (hlog : s.queue.log[p]? = some v)
    (hp : ∀ b, (s.caller b).claimed ≠ some (.inl p)) :
    ∃ c, .claimEnqueue c p v ∈ s.history ∧ .write c p v ∈ s.history := by
  obtain ⟨hlt, -⟩ := List.getElem?_eq_some_iff.1 hlog
  rw [h.ring.log_length] at hlt
  rcases h.written p hlt with ⟨b, hb⟩ | ⟨c, w, hc, hw⟩
  · exact absurd hb (hp b)
  · have hw' := h.logged c p w hc
    rw [hlog] at hw'
    obtain rfl := Option.some.inj hw'
    exact ⟨c, hc, hw⟩

variable [DecidableEq A]

theorem live_update {a b : A} {l : Caller T} (ha : s.caller a ≠ .idle)
    (hb : Function.update s.caller a l b ≠ .idle) : s.caller b ≠ .idle := by
  by_cases hba : b = a
  · rw [hba]
    exact ha
  · rwa [Function.update_of_ne hba] at hb

theorem holds_update (h : Recorded N s) {a : A} {l : Caller T} {evs : List (Event T)}
    (hl : CallRecorded (s.history ++ evs) (s.call a) l) :
    ∀ b, CallRecorded (s.history ++ evs) (s.call b) (Function.update s.caller a l b) := by
  intro b
  by_cases hba : b = a
  · subst hba
    rwa [Function.update_self]
  · rw [Function.update_of_ne hba]
    exact (h.holds b).mono

/-! ## One access -/

section Advance

variable {a : A} {q : Mpmc T} {l : Caller T} {evs : List (Event T)}

theorem enqueued_advance :
    (s.advance a q l evs).enqueued = s.enqueued ++ evs.filterMap Event.enqueued :=
  List.filterMap_append

theorem taken_advance : (s.advance a q l evs).taken = s.taken ++ evs.filterMap Event.taken :=
  List.filterMap_append

/-- The calls in progress keep their numbers while one of them makes an access. -/
theorem fresh_advance (h : Recorded N s) (ha : s.caller a ≠ .idle)
    (henq : ∀ c ∈ (evs.filterMap Event.enqueued).map Prod.fst, c = s.call a)
    (htaken : ∀ c ∈ (evs.filterMap Event.taken).map Prod.fst, c = s.call a)
    (hl : l ≠ .idle → l.claimed = none → (s.caller a).claimed = none ∧ evs = []) (b : A)
    (hb : Function.update s.caller a l b ≠ .idle)
    (hbc : (Function.update s.caller a l b).claimed = none) :
    s.call b ∉ (s.advance a q l evs).enqueued.map Prod.fst ∧
      s.call b ∉ (s.advance a q l evs).taken.map Prod.fst := by
  have hbl := live_update ha hb
  rw [enqueued_advance, taken_advance, List.map_append, List.map_append]
  by_cases hba : b = a
  · subst hba
    rw [Function.update_self] at hb hbc
    obtain ⟨hnone, rfl⟩ := hl hb hbc
    simpa using h.fresh b hbl hnone
  · rw [Function.update_of_ne hba] at hb hbc
    have hne : s.call b ≠ s.call a := fun he => hba (h.call_inj b a hbl ha he)
    have hf := h.fresh b hb hbc
    rw [List.mem_append, List.mem_append]
    exact ⟨fun hm => hm.elim hf.1 fun hm => hne (henq _ hm),
      fun hm => hm.elim hf.2 fun hm => hne (htaken _ hm)⟩

/-- An access that neither claims nor hands on a position. -/
theorem quiet (h : Recorded N s) (ha : s.caller a ≠ .idle)
    (ring : Mpmc.Inv q (Function.update s.caller a l)) (hsize : q.size = s.queue.size)
    (henq : q.enqueuePos = s.queue.enqueuePos) (hdeq : q.dequeuePos = s.queue.dequeuePos)
    (hlog : q.log = s.queue.log) (hl : l.claimed = (s.caller a).claimed)
    (hevs : ∀ e ∈ evs, (s.caller a).claimed ≠ none ∧ ∃ c p v, e = .write c p v)
    (hrec : CallRecorded (s.history ++ evs) (s.call a) l) :
    Recorded N (s.advance a q l evs) := by
  have he : evs.filterMap Event.enqueued = [] := by
    refine List.filterMap_eq_nil_iff.2 fun e he => ?_
    obtain ⟨-, c, p, v, rfl⟩ := hevs e he
    rfl
  have ht : evs.filterMap Event.taken = [] := by
    refine List.filterMap_eq_nil_iff.2 fun e he => ?_
    obtain ⟨-, c, p, v, rfl⟩ := hevs e he
    rfl
  refine
    { ring := ring
      size_eq := hsize.trans h.size_eq
      enqueued := by rw [enqueued_advance, he, List.append_nil]; exact henq ▸ h.enqueued
      taken := by rw [taken_advance, ht, List.append_nil]; exact hdeq ▸ h.taken
      logged := ?_
      call_lt := fun b hb => h.call_lt b (live_update ha hb)
      call_inj := fun b c hb hc => h.call_inj b c (live_update ha hb) (live_update ha hc)
      fresh := h.fresh_advance ha (by simp [he]) (by simp [ht]) ?_
      holds := h.holds_update hrec
      written := ?_
      returned := h.returned_append ?_ }
  · intro c p v hm
    rcases List.mem_append.1 hm with hm | hm
    · exact hlog ▸ h.logged c p v hm
    · obtain ⟨-, c', p', v', heq⟩ := hevs _ hm
      cases heq
  · intro _ hnone
    rw [hl] at hnone
    exact ⟨hnone, List.eq_nil_iff_forall_not_mem.2 fun e he => (hevs e he).1 hnone⟩
  · intro p hp
    rcases h.written p (henq ▸ hp) with hc | ⟨c, v, hc, hw⟩
    · exact Or.inl (Mpmc.Inv.exists_claimed_update (by simp [hl]) hc)
    · exact Or.inr ⟨c, v, List.mem_append_left _ hc, List.mem_append_left _ hw⟩
  · rintro e he c p v rfl
    obtain ⟨-, c', p', v', heq⟩ := hevs _ he
    cases heq

/-- The enqueue that takes the next position. -/
theorem claim_enqueue (h : Recorded N s) {v : T}
    (ha : s.caller a = .enqueue v (.claim s.queue.enqueuePos)) :
    Recorded N (s.advance a
      { s.queue with enqueuePos := s.queue.enqueuePos + 1, log := s.queue.log ++ [v] }
      (.enqueue v (.write s.queue.enqueuePos))
      [.claimEnqueue (s.call a) s.queue.enqueuePos v]) := by
  have hlive : s.caller a ≠ .idle := by rw [ha]; simp
  have hnone : (s.caller a).claimed = none := by rw [ha]; rfl
  have hfresh := h.fresh a hlive hnone
  refine
    { ring := h.ring.claim_enqueue ha
      size_eq := h.size_eq
      enqueued := by
        rw [enqueued_advance]
        exact h.enqueued.append (h.call_lt a hlive) hfresh.1
      taken := by
        rw [taken_advance]
        exact (List.append_nil s.taken).symm ▸ h.taken
      logged := ?_
      call_lt := fun b hb => h.call_lt b (live_update hlive hb)
      call_inj := fun b c hb hc => h.call_inj b c (live_update hlive hb) (live_update hlive hc)
      fresh := h.fresh_advance hlive (by simp [Event.enqueued]) (by simp [Event.taken])
        (by simp [Caller.claimed])
      holds := h.holds_update (by simp [CallRecorded])
      written := ?_
      returned := h.returned_append (by simp) }
  · intro c p w hm
    rcases List.mem_append.1 hm with hm | hm
    · exact Mpmc.Inv.log_append v (h.logged c p w hm)
    · obtain ⟨rfl, rfl, rfl⟩ := Event.claimEnqueue.inj (List.mem_singleton.1 hm)
      show (s.queue.log ++ [w])[s.queue.enqueuePos]? = some w
      simp [← h.ring.log_length]
  · intro p hp
    by_cases hpe : p = s.queue.enqueuePos
    · subst hpe
      exact Or.inl ⟨a, by simp [advance, Caller.claimed]⟩
    · have hp' : p < s.queue.enqueuePos + 1 := hp
      rcases h.written p (by omega) with hc | ⟨c, w, hc, hw⟩
      · exact Or.inl (Mpmc.Inv.exists_claimed_update (by simp [hnone]) hc)
      · exact Or.inr ⟨c, w, List.mem_append_left _ hc, List.mem_append_left _ hw⟩

/-- The dequeue that takes the next position. -/
theorem claim_dequeue (h : Recorded N s)
    (ha : s.caller a = .dequeue (.claim s.queue.dequeuePos)) :
    Recorded N (s.advance a { s.queue with dequeuePos := s.queue.dequeuePos + 1 }
      (.dequeue (.read s.queue.dequeuePos)) [.claimDequeue (s.call a) s.queue.dequeuePos]) := by
  have hlive : s.caller a ≠ .idle := by rw [ha]; simp
  have hnone : (s.caller a).claimed = none := by rw [ha]; rfl
  have hfresh := h.fresh a hlive hnone
  refine
    { ring := h.ring.claim_dequeue ha
      size_eq := h.size_eq
      enqueued := by
        rw [enqueued_advance]
        exact (List.append_nil s.enqueued).symm ▸ h.enqueued
      taken := by
        rw [taken_advance]
        exact h.taken.append (h.call_lt a hlive) hfresh.2
      logged := by simpa [advance] using h.logged
      call_lt := fun b hb => h.call_lt b (live_update hlive hb)
      call_inj := fun b c hb hc => h.call_inj b c (live_update hlive hb) (live_update hlive hc)
      fresh := h.fresh_advance hlive (by simp [Event.enqueued]) (by simp [Event.taken])
        (by simp [Caller.claimed])
      holds := h.holds_update (by simp [CallRecorded])
      written := ?_
      returned := h.returned_append (by simp) }
  · intro p hp
    rcases h.written p hp with hc | ⟨c, w, hc, hw⟩
    · exact Or.inl (Mpmc.Inv.exists_claimed_update (by simp [hnone]) hc)
    · exact Or.inr ⟨c, w, List.mem_append_left _ hc, List.mem_append_left _ hw⟩

theorem publish_enqueue (h : Recorded N s) {v : T} {pos : Nat}
    (ha : s.caller a = .enqueue v (.publish pos)) :
    Recorded N (s.advance a (s.queue.setSequence pos (pos + 1)) .idle []) := by
  have hlive : s.caller a ≠ .idle := by rw [ha]; simp
  have hrec := h.holds a
  rw [ha] at hrec
  refine
    { ring := h.ring.publish_enqueue ha
      size_eq := h.size_eq
      enqueued := by
        rw [enqueued_advance]
        exact (List.append_nil s.enqueued).symm ▸ h.enqueued
      taken := by
        rw [taken_advance]
        exact (List.append_nil s.taken).symm ▸ h.taken
      logged := by simpa [advance] using h.logged
      call_lt := fun b hb => h.call_lt b (live_update hlive hb)
      call_inj := fun b c hb hc => h.call_inj b c (live_update hlive hb) (live_update hlive hc)
      fresh := h.fresh_advance hlive (by simp) (by simp) fun hl => absurd rfl hl
      holds := h.holds_update trivial
      written := ?_
      returned := h.returned_append (by simp) }
  · intro p hp
    simp only [advance, List.append_nil]
    by_cases hpe : p = pos
    · subst hpe
      exact Or.inr ⟨_, _, hrec⟩
    · refine (h.written p hp).imp_left (Mpmc.Inv.exists_claimed_update fun hc => ?_)
      rw [ha] at hc
      exact absurd (by simpa [Caller.claimed] using hc.symm) hpe

theorem publish_dequeue (h : Recorded N s) {x : T} {pos : Nat}
    (ha : s.caller a = .dequeue (.publish pos x)) :
    Recorded N (s.advance a (s.queue.setSequence pos (pos + s.queue.size)) .idle
      [.dequeued (s.call a) pos x]) := by
  have hlive : s.caller a ≠ .idle := by rw [ha]; simp
  have hrec := h.holds a
  have hok := h.ring.ok a
  rw [ha] at hrec hok
  obtain ⟨hpos, -, -, hlog, hx⟩ := hok
  have hwritten := h.exists_written (hx ▸ hlog) fun b hb => by
    have := (h.ring.claimed_enqueue hb).1
    omega
  refine
    { ring := h.ring.publish_dequeue ha
      size_eq := h.size_eq
      enqueued := by
        rw [enqueued_advance]
        exact (List.append_nil s.enqueued).symm ▸ h.enqueued
      taken := by
        rw [taken_advance]
        exact (List.append_nil s.taken).symm ▸ h.taken
      logged := by simpa [advance] using h.logged
      call_lt := fun b hb => h.call_lt b (live_update hlive hb)
      call_inj := fun b c hb hc => h.call_inj b c (live_update hlive hb) (live_update hlive hc)
      fresh := h.fresh_advance hlive (by simp [Event.enqueued]) (by simp [Event.taken])
        fun hl => absurd rfl hl
      holds := h.holds_update trivial
      written := ?_
      returned := ?_ }
  · intro p hp
    rcases h.written p hp with hc | ⟨c, w, hc, hw⟩
    · refine Or.inl (Mpmc.Inv.exists_claimed_update (fun hc => ?_) hc)
      rw [ha] at hc
      simp [Caller.claimed] at hc
    · exact Or.inr ⟨c, w, List.mem_append_left _ hc, List.mem_append_left _ hw⟩
  · intro before after c p v heq
    rcases List.eq_nil_or_concat after with rfl | ⟨after', e, rfl⟩
    · -- the return recorded by this access
      obtain ⟨rfl, he⟩ := List.append_inj' heq rfl
      obtain ⟨rfl, rfl, rfl⟩ := Event.dequeued.inj (List.cons.inj he).1
      exact ⟨hrec, hwritten⟩
    · have heq' : s.history ++ [.dequeued (s.call a) pos x] =
          (before ++ .dequeued c p v :: after') ++ [e] := by simpa [advance] using heq
      exact h.returned before after' c p v (List.append_inj' heq' rfl).1

end Advance

theorem begin (h : Recorded N s) {a : A} {l : Caller T} {s' : System T A}
    (hl : l.claimed = none) (hok : ∀ q : Mpmc T, Mpmc.CallerOk q l)
    (hrec : ∀ (H : List (Event T)) c, CallRecorded H c l) (hs : s.begin a l = some s') :
    Recorded N s' := by
  unfold System.begin at hs
  split at hs
  case h_2 => cases hs
  rename_i hidle
  obtain rfl := Option.some.inj hs
  refine
    { ring := h.ring.move (by rw [hidle, hl]; rfl) (hok _)
      size_eq := h.size_eq
      enqueued := h.enqueued.succ_calls
      taken := h.taken.succ_calls
      logged := h.logged
      call_lt := ?_
      call_inj := ?_
      fresh := ?_
      holds := ?_
      written := ?_
      returned := h.returned }
  · intro b hb
    by_cases hba : b = a
    · subst hba
      simp
    · simp only [Function.update_of_ne hba] at hb ⊢
      exact Nat.lt_succ_of_lt (h.call_lt b hb)
  · intro b c hb hc hbc
    by_cases hba : b = a <;> by_cases hca : c = a
    · rw [hba, hca]
    · subst hba
      simp only [Function.update_of_ne hca, Function.update_self] at hbc hc
      have := h.call_lt c hc
      omega
    · subst hca
      simp only [Function.update_of_ne hba, Function.update_self] at hbc hb
      have := h.call_lt b hb
      omega
    · simp only [Function.update_of_ne hba, Function.update_of_ne hca] at hb hc hbc
      exact h.call_inj b c hb hc hbc
  · intro b hb hbc
    by_cases hba : b = a
    · subst hba
      simp only [Function.update_self]
      exact ⟨h.enqueued.not_mem, h.taken.not_mem⟩
    · simp only [Function.update_of_ne hba] at hb hbc ⊢
      exact h.fresh b hb hbc
  · intro b
    by_cases hba : b = a
    · subst hba
      simp only [Function.update_self]
      exact hrec _ _
    · simp only [Function.update_of_ne hba]
      exact h.holds b
  · intro p hp
    exact (h.written p hp).imp_left
      (Mpmc.Inv.exists_claimed_update (by simp [hidle, Caller.claimed]))

theorem access_enqueue (h : Recorded N s) (hfits : Mpmc.Fits sizeT s.queue) {a : A} {v : T}
    {pc : EnqueuePC} (ha : s.caller a = .enqueue v pc) (spurious : Bool) :
    Recorded N (s.advance a (Mpmc.enqueueStep sizeT v spurious s.queue pc).1
      (Caller.afterEnqueue v (Mpmc.enqueueStep sizeT v spurious s.queue pc).2)
      (Event.ofEnqueue (s.call a) v pc (Mpmc.enqueueStep sizeT v spurious s.queue pc).2)) := by
  have ring := h.ring.enqueueStep_inv hfits ha spurious
  have hlive : s.caller a ≠ .idle := by rw [ha]; simp
  have hclaimed : (s.caller a).claimed = (Caller.enqueue v pc).claimed := by rw [ha]
  cases pc with
  | load => exact h.quiet hlive ring rfl rfl rfl rfl hclaimed.symm (by simp [Event.ofEnqueue]) trivial
  | sequence pos =>
      rcases Mpmc.enqueueStep_sequence sizeT v spurious s.queue pos with he | he | he
      all_goals
        rw [he] at ring ⊢
        exact h.quiet hlive ring rfl rfl rfl rfl hclaimed.symm (by simp [Event.ofEnqueue]) trivial
  | claim pos =>
      rcases Mpmc.enqueueStep_claim sizeT v spurious s.queue pos with ⟨rfl, he⟩ | he
      · have h2 := h.ring.two_le_size
        rw [he, Mpmc.Inv.mod_eq_of_fits (hfits.imp_right fun _ => by omega)]
        exact h.claim_enqueue ha
      · rw [he] at ring ⊢
        exact h.quiet hlive ring rfl rfl rfl rfl hclaimed.symm (by simp [Event.ofEnqueue]) trivial
  | write pos =>
      have hrec := h.holds a
      rw [ha] at hrec
      refine h.quiet hlive ring rfl rfl rfl rfl hclaimed.symm ?_ ?_
      · rintro e he
        obtain rfl := List.mem_singleton.1 he
        exact ⟨by rw [ha]; simp [Caller.claimed], _, _, _, rfl⟩
      · exact ⟨List.mem_append_left _ hrec, List.mem_append_right _ (List.mem_singleton.2 rfl)⟩
  | publish pos =>
      have hok := h.ring.ok a
      rw [ha] at hok
      have h2 := h.ring.two_le_size
      have hpos := hok.2.1
      simp only [Mpmc.enqueueStep]
      rw [Mpmc.Inv.mod_eq_of_fits (hfits.imp_right fun _ => by omega)]
      exact h.publish_enqueue ha

theorem access_dequeue (h : Recorded N s) (hfits : Mpmc.Fits sizeT s.queue) {a : A}
    {pc : DequeuePC T} (ha : s.caller a = .dequeue pc) (spurious : Bool) :
    Recorded N (s.advance a (Mpmc.dequeueStep sizeT spurious s.queue pc).1
      (Caller.afterDequeue (Mpmc.dequeueStep sizeT spurious s.queue pc).2)
      (Event.ofDequeue (s.call a) pc (Mpmc.dequeueStep sizeT spurious s.queue pc).2)) := by
  have ring := h.ring.dequeueStep_inv hfits ha spurious
  have hlive : s.caller a ≠ .idle := by rw [ha]; simp
  have hclaimed : (s.caller a).claimed = (Caller.dequeue pc).claimed := by rw [ha]
  have hle := h.ring.deq_le
  have h2 := h.ring.two_le_size
  cases pc with
  | load => exact h.quiet hlive ring rfl rfl rfl rfl hclaimed.symm (by simp [Event.ofDequeue]) trivial
  | sequence pos =>
      rcases Mpmc.dequeueStep_sequence sizeT spurious s.queue pos with he | he | he
      all_goals
        rw [he] at ring ⊢
        exact h.quiet hlive ring rfl rfl rfl rfl hclaimed.symm (by simp [Event.ofDequeue]) trivial
  | claim pos =>
      rcases Mpmc.dequeueStep_claim sizeT spurious s.queue pos with ⟨rfl, he⟩ | he
      · rw [he, Mpmc.Inv.mod_eq_of_fits (hfits.imp_right fun _ => by omega)]
        exact h.claim_dequeue ha
      · rw [he] at ring ⊢
        exact h.quiet hlive ring rfl rfl rfl rfl hclaimed.symm (by simp [Event.ofDequeue]) trivial
  | read pos =>
      have hrec := h.holds a
      rw [ha] at hrec
      refine h.quiet hlive ring rfl rfl rfl rfl hclaimed.symm (by simp [Event.ofDequeue]) ?_
      exact List.mem_append_left _ hrec
  | publish pos x =>
      have hok := h.ring.ok a
      rw [ha] at hok
      have hpos := hok.1
      simp only [Mpmc.dequeueStep]
      rw [Mpmc.Inv.mod_eq_of_fits (hfits.imp_right fun _ => by simp only [Mpmc.size] at *; omega)]
      exact h.publish_dequeue ha

theorem step (h : Recorded N s) (hN : N ≤ 2 ^ 63) (hcalls : s.calls < 2 ^ 63)
    {act : Action T A} {s' : System T A} (hs : s.step act = some s') : Recorded N s' := by
  have hfits := h.fits hN hcalls
  cases act with
  | enqueue a v => exact h.begin (l := .enqueue v .load) rfl (fun _ => trivial) (fun _ _ => trivial) hs
  | dequeue a => exact h.begin (l := .dequeue .load) rfl (fun _ => trivial) (fun _ _ => trivial) hs
  | access a spurious =>
      simp only [System.step] at hs
      split at hs
      case h_1 => cases hs
      case h_2 v pc ha =>
        obtain rfl := Option.some.inj hs
        exact h.access_enqueue hfits ha spurious
      case h_3 pc ha =>
        obtain rfl := Option.some.inj hs
        exact h.access_dequeue hfits ha spurious

end Recorded

/-! ## Whole runs -/

section Runs

variable [DecidableEq A]

theorem calls_mono {s s' : System T A} {act : Action T A} (hs : s.step act = some s') :
    s.calls ≤ s'.calls := by
  cases act with
  | enqueue a v =>
      simp only [step, begin] at hs
      split at hs <;> cases hs
      exact Nat.le_succ _
  | dequeue a =>
      simp only [step, begin] at hs
      split at hs <;> cases hs
      exact Nat.le_succ _
  | access a spurious =>
      simp only [step] at hs
      split at hs <;> cases hs <;> exact le_refl _

/-- Thread `0` enqueues twice while thread `1` takes the first value out. -/
def sampleActions : List (Action Nat (Fin 2)) :=
  [.enqueue 0 7, .access 0 false, .dequeue 1, .access 1 false, .access 0 false, .access 0 true,
    .access 0 false, .access 0 false, .access 0 false, .access 0 false, .access 1 false,
    .access 1 false, .access 1 false, .enqueue 0 8, .access 0 false, .access 1 false,
    .access 0 false, .access 0 false]

end Runs

end System

end TaskDispatcher.Container
