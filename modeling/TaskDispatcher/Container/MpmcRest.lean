import TaskDispatcher.Container.MpmcInvariant

/-!
# `container::MPMCQueue` at rest

While no call is in progress the queue is its contents: an enqueue appends, a
dequeue takes the first value out, and both do what they do for a list.
-/

namespace TaskDispatcher.Container

open TaskDispatcher.Library

namespace Mpmc

variable {T A : Type}

theorem Inv.of_rest {B : Type} {q : Mpmc T} (h : Inv q fun _ : A => .idle) {caller : B → Caller T}
    (hrest : ∀ b, (caller b).atRest = true) : Inv q caller where
  two_pow := h.two_pow
  log_length := h.log_length
  deq_le := h.deq_le
  enq_le := h.enq_le
  ok b := callerOk_of_atRest (hrest b)
  unique b _ _ hc := by
    rw [Caller.claimed_of_atRest (hrest b)] at hc
    cases hc
  filled p hp1 hp2 := (h.filled p hp1 hp2).imp_left fun ⟨_, _, ha⟩ => by cases ha
  vacant p hp1 hp2 := (h.vacant p hp1 hp2).imp_right fun ⟨_, _, _, ha⟩ => by cases ha

/-- An enqueue on a queue at rest that is not full appends its value. -/
theorem Inv.enqueue_rest {q : Mpmc T} (h : Inv q fun _ : Unit => .idle) (v : T)
    (hlt : q.enqueuePos < q.dequeuePos + q.size) :
    Inv (enqueue 0 q v) (fun _ : Unit => .idle) ∧ (enqueue 0 q v).log = q.log ++ [v] ∧
      (enqueue 0 q v).enqueuePos = q.enqueuePos + 1 ∧
      (enqueue 0 q v).dequeuePos = q.dequeuePos ∧ (enqueue 0 q v).size = q.size := by
  have hseq : (q.cell q.enqueuePos).sequence = q.enqueuePos := by
    rcases h.vacant q.enqueuePos (le_refl _) hlt with hs | ⟨-, -, _, ha⟩
    · exact hs
    · cases ha
  have hdiff : diff 0 (q.cell q.enqueuePos).sequence q.enqueuePos = 0 := by
    rw [hseq]
    simp [diff]
  have hq : enqueue 0 q v =
      ({ q with enqueuePos := q.enqueuePos + 1, log := q.log ++ [v] }.setData
        q.enqueuePos v).setSequence q.enqueuePos (q.enqueuePos + 1) := by
    simp [enqueue, enqueueAlone, enqueueStep, hdiff]
  rw [hq]
  refine ⟨?_, rfl, rfl, rfl, rfl⟩
  have h1 : Inv q (Function.update (fun _ : Unit => .idle) () (.enqueue v (.claim q.enqueuePos))) :=
    h.move rfl ⟨le_refl _, fun _ => hseq⟩
  have h2 := h1.claim_enqueue (a := ()) (v := v) (Function.update_self ..)
  have h3 := h2.write_enqueue (a := ()) (Function.update_self ..)
  have h4 := h3.publish_enqueue (a := ()) (Function.update_self ..)
  refine cast (congrArg (Inv _) ?_) h4
  funext a
  simp

/-- No call is in progress, whoever the callers are. -/
theorem Inv.at_rest {q : Mpmc T} {caller : A → Caller T} (h : Inv q caller)
    (hrest : ∀ a, (caller a).atRest = true) : Inv q fun _ : Unit => .idle where
  two_pow := h.two_pow
  log_length := h.log_length
  deq_le := h.deq_le
  enq_le := h.enq_le
  ok _ := trivial
  unique _ _ _ _ _ := rfl
  filled p hp1 hp2 := by
    rcases h.filled p hp1 hp2 with ⟨-, a, ha⟩ | hs
    · rw [Caller.claimed_of_atRest (hrest a)] at ha
      cases ha
    · exact Or.inr hs
  vacant p hp1 hp2 := by
    rcases h.vacant p hp1 hp2 with hs | ⟨-, -, a, ha⟩
    · exact Or.inl hs
    · rw [Caller.claimed_of_atRest (hrest a)] at ha
      cases ha

theorem Inv.contents_length {q : Mpmc T} {caller : A → Caller T} (h : Inv q caller) :
    q.contents.length = q.enqueuePos - q.dequeuePos := by
  rw [contents, List.length_drop, h.log_length]

theorem entry_eq_contents (q : Mpmc T) (k : Nat) : q.entry (q.dequeuePos + k) = q.contents[k]? := by
  rw [entry, if_pos (Nat.le_add_right _ _), contents, List.getElem?_drop]

theorem contents_eq_nil_iff {q : Mpmc T} : q.contents = [] ↔ ∀ p, q.entry p = none := by
  constructor
  · intro hnil p
    rw [entry]
    split
    · rename_i hle
      obtain ⟨k, rfl⟩ := Nat.exists_eq_add_of_le hle
      rw [← List.getElem?_drop, ← contents, hnil]
      rfl
    · rfl
  · intro hnone
    apply List.eq_nil_of_length_eq_zero
    by_contra hne
    have hsome := entry_eq_contents q 0
    rw [hnone, List.getElem?_eq_getElem (Nat.pos_of_ne_zero hne)] at hsome
    cases hsome

/-- A dequeue on a queue at rest takes its first value out. -/
theorem Inv.dequeue_rest {q : Mpmc T} (h : Inv q fun _ : Unit => .idle) :
    q.contents = [] ∧ dequeue 0 q = (q, none) ∨
      ∃ v rest, q.contents = v :: rest ∧ (dequeue 0 q).2 = some v ∧
        (dequeue 0 q).1.contents = rest ∧ (dequeue 0 q).1.size = q.size ∧
        Inv (dequeue 0 q).1 fun _ : Unit => .idle := by
  have hle := h.deq_le
  rcases Nat.lt_or_ge q.dequeuePos q.enqueuePos with hlt | hge
  · obtain ⟨hseq, hdata⟩ : (q.cell q.dequeuePos).sequence = q.dequeuePos + 1 ∧
        q.log[q.dequeuePos]? = some (q.cell q.dequeuePos).data := by
      rcases h.filled q.dequeuePos (le_refl _) hlt with ⟨-, _, ha⟩ | hs
      · cases ha
      · exact hs
    have hdiff : diff 0 (q.cell q.dequeuePos).sequence (q.dequeuePos + 1) = 0 := by
      rw [hseq, diff_zero, Int.sub_self]
    have hq : dequeue 0 q =
        (({ q with dequeuePos := q.dequeuePos + 1 } : Mpmc T).setSequence q.dequeuePos
          (q.dequeuePos + q.bufferMask + 1), some (q.cell q.dequeuePos).data) := by
      simp [dequeue, dequeueAlone, dequeueStep, hdiff]
      rfl
    obtain ⟨hlen, hget⟩ := List.getElem?_eq_some_iff.1 hdata
    refine Or.inr ⟨(q.cell q.dequeuePos).data, q.log.drop (q.dequeuePos + 1), ?_, ?_, ?_, ?_, ?_⟩
    · rw [contents, List.drop_eq_getElem_cons hlen, hget]
    · rw [hq]
    · rw [hq]
      rfl
    · rw [hq]
      rfl
    · rw [hq]
      have h1 : Inv q (Function.update (fun _ : Unit => .idle) () (.dequeue (.claim q.dequeuePos))) :=
        h.move rfl ⟨le_refl _, fun _ => hseq⟩
      have h2 := h1.claim_dequeue (a := ()) (Function.update_self ..)
      have h3 := h2.dequeueStep_inv (.inl rfl) (a := ()) (Function.update_self ..) false
      have h4 := h3.publish_dequeue (a := ()) (Function.update_self ..)
      refine cast (congrArg (Inv _) ?_) h4
      funext a
      simp
  · refine Or.inl ⟨?_, ?_⟩
    · apply List.eq_nil_of_length_eq_zero
      rw [h.contents_length]
      omega
    · have hseq : (q.cell q.dequeuePos).sequence = q.dequeuePos := by
        have h2 := h.two_le_size
        rcases h.vacant q.dequeuePos hge (by omega) with hs | ⟨-, -, _, ha⟩
        · exact hs
        · cases ha
      have hdiff : diff 0 (q.cell q.dequeuePos).sequence (q.dequeuePos + 1) = -1 := by
        rw [hseq, diff_zero]
        omega
      simp [dequeue, dequeueAlone, dequeueStep, hdiff]

/-- Draining a queue at rest ends with the queue empty. -/
theorem Inv.drain_rest {q : Mpmc T} (h : Inv q fun _ : Unit => .idle) {fuel : Nat}
    (hfuel : q.contents.length < fuel) :
    ∃ q', drain fuel q = some q' ∧ q'.contents = [] ∧ q'.size = q.size ∧
      Inv q' fun _ : Unit => .idle := by
  induction fuel generalizing q with
  | zero => omega
  | succ fuel ih =>
      rcases h.dequeue_rest with ⟨hnil, hd⟩ | ⟨v, rest, hcons, hout, hrest, hsize, hinv⟩
      · refine ⟨q, ?_, hnil, rfl, h⟩
        rw [drain, hd]
      · have hlen : (dequeue 0 q).1.contents.length < fuel := by
          rw [hrest]
          rw [hcons, List.length_cons] at hfuel
          omega
        obtain ⟨q', hq', hnil, hsize', hinv'⟩ := ih hinv hlen
        refine ⟨q', ?_, hnil, hsize'.trans hsize, hinv'⟩
        have hpair : dequeue 0 q = ((dequeue 0 q).1, some v) := by rw [← hout]
        rw [drain, hpair]
        exact hq'

theorem refill_succ (q : Mpmc Nat) (n : Nat) : q.refill (n + 1) = enqueue 0 (q.refill n) n := by
  rw [refill, List.range_succ, List.foldl_append, List.foldl_cons, List.foldl_nil]
  rfl

/-- The indices enqueued into an empty queue at rest. -/
structure Refilled (q : Mpmc Nat) (n : Nat) : Prop where
  inv : Inv (q.refill n) fun _ : Unit => .idle
  log : (q.refill n).log = q.log ++ List.range n
  enqueuePos : (q.refill n).enqueuePos = q.enqueuePos + n
  dequeuePos : (q.refill n).dequeuePos = q.dequeuePos
  size : (q.refill n).size = q.size

theorem Inv.refilled {q : Mpmc Nat} (h : Inv q fun _ : Unit => .idle) (hnil : q.contents = [])
    {n : Nat} (hn : n ≤ q.size) : Refilled q n := by
  have hempty : q.enqueuePos = q.dequeuePos := by
    have hlen := h.contents_length
    have hle := h.deq_le
    rw [hnil, List.length_nil] at hlen
    omega
  induction n with
  | zero => exact ⟨h, (List.append_nil _).symm, rfl, rfl, rfl⟩
  | succ n ih =>
      have ih := ih (by omega)
      have henq := ih.enqueuePos
      have hdeq := ih.dequeuePos
      have hsize := ih.size
      obtain ⟨h', hlog', henq', hdeq', hsize'⟩ := ih.inv.enqueue_rest n (by omega)
      rw [← refill_succ] at h' hlog' henq' hdeq' hsize'
      refine ⟨h', ?_, by omega, by omega, by omega⟩
      rw [hlog', ih.log, List.range_succ, List.append_assoc]

/-- The values below `n` enqueued into a new queue. -/
theorem Inv.populate {k : Nat} (hk : 1 ≤ k) (d : Nat) {n : Nat} (hn : n ≤ 2 ^ k) :
    Inv ((List.range n).foldl (enqueue 0) (Mpmc.new (2 ^ k) d)) (fun _ : A => .idle) ∧
      ((List.range n).foldl (enqueue 0) (Mpmc.new (2 ^ k) d)).log = List.range n ∧
      ((List.range n).foldl (enqueue 0) (Mpmc.new (2 ^ k) d)).enqueuePos = n ∧
      ((List.range n).foldl (enqueue 0) (Mpmc.new (2 ^ k) d)).dequeuePos = 0 ∧
      ((List.range n).foldl (enqueue 0) (Mpmc.new (2 ^ k) d)).size = 2 ^ k := by
  have hpos := Nat.two_pow_pos k
  have hsize : (Mpmc.new (2 ^ k) d).size = 2 ^ k := by
    show 2 ^ k - 1 + 1 = 2 ^ k
    omega
  have h := (Inv.new (A := Unit) hk d).refilled (n := n) rfl (by omega)
  exact ⟨h.inv.of_rest fun _ => rfl, h.log, h.enqueuePos.trans (Nat.zero_add n), h.dequeuePos,
    h.size.trans hsize⟩

theorem Refilled.contents {q : Mpmc Nat} {n : Nat} (h : Refilled q n) (hq : Inv q fun _ : Unit => .idle)
    (hnil : q.contents = []) : (q.refill n).contents = List.range n := by
  have hle : q.log.length ≤ q.dequeuePos := List.drop_eq_nil_iff.1 hnil
  have hge := hq.deq_le
  rw [← hq.log_length] at hge
  rw [Mpmc.contents, h.log, h.dequeuePos, List.drop_append, List.drop_eq_nil_of_le hle,
    show q.dequeuePos - q.log.length = 0 by omega]
  rfl

end Mpmc

end TaskDispatcher.Container
