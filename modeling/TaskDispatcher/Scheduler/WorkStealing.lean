import TaskDispatcher.Container.Deque
import TaskDispatcher.Library.Transition
import Mathlib.Data.List.Rotate
import Mathlib.Algebra.BigOperators.Group.Finset.Basic
import Mathlib.Algebra.Order.Group.Multiset
import Mathlib.Tactic.Abel

/-!
# Work stealing

What `gc_use_workstealing` selects: `submitTasks` pushes to the deque of the thread, and
`getNextTask` ends with `tls_t::get_task`.  Every call of a deque is a step of its own.
-/

namespace TaskDispatcher.Scheduler.Stealing

open TaskDispatcher.Library TaskDispatcher.Container.Spmc

/-- What `tls_t` has of the deques, which go by the index of their thread. -/
structure StealTls where
  chaseLevWorker : Nat
  chaseLevStealers : List Nat
  lastStealTarget : Nat

/-- `tls_t::prepare_chase_lev` -/
def prepareChaseLev (numDeques index : Nat) : StealTls where
  chaseLevWorker := index
  chaseLevStealers := (List.range numDeques).filter fun t => t ≠ index
  lastStealTarget := (index + 1) % 2 ^ 32

namespace StealTls

/-- `target_i` in round `i` of the loop -/
def target (t : StealTls) (i : Nat) : Nat :=
  (t.lastStealTarget + i) % 2 ^ 32 % t.chaseLevStealers.length

/-- The deque that round `i` steals from. -/
def victim (t : StealTls) (i : Nat) : Nat := t.chaseLevStealers.getD (t.target i) t.chaseLevWorker

end StealTls

/-- Where a thread stands in `get_task`. -/
inductive GetPC where
  | idle
  | pop
  | steal (i : Nat)
  deriving DecidableEq, Repr

/-- The loop goes on to round `i`, or `get_task` returns `false`. -/
def StealTls.round (t : StealTls) (i : Nat) : GetPC :=
  if i < t.chaseLevStealers.length then .steal i else .idle

structure System (T : Type) where
  deques : Table (Deque T)
  tls : Table StealTls
  pc : Table GetPC
  -- history
  submitted : List T
  taken : List T

inductive Choice (T : Type) where
  | push (task : T)
  | getTask
  | access
  deriving DecidableEq, Repr

structure Label (T : Type) where
  thread : Nat
  choice : Choice T
  deriving DecidableEq, Repr

variable {T : Type}

/-- One call of a deque in `get_task`. -/
def access [Inhabited T] (s : System T) (w : Nat) : GetPC → Option (System T)
  | .idle => none
  | .pop =>
      let t := s.tls w
      let r := (s.deques t.chaseLevWorker).popBottom
      let s := { s with deques := s.deques.set t.chaseLevWorker r.1 }
      match r.2 with
      | some task => some { s with pc := s.pc.set w .idle, taken := s.taken ++ [task] }
      | none => some { s with pc := s.pc.set w (t.round 0) }
  | .steal i =>
      let t := s.tls w
      let r := (s.deques (t.victim i)).steal
      let s := { s with deques := s.deques.set (t.victim i) r.1 }
      match r.2 with
      | some task =>
          some
            { s with
              tls := s.tls.set w { t with lastStealTarget := t.target i }
              pc := s.pc.set w .idle
              taken := s.taken ++ [task] }
      | none => some { s with pc := s.pc.set w (t.round (i + 1)) }

def step [Inhabited T] (numThreads : Nat) (s : System T) (l : Label T) : Option (System T) :=
  if l.thread < numThreads then
    match l.choice with
    | .push task =>
        let d := (s.tls l.thread).chaseLevWorker
        if s.pc l.thread = .idle then
          some
            { s with
              deques := s.deques.set d ((s.deques d).pushBottom task)
              submitted := s.submitted ++ [task] }
        else none
    | .getTask =>
        if s.pc l.thread = .idle then some { s with pc := s.pc.set l.thread .pop } else none
    | .access => access s l.thread (s.pc l.thread)
  else none

/-- `start` has made a deque for each thread. -/
def start [Inhabited T] (numThreads logReserveSize : Nat) : System T where
  deques := .const (Deque.new logReserveSize)
  tls :=
    { cells := (List.range numThreads).map (prepareChaseLev numThreads)
      rest := prepareChaseLev numThreads numThreads }
  pc := .const .idle
  submitted := []
  taken := []

/-! ## The order of the search -/

/-- A thread has a stealer for every deque but its own. -/
structure Prepared (numThreads w : Nat) (t : StealTls) : Prop where
  worker : t.chaseLevWorker = w
  stealers : t.chaseLevStealers = (List.range numThreads).filter fun d => d ≠ w
  last : t.lastStealTarget ≤ numThreads

variable {numThreads w i : Nat} {t : StealTls}

theorem prepared_prepareChaseLev (hw : w < numThreads) :
    Prepared numThreads w (prepareChaseLev numThreads w) where
  worker := rfl
  stealers := rfl
  last := (Nat.mod_le _ _).trans hw

namespace Prepared

theorem length_le (h : Prepared numThreads w t) : t.chaseLevStealers.length ≤ numThreads := by
  rw [h.stealers]
  exact (List.length_filter_le _ _).trans (List.length_range).le

/-- The round takes the place that a rotation gives it. -/
theorem victim_eq (h : Prepared numThreads w t) (hn : numThreads ≤ 2 ^ 31)
    (hi : i < (t.chaseLevStealers.rotate t.lastStealTarget).length) :
    t.victim i = (t.chaseLevStealers.rotate t.lastStealTarget)[i] := by
  have hi' : i < t.chaseLevStealers.length := by
    rw [← List.length_rotate]
    exact hi
  have hlength := h.length_le
  have hlast := h.last
  have htarget : t.target i = (i + t.lastStealTarget) % t.chaseLevStealers.length := by
    unfold StealTls.target
    rw [Nat.mod_eq_of_lt (show t.lastStealTarget + i < 2 ^ 32 by omega), Nat.add_comm]
  have hlt : t.target i < t.chaseLevStealers.length := by
    rw [htarget]
    exact Nat.mod_lt _ (by omega)
  unfold StealTls.victim
  rw [List.getD_eq_getElem?_getD, List.getElem?_eq_getElem hlt, Option.getD_some,
    List.getElem_rotate]
  congr 1

/-- The rounds steal from every other deque once. -/
theorem victims_perm (h : Prepared numThreads w t) (hn : numThreads ≤ 2 ^ 31) :
    ((List.range t.chaseLevStealers.length).map t.victim).Perm t.chaseLevStealers := by
  have heq : (List.range t.chaseLevStealers.length).map t.victim =
      t.chaseLevStealers.rotate t.lastStealTarget := by
    apply List.ext_getElem
    · rw [List.length_map, List.length_range, List.length_rotate]
    · intro i _ hi
      rw [List.getElem_map, List.getElem_range, h.victim_eq hn hi]
  rw [heq]
  exact List.rotate_perm _ _

theorem mem_stealers (h : Prepared numThreads w t) {d : Nat} :
    d ∈ t.chaseLevStealers ↔ d < numThreads ∧ d ≠ w := by
  rw [h.stealers, List.mem_filter, List.mem_range, decide_eq_true_eq]

theorem victim_lt (h : Prepared numThreads w t) (hn : numThreads ≤ 2 ^ 31)
    (hi : i < t.chaseLevStealers.length) : t.victim i < numThreads := by
  have hmem : t.victim i ∈ t.chaseLevStealers := by
    rw [← (h.victims_perm hn).mem_iff]
    exact List.mem_map.2 ⟨i, List.mem_range.2 hi, rfl⟩
  exact (h.mem_stealers.1 hmem).1

end Prepared

/-! ## The invariant -/

/-- A deque holds fewer elements than an `int` counts. -/
def Sized (numThreads : Nat) (s : System T) : Prop :=
  ∀ d, d < numThreads → (s.deques d).bottom - (s.deques d).top < 2 ^ 31

/-- The deques stand for lists, which together with what has been taken make up what was
submitted. -/
structure StealInv (numThreads log : Nat) (s : System T) (lists : Nat → List T) : Prop where
  represents : ∀ d, d < numThreads → Deque.Represents log (s.deques d) (lists d)
  kept : (s.submitted : Multiset T) =
    s.taken + ∑ d ∈ Finset.range numThreads, (lists d : Multiset T)
  prepared : ∀ w, w < numThreads → Prepared numThreads w (s.tls w)
  round : ∀ w i, w < numThreads → s.pc w = .steal i → i < (s.tls w).chaseLevStealers.length

variable {log : Nat} {s s' : System T} {lists : Nat → List T} {l : Label T}

/-- The lists together when one of them changes. -/
theorem sum_update {d : Nat} (hd : d < numThreads) (lists : Nat → List T) (xs : List T) :
    ∑ k ∈ Finset.range numThreads, (Function.update lists d xs k : Multiset T) + lists d =
      ∑ k ∈ Finset.range numThreads, (lists k : Multiset T) + xs := by
  have hmem : d ∈ Finset.range numThreads := Finset.mem_range.2 hd
  rw [← Finset.add_sum_erase _ _ hmem, ← Finset.add_sum_erase _ (fun k => (lists k : Multiset T)) hmem,
    Function.update_self]
  have hrest : ∑ k ∈ (Finset.range numThreads).erase d, (Function.update lists d xs k : Multiset T) =
      ∑ k ∈ (Finset.range numThreads).erase d, (lists k : Multiset T) := by
    apply Finset.sum_congr rfl
    intro k hk
    rw [Function.update_of_ne (Finset.ne_of_mem_erase hk)]
  rw [hrest]
  abel

/-- What a call leaves of a deque is a list again. -/
theorem represents_set {d : Nat} {a : Deque T} {xs : List T}
    (h : ∀ k, k < numThreads → Deque.Represents log (s.deques k) (lists k)) (ha : Deque.Represents log a xs) :
    ∀ k, k < numThreads → Deque.Represents log (s.deques.set d a k) (Function.update lists d xs k) := by
  intro k hk
  rw [Table.get_set]
  by_cases hkd : k = d
  · rw [if_pos hkd, hkd, Function.update_self]
    exact ha
  · rw [if_neg hkd, Function.update_of_ne hkd]
    exact h k hk

theorem fits_pop (hlog : log ≤ 30) (d : Deque T) : Deque.Fits log d .pop := Or.inl hlog

theorem fits_steal {d : Deque T} {xs : List T} (h : Deque.Represents log d xs)
    (hsize : d.bottom - d.top < 2 ^ 31) : Deque.Fits log d (.steal : Call T) := by
  have hlength := h.length
  by_cases hzero : d.bottom - d.top = 0
  · exact Or.inl hzero
  · right
    rw [toInt_of_lt (by omega) hsize]
    omega

/-- A pop or a steal takes its answer out of the list, and answers nothing to an empty one. -/
structure Takes (xs ys : List T) (out : Option T) : Prop where
  some : ∀ x, out = some x → (xs : Multiset T) = {x} + ys
  none : out = none → xs = [] ∧ ys = []

theorem takes_pop (xs : List T) : Takes xs xs.dropLast xs.getLast? where
  some x hx := by
    have hxs := List.dropLast_append_getLast? x hx
    calc (xs : Multiset T) = ((xs.dropLast ++ [x] : List T) : Multiset T) := by rw [hxs]
      _ = (xs.dropLast : Multiset T) + {x} := rfl
      _ = {x} + (xs.dropLast : Multiset T) := Multiset.add_comm _ _
  none hnone := by
    have hxs := List.getLast?_eq_none_iff.1 hnone
    rw [hxs]
    exact ⟨rfl, rfl⟩

theorem takes_steal (xs : List T) : Takes xs xs.tail xs.head? where
  some x hx := by
    cases xs with
    | nil => cases hx
    | cons y ys =>
        cases hx
        rfl
  none hnone := by
    have hxs := List.head?_eq_none_iff.1 hnone
    rw [hxs]
    exact ⟨rfl, rfl⟩

namespace StealInv

/-- A deque is called, and a task taken. -/
theorem taken (h : StealInv numThreads log s lists) {d w : Nat} (hd : d < numThreads)
    {a : Deque T} {ys : List T} {task : T} {t : StealTls} (ha : Deque.Represents log a ys)
    (htake : (lists d : Multiset T) = {task} + ys)
    (ht : w < numThreads → Prepared numThreads w t) :
    StealInv numThreads log
      { s with
        deques := s.deques.set d a
        tls := s.tls.set w t
        pc := s.pc.set w .idle
        taken := s.taken ++ [task] } (Function.update lists d ys) where
  represents := represents_set h.represents ha
  kept := by
    have hsum := sum_update hd lists ys
    show (s.submitted : Multiset T) = ((s.taken ++ [task] : List T) : Multiset T) + _
    rw [← Multiset.coe_add, Multiset.coe_singleton, h.kept]
    rw [htake] at hsum
    have hcancel : ∑ k ∈ Finset.range numThreads, (Function.update lists d ys k : Multiset T) +
        {task} = ∑ k ∈ Finset.range numThreads, (lists k : Multiset T) := by
      apply add_right_cancel (b := (ys : Multiset T))
      rw [← hsum, add_assoc]
    rw [← hcancel]
    abel
  prepared v hv := by
    show Prepared numThreads v (s.tls.set w t v)
    rw [Table.get_set]
    split
    · rename_i hvw
      rw [hvw] at hv ⊢
      exact ht hv
    · exact h.prepared v hv
  round v i hv hi := by
    change s.pc.set w .idle v = .steal i at hi
    show i < (s.tls.set w t v).chaseLevStealers.length
    rw [Table.get_set] at hi ⊢
    split at hi
    · cases hi
    · rename_i hvw
      rw [if_neg hvw]
      exact h.round v i hv hi

/-- The owner takes a task. -/
theorem taken_same (h : StealInv numThreads log s lists) {w : Nat} (hw : w < numThreads)
    {a : Deque T} {ys : List T} {task : T} (ha : Deque.Represents log a ys)
    (htake : (lists w : Multiset T) = {task} + ys) :
    StealInv numThreads log
      { s with
        deques := s.deques.set w a
        pc := s.pc.set w .idle
        taken := s.taken ++ [task] } (Function.update lists w ys) := by
  have htaken := h.taken hw ha htake fun hw => h.prepared w hw
  refine ⟨htaken.represents, htaken.kept, h.prepared, fun v i hv hi => ?_⟩
  change s.pc.set w .idle v = .steal i at hi
  rw [Table.get_set] at hi
  split at hi
  · cases hi
  · exact h.round v i hv hi

/-- The owner pushes a task. -/
theorem pushed [Inhabited T] (h : StealInv numThreads log s lists) {w : Nat} (hw : w < numThreads)
    (task : T) : StealInv numThreads log
      { s with
        deques := s.deques.set w ((s.deques w).pushBottom task)
        submitted := s.submitted ++ [task] } (Function.update lists w (lists w ++ [task])) where
  represents := represents_set h.represents ((h.represents w hw).push task)
  kept := by
    have hsum := sum_update hw lists (lists w ++ [task])
    show ((s.submitted ++ [task] : List T) : Multiset T) = s.taken + _
    rw [← Multiset.coe_add, Multiset.coe_singleton, h.kept]
    rw [← Multiset.coe_add, Multiset.coe_singleton] at hsum
    have hcancel : ∑ k ∈ Finset.range numThreads,
        (Function.update lists w (lists w ++ [task]) k : Multiset T) =
          ∑ k ∈ Finset.range numThreads, (lists k : Multiset T) + {task} := by
      apply add_right_cancel (b := (lists w : Multiset T))
      rw [hsum]
      abel
    rw [hcancel]
    abel
  prepared := h.prepared
  round := h.round

/-- A deque is called in vain. -/
theorem missed (h : StealInv numThreads log s lists) {d w i : Nat} {a : Deque T}
    {ys : List T} (ha : Deque.Represents log a ys) (hempty : lists d = [] ∧ ys = []) :
    StealInv numThreads log
      { s with
        deques := s.deques.set d a
        pc := s.pc.set w ((s.tls w).round i) } lists where
  represents := by
    have hset := represents_set (d := d) h.represents ha
    rw [hempty.2, ← hempty.1, Function.update_eq_self] at hset
    exact hset
  kept := h.kept
  prepared := h.prepared
  round v j hv hj := by
    change s.pc.set w ((s.tls w).round i) v = .steal j at hj
    rw [Table.get_set] at hj
    split at hj
    · rename_i hvw
      unfold StealTls.round at hj
      split at hj
      · rename_i hlt
        cases hj
        rw [hvw]
        exact hlt
      · cases hj
    · exact h.round v j hv hj

theorem step [Inhabited T] (h : StealInv numThreads log s lists) (hlog : log ≤ 30)
    (hn : numThreads ≤ 2 ^ 31) (hg : Sized numThreads s) (hs : Stealing.step numThreads s l = some s') :
    ∃ lists', StealInv numThreads log s' lists' := by
  unfold Stealing.step at hs
  split at hs
  · rename_i hw
    have hprepared := h.prepared l.thread hw
    cases hc : l.choice with
    | push task =>
        simp only [hc] at hs
        split at hs
        · cases hs
          rw [hprepared.worker]
          exact ⟨_, h.pushed hw task⟩
        · cases hs
    | getTask =>
        simp only [hc] at hs
        split at hs
        · cases hs
          refine ⟨lists, h.represents, h.kept, h.prepared, fun v j hv hj => ?_⟩
          change s.pc.set l.thread .pop v = .steal j at hj
          rw [Table.get_set] at hj
          split at hj
          · cases hj
          · exact h.round v j hv hj
        · cases hs
    | access =>
        simp only [hc] at hs
        cases hp : s.pc l.thread with
        | idle =>
            rw [hp] at hs
            cases hs
        | pop =>
            rw [hp] at hs
            simp only [access] at hs
            rw [hprepared.worker] at hs
            obtain ⟨hout, hrest⟩ := (h.represents l.thread hw).pop (fits_pop hlog _)
            have htakes := takes_pop (lists l.thread)
            rw [← hout] at htakes
            split at hs
            · rename_i task htask
              cases hs
              exact ⟨_, h.taken_same hw hrest (htakes.some task htask)⟩
            · rename_i hnone
              cases hs
              exact ⟨lists, h.missed hrest (htakes.none hnone)⟩
        | steal i =>
            rw [hp] at hs
            simp only [access] at hs
            have hd := hprepared.victim_lt hn (h.round _ i hw hp)
            have hrep := h.represents _ hd
            obtain ⟨hout, hrest⟩ := hrep.steal (fits_steal hrep (hg _ hd))
            have htakes := takes_steal (lists ((s.tls l.thread).victim i))
            rw [← hout] at htakes
            split at hs
            · rename_i task htask
              cases hs
              refine ⟨_, h.taken hd hrest (htakes.some task htask) fun _ => ?_⟩
              refine ⟨hprepared.worker, hprepared.stealers, ?_⟩
              have hlength := hprepared.length_le
              have hround := h.round _ i hw hp
              have hlt : (s.tls l.thread).target i < (s.tls l.thread).chaseLevStealers.length :=
                Nat.mod_lt _ (by omega)
              show (s.tls l.thread).target i ≤ numThreads
              omega
            · rename_i hnone
              cases hs
              exact ⟨lists, h.missed hrest (htakes.none hnone)⟩
  · cases hs

theorem start [Inhabited T] (numThreads log : Nat) :
    StealInv numThreads log (start numThreads log : System T) fun _ => [] where
  represents d _ := .new log
  kept := by
    show (([] : List T) : Multiset T) = ([] : List T) + ∑ d ∈ _, (([] : List T) : Multiset T)
    simp
  prepared w hw := by
    have hget : (Stealing.start numThreads log : System T).tls w = prepareChaseLev numThreads w := by
      show Table.lookup _ _ w = _
      rw [Table.lookup_eq_getD]
      show ((List.range numThreads).map (prepareChaseLev numThreads))[w]?.getD _ = _
      rw [List.getElem?_map, List.getElem?_range hw]
      rfl
    rw [hget]
    exact prepared_prepareChaseLev hw
  round w i _ hi := by cases hi

end StealInv

/-! ## A search in vain -/

variable [Inhabited T] {σ : Nat → System T} {ℓ : Nat → Label T} {n : Nat}

def sized (numThreads : Nat) (s : System T) (_ : Label T) : Bool :=
  (List.range numThreads).all fun d => (s.deques d).bottom - (s.deques d).top < 2 ^ 31

end TaskDispatcher.Scheduler.Stealing
