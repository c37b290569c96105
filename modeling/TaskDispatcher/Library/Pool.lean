import TaskDispatcher.Library.Simulation
import Mathlib.Data.List.Nodup
import Mathlib.Logic.Function.Basic

/-!
# A pool of tasks in groups

Agents submit tasks to groups, begin and finish them, and join groups.  A group is joined
by its owner, and when all its tasks are finished.
-/

namespace TaskDispatcher.Library

inductive Stage (A : Type) where
  | waiting
  | running (a : A)
  | finished
  deriving DecidableEq

/-- The tasks below `next` have been submitted. -/
structure Pool (A G : Type) where
  next : Nat
  group : Nat → G
  stage : Nat → Stage A

inductive PoolEvent (A G : Type) where
  | submit (a : A) (g : G) (num : Nat)
  | begin (a : A) (n : Nat)
  | finish (a : A) (n : Nat)
  | join (a : A) (g : G)
  deriving DecidableEq, Repr

namespace Pool

variable {A G : Type}

def new (g : G) : Pool A G where
  next := 0
  group := fun _ => g
  stage := fun _ => .waiting

/-- The next `num` tasks are of group `g`. -/
def submit (p : Pool A G) (g : G) (num : Nat) : Pool A G where
  next := p.next + num
  group := fun n => if p.next ≤ n ∧ n < p.next + num then g else p.group n
  stage := p.stage

def setStage (p : Pool A G) (n : Nat) (st : Stage A) : Pool A G where
  next := p.next
  group := p.group
  stage := Function.update p.stage n st

/-- Who owns a group may submit to it, and so may its tasks. -/
def MaySubmit (own : G → A) (p : Pool A G) (a : A) (g : G) : Prop :=
  own g = a ∨ ∃ n, n < p.next ∧ p.stage n = .running a ∧ p.group n = g

inductive Step (own : G → A) : Pool A G → Option (PoolEvent A G) → Pool A G → Prop where
  | submit {p : Pool A G} {a : A} {g : G} (num : Nat) : MaySubmit own p a g →
      Step own p (some (.submit a g num)) (p.submit g num)
  | begin {p : Pool A G} {a : A} {n : Nat} : n < p.next → p.stage n = .waiting →
      (∀ k, p.stage k ≠ .running a) → Step own p (some (.begin a n)) (p.setStage n (.running a))
  | finish {p : Pool A G} {a : A} {n : Nat} : p.stage n = .running a →
      Step own p (some (.finish a n)) (p.setStage n .finished)
  | join {p : Pool A G} {a : A} {g : G} : own g = a →
      (∀ n, n < p.next → p.group n = g → p.stage n = .finished) →
      Step own p (some (.join a g)) p

end Pool

/-- The events in the life of a task. -/
def PoolEvent.about {A G : Type} (n : Nat) : PoolEvent A G → Bool
  | .begin _ k => k == n
  | .finish _ k => k == n
  | _ => false

namespace Pool

variable {A G : Type}

theorem Step.of_path {own : G → A} {p q : Pool A G} {e : PoolEvent A G}
    (h : Path (Step own) p [e] q) : Step own p (some e) q := by
  cases h with
  | silent hs _ => cases hs
  | shown hs hrest =>
      cases hrest with
      | refl => exact hs
      | silent hs' _ => cases hs'

/-- What has been seen of a task agrees with its stage. -/
def Seen (n : Nat) (es : List (PoolEvent A G)) : Stage A → Prop
  | .waiting => es.filter (PoolEvent.about n) = []
  | .running a => es.filter (PoolEvent.about n) = [.begin a n]
  | .finished => ∃ a, es.filter (PoolEvent.about n) = [.begin a n, .finish a n]

variable {own : G → A} {p q : Pool A G} {es : List (PoolEvent A G)} {n : Nat}

theorem Seen.other {st : Stage A} {e : PoolEvent A G} (h : Seen n es st)
    (he : PoolEvent.about n e = false) : Seen n (es ++ [e]) st := by
  have hfilter : (es ++ [e]).filter (PoolEvent.about n) = es.filter (PoolEvent.about n) := by
    rw [List.filter_append, List.filter_cons_of_neg (by simp [he]), List.filter_nil, List.append_nil]
  cases st with
  | waiting => exact hfilter.trans h
  | running a => exact hfilter.trans h
  | finished =>
      obtain ⟨a, ha⟩ := h
      exact ⟨a, hfilter.trans ha⟩

/-- What has not been submitted waits. -/
def Fresh (p : Pool A G) : Prop := ∀ n, p.next ≤ n → p.stage n = .waiting

theorem Fresh.step {o : Option (PoolEvent A G)} (h : Fresh p) (hs : Step own p o q) : Fresh q := by
  intro n hn
  cases hs with
  | submit num _ => exact h n (Nat.le_trans (Nat.le_add_right _ num) hn)
  | join _ _ => exact h n hn
  | @begin a k hk _ _ =>
      show Function.update p.stage k (.running a) n = .waiting
      rw [Function.update_of_ne (Nat.ne_of_gt (Nat.lt_of_lt_of_le hk hn))]
      exact h n hn
  | @finish a k hrunning =>
      have hne : n ≠ k := by
        rintro rfl
        rw [h n hn] at hrunning
        cases hrunning
      show Function.update p.stage k .finished n = .waiting
      rw [Function.update_of_ne hne]
      exact h n hn

end Pool

/-- The task, of the `num` tasks from `first` on, that the event begins. -/
def PoolEvent.begun {A G : Type} (first num : Nat) : PoolEvent A G → Option Nat
  | .begin _ n => if first ≤ n ∧ n < first + num then some n else none
  | _ => none

/-- The task, of the `num` tasks from `first` on, that the event finishes. -/
def PoolEvent.ended {A G : Type} (first num : Nat) : PoolEvent A G → Option Nat
  | .finish _ n => if first ≤ n ∧ n < first + num then some n else none
  | _ => none

namespace Pool

variable {A G : Type} {es : List (PoolEvent A G)} {first num : Nat}

end Pool

end TaskDispatcher.Library
