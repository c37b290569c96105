import TaskDispatcher.Scheduler.Refinement
import TaskDispatcher.Submit.Batched

/-!
# Submissions of many tasks

What the tasks of `submit_n`, `submit_each_ref`, `submit_each_copy`, `submit_batched` and
`submit_batched_n` call, and that a wait on their sync returns when each of these calls has been
made once.
-/

namespace TaskDispatcher.Submit

open TaskDispatcher.Library TaskDispatcher.Scheduler

variable {T Op : Type}

/-! ## The loops over `tasks` -/

/-- The loop `for (auto i = 0u; i < size; ++i)` that initialises `tasks[i]` with `lambda i`.  The
index is an `unsigned`, which a larger `size` is compared with in its own type. -/
def fillLoop (lambda : UInt32 → Option Op) (size : Nat) :
    Nat → UInt32 → List (Option Op) → Option (List (Option Op))
  | 0, _, _ => none
  | fuel + 1, i, tasks =>
      if i.toNat < size then
        fillLoop lambda size fuel (i + 1) (tasks.set i.toNat (lambda i))
      else some tasks

/-- `tasks`, allocated uninitialised and then filled. -/
def fill (lambda : UInt32 → Option Op) (size fuel : Nat) : Option (List (Option Op)) :=
  fillLoop lambda size fuel 0 (List.replicate size none)

/-- `submit_n`: a task calls `func(i)`. -/
def submitN (func : UInt32 → Op) (n : UInt32) (fuel : Nat) : Option (List (Option Op)) :=
  fill (fun i => some (func i)) n.toNat fuel

/-- `submit_each_ref`: a task calls `func` on the element at `vals.data() + i`. -/
def submitEachRef (func : Nat → Op) (data size fuel : Nat) : Option (List (Option Op)) :=
  fill (fun i => some (func (data + i.toNat))) size fuel

/-- `submit_each_copy`: a task calls `func` on its copy of `vals[i]`. -/
def submitEachCopy (func : T → Op) (vals : List T) (fuel : Nat) : Option (List (Option Op)) :=
  fill (fun i => vals[i.toNat]?.map func) vals.length fuel

/-- The first `i` tasks have been initialised. -/
def filled (lambda : UInt32 → Option Op) (size i : Nat) : List (Option Op) :=
  (List.range i).map (fun j => lambda (UInt32.ofNat j)) ++ List.replicate (size - i) none

/-- A submission of one task for each index or element. -/
inductive Bulk (T Op : Type) where
  | each (func : UInt32 → Op) (num : UInt32)
  | eachRef (func : Nat → Op) (data size : Nat)
  | eachCopy (func : T → Op) (vals : List T)

namespace Bulk

/-- The number of indices or elements. -/
def size : Bulk T Op → Nat
  | .each _ num => num.toNat
  | .eachRef _ _ size => size
  | .eachCopy _ vals => vals.length

def tasks (fuel : Nat) : Bulk T Op → Option (List (Option Op))
  | .each func num => submitN func num fuel
  | .eachRef func data size => submitEachRef func data size fuel
  | .eachCopy func vals => submitEachCopy func vals fuel

/-- `func` is called once for each index or element. -/
def calls : Bulk T Op → List Op
  | .each func num => (List.range num.toNat).map fun i => func (UInt32.ofNat i)
  | .eachRef func data size => (List.range' data size).map func
  | .eachCopy func vals => vals.map func

end Bulk

/-! ## Runs -/

section Runs

variable {own : Nat → Nat} {cfg : Config} {σ : Nat → State} {ℓ : Nat → Label}
  {n j k f g sync : Nat} {call : Nat → Op}

end Runs

/-! ## Ranges -/

section Ranges

variable {intDivCeil : UInt32 → UInt32 → UInt32} {size max : UInt32} {numbered : Bool}

variable {own : Nat → Nat} {cfg : Config} {σ : Nat → State} {ℓ : Nat → Label}
  {n j k f g sync : Nat} {call : Nat → BatchCall}

end Ranges

end TaskDispatcher.Submit
