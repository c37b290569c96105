import Mathlib.Logic.Function.Basic

/-!
# Total tables with finitely many written cells

A `Table` is a total function on indices that a program writes one cell at a
time.  It is kept as a list of written cells over one default value, so that a
concrete run can be evaluated; every proof uses only `get_set`.
-/

namespace TaskDispatcher.Library

/-- A total map on indices: written cells over a default value. -/
structure Table (α : Type) where
  cells : List α
  rest : α

namespace Table

variable {α β : Type}

def lookup (d : α) : List α → Nat → α
  | [], _ => d
  | x :: _, 0 => x
  | _ :: xs, i + 1 => lookup d xs i

def write (d v : α) : List α → Nat → List α
  | [], 0 => [v]
  | [], i + 1 => d :: write d v [] i
  | _ :: xs, 0 => v :: xs
  | x :: xs, i + 1 => x :: write d v xs i

/-- The table that is `d` everywhere. -/
def const (d : α) : Table α := ⟨[], d⟩

def get (t : Table α) (i : Nat) : α := lookup t.rest t.cells i

def set (t : Table α) (i : Nat) (v : α) : Table α := ⟨write t.rest v t.cells i, t.rest⟩

instance : CoeFun (Table α) (fun _ => Nat → α) := ⟨get⟩

theorem lookup_write (d v : α) (xs : List α) (i j : Nat) :
    lookup d (write d v xs i) j = if j = i then v else lookup d xs j := by
  induction xs, i using write.induct generalizing j with
  | case1 => cases j <;> simp [write, lookup]
  | case2 i ih =>
      cases j with
      | zero => simp [write, lookup]
      | succ j => simpa [write, lookup] using ih j
  | case3 x xs => cases j <;> simp [write, lookup]
  | case4 x xs i ih =>
      cases j with
      | zero => simp [write, lookup]
      | succ j => simpa [write, lookup] using ih j

theorem lookup_eq_getD (d : α) (xs : List α) (i : Nat) : lookup d xs i = xs[i]?.getD d := by
  induction xs generalizing i with
  | nil => rfl
  | cons x xs ih => cases i <;> simp [lookup, ih]

/-- Only written cells differ from the default. -/
theorem get_eq_rest (t : Table α) {i : Nat} (h : t.cells.length ≤ i) : t i = t.rest := by
  show lookup t.rest t.cells i = t.rest
  rw [lookup_eq_getD, List.getElem?_eq_none h]
  rfl

/-- Every value of a table is its default or one of the written cells. -/
theorem get_mem (t : Table α) (i : Nat) : t i ∈ t.rest :: t.cells := by
  rcases Nat.lt_or_ge i t.cells.length with hlt | hge
  · refine List.mem_cons_of_mem _ ?_
    show lookup t.rest t.cells i ∈ t.cells
    rw [lookup_eq_getD, List.getElem?_eq_getElem hlt]
    exact List.getElem_mem hlt
  · rw [t.get_eq_rest hge]
    exact List.mem_cons_self

@[simp] theorem const_get (d : α) (i : Nat) : (const d) i = d := rfl

theorem get_set (t : Table α) (i j : Nat) (v : α) :
    (t.set i v) j = if j = i then v else t j := lookup_write _ _ _ _ _

@[simp] theorem get_set_self (t : Table α) (i : Nat) (v : α) : (t.set i v) i = v := by
  simp [get_set]

theorem get_set_ne (t : Table α) {i j : Nat} (v : α) (h : j ≠ i) : (t.set i v) j = t j := by
  simp [get_set, h]

/-- Reading a written table through `f` is an update of the composed map. -/
theorem comp_set (f : α → β) (t : Table α) (i : Nat) (v : α) :
    (fun j => f ((t.set i v) j)) = Function.update (fun j => f (t j)) i (f v) := by
  funext j
  by_cases h : j = i
  · subst h
    simp
  · simp [get_set_ne t v h, Function.update_of_ne h]

end Table

end TaskDispatcher.Library
