import TaskDispatcher.Library.Table
import TaskDispatcher.Library.Ring

/-!
# `spmc::Deque`

The workstealing deque of `container/spmc_queue.hh`, one call at a time.  `top`
and `bottom` are `long`s of 64 bits and are not bounded here; where the code
converts a difference of them to another type, the conversion is kept.  Which
old buffers are freed is left to the concurrent model: no call reads them.
-/

namespace TaskDispatcher.Container.Spmc

open TaskDispatcher.Library

/-! ## Integer conversions -/

/-- A `long` compared with a `size_t`. -/
def toUnsigned (x : Int) : Int := if x < 0 then x + 2 ^ 64 else x

/-- A `long` assigned to an `int`. -/
def toInt (x : Int) : Int := Int.bmod x (2 ^ 32)

/-- `1 << log` on `int`s: two's complement at `log = 31`, where it takes the sign
bit.  From 32 on the language leaves it open. -/
def oneShiftLeft (log : Nat) : Int := toInt (2 ^ log : Nat)

theorem toUnsigned_of_nonneg {x : Int} (h : 0 ≤ x) : toUnsigned x = x := if_neg (by omega)

theorem toInt_of_lt {x : Int} (h : -2 ^ 31 ≤ x) (h' : x < 2 ^ 31) : toInt x = x := by
  rw [toInt, Int.bmod_eq_of_le] <;> omega

theorem oneShiftLeft_of_le {log : Nat} (h : log ≤ 30) : oneShiftLeft log = (2 ^ log : Nat) := by
  have hle : 2 ^ log ≤ 2 ^ 30 := Nat.pow_le_pow_right (by decide) h
  rw [oneShiftLeft]
  generalize 2 ^ log = n at hle
  exact toInt_of_lt (by omega) (by omega)

theorem oneShiftLeft_of_ge {log : Nat} (h : 31 ≤ log) : oneShiftLeft log ≤ 0 := by
  obtain ⟨k, rfl⟩ := Nat.exists_eq_add_of_le h
  cases k with
  | zero => decide
  | succ k =>
      have hdvd : 2 ^ 32 ∣ 2 ^ (31 + (k + 1)) := Nat.pow_dvd_pow 2 (by omega)
      have hmod : ((2 ^ (31 + (k + 1)) : Nat) : Int) % (2 ^ 32 : Nat) = 0 :=
        Int.emod_eq_zero_of_dvd (Int.natCast_dvd_natCast.2 hdvd)
      rw [oneShiftLeft, toInt, Int.bmod_def, hmod]
      decide

/-! ## Buffers -/

structure Buffer (T : Type) where
  id : Nat
  logSize : Nat
  segment : Table T

namespace Buffer

variable {T : Type}

/-- `new T[1ull << log_size]` -/
def new [Inhabited T] (ls id : Nat) : Buffer T where
  id := id
  logSize := ls
  segment := .const default

def size (a : Buffer T) : Nat := 2 ^ a.logSize

def get (a : Buffer T) (i : Int) : T := a.segment (i % a.size).toNat

def put (a : Buffer T) (i : Int) (item : T) : Buffer T :=
  { a with segment := a.segment.set (i % a.size).toNat item }

/-- Copy the `n` elements from logical index `t` on. -/
def copy (a buffer : Buffer T) (t : Int) : Nat → Buffer T
  | 0 => buffer
  | n + 1 => (copy a buffer t n).put (t + n) (a.get (t + n))

def resize [Inhabited T] (a : Buffer T) (b t delta : Int) : Buffer T :=
  copy a (new (a.logSize + delta).toNat (a.id + 1)) t (b - t).toNat

variable (a : Buffer T)

theorem size_pos : 0 < a.size := Nat.two_pow_pos _

@[simp] theorem size_put (i : Int) (x : T) : (a.put i x).size = a.size := rfl

@[simp] theorem id_put (i : Int) (x : T) : (a.put i x).id = a.id := rfl

@[simp] theorem get_put_self (i : Int) (x : T) : (a.put i x).get i = x := by
  simp [get, put, size]

/-- Indices that are not a multiple of the size apart have different cells. -/
theorem get_put_ne {i j : Int} (x : T) (h : j % a.size ≠ i % a.size) :
    (a.put i x).get j = a.get j := by
  have hpos := a.size_pos
  have h1 := Int.emod_nonneg i (show (a.size : Int) ≠ 0 by omega)
  have h2 := Int.emod_nonneg j (show (a.size : Int) ≠ 0 by omega)
  show a.segment.set (i % a.size).toNat x (j % a.size).toNat = _
  exact Table.get_set_ne _ _ (by omega)

/-- Within one lap a put changes its own index only. -/
theorem get_put_of_lap {d i j : Int} (x : T) (hi : d ≤ i) (hi' : i < d + a.size) (hj : d ≤ j)
    (hj' : j < d + a.size) (h : j ≠ i) : (a.put i x).get j = a.get j :=
  a.get_put_ne x fun heq => h (Ring.eq_of_emod_eq hj hj' hi hi' heq)

theorem copy_size (buffer : Buffer T) (t : Int) (n : Nat) : (copy a buffer t n).size = buffer.size := by
  induction n with
  | zero => rfl
  | succ n ih => rw [copy, size_put, ih]

theorem copy_id (buffer : Buffer T) (t : Int) (n : Nat) : (copy a buffer t n).id = buffer.id := by
  induction n with
  | zero => rfl
  | succ n ih => rw [copy, id_put, ih]

/-- The copied elements are at their indices. -/
theorem get_copy (buffer : Buffer T) (t : Int) {n : Nat} (hn : n ≤ buffer.size) {i : Int}
    (hi : t ≤ i) (hi' : i < t + n) : (copy a buffer t n).get i = a.get i := by
  induction n with
  | zero => omega
  | succ n ih =>
      rw [copy]
      rcases lt_or_ge i (t + n) with hlt | hge
      · rw [get_put_of_lap (d := t) _ _ (by omega) ?_ hi ?_ (by omega), ih (by omega) hlt]
        · rw [copy_size]
          omega
        · rw [copy_size]
          omega
      · obtain rfl : i = t + n := by omega
        rw [get_put_self]

variable [Inhabited T]

theorem size_resize (b t delta : Int) :
    (a.resize b t delta).size = 2 ^ (a.logSize + delta).toNat := copy_size _ _ _ _

theorem id_resize (b t delta : Int) : (a.resize b t delta).id = a.id + 1 := copy_id _ _ _ _

theorem get_resize {b t delta : Int} (h : b - t ≤ (a.resize b t delta).size) {i : Int} (hi : t ≤ i)
    (hi' : i < b) : (a.resize b t delta).get i = a.get i := by
  rw [size_resize] at h
  refine get_copy a _ t ?_ hi (by omega)
  show (b - t).toNat ≤ 2 ^ (a.logSize + delta).toNat
  omega

theorem size_grow (b t : Int) : (a.resize b t 1).size = 2 * a.size := by
  rw [size_resize, size, show ((a.logSize : Int) + 1).toNat = a.logSize + 1 by omega, pow_succ]
  omega

theorem size_shrink (b t : Int) (h : 2 ≤ a.size) : 2 * (a.resize b t (-1)).size = a.size := by
  have hlog : a.logSize ≠ 0 := by
    intro heq
    rw [size, heq] at h
    omega
  rw [size_resize, size, show ((a.logSize : Int) + -1).toNat = a.logSize - 1 by omega, ← pow_succ',
    show a.logSize - 1 + 1 = a.logSize by omega]

end Buffer

/-! ## The tests of `push_bottom` and `pop_bottom` -/

/-- `size >= a->size() - 1` -/
def grows {T : Type} (a : Buffer T) (size : Int) : Bool := (a.size : Int) - 1 ≤ toUnsigned size

/-- `size <= a->size() / 3 && size > 1 << log_initial_size` -/
def shrinks {T : Type} (logInitialSize : Nat) (a : Buffer T) (size : Int) : Bool :=
  toUnsigned size ≤ (a.size / 3 : Nat) && oneShiftLeft logInitialSize < size

/-! ## Calls one at a time -/

structure Deque (T : Type) where
  top : Int
  bottom : Int
  logInitialSize : Nat
  buffer : Buffer T

namespace Deque

variable {T : Type} [Inhabited T]

def new (logReserveSize : Nat) : Deque T where
  top := 0
  bottom := 0
  logInitialSize := logReserveSize
  buffer := .new logReserveSize 0

def pushBottom (d : Deque T) (object : T) : Deque T :=
  let b := d.bottom
  let t := d.top
  let a := if grows d.buffer (b - t) then d.buffer.resize b t 1 else d.buffer
  { d with buffer := a.put b object, bottom := b + 1 }

def popBottom (d : Deque T) : Deque T × Option T :=
  let b := d.bottom
  let a := d.buffer
  let t := d.top
  let size := b - t
  if size ≤ 0 then (d, none)
  else if size = 1 then ({ d with top := t + 1 }, some (a.get t))
  else
    let out := a.get (b - 1)
    let a := if shrinks d.logInitialSize a size then a.resize b t (-1) else a
    ({ d with bottom := b - 1, buffer := a }, some out)

def steal (d : Deque T) : Deque T × Option T :=
  let t := d.top
  let size := toInt (d.bottom - t)
  if 0 < size then ({ d with top := t + 1 }, some (d.buffer.get t)) else (d, none)

end Deque

/-! ## The list it stands for -/

inductive Call (T : Type) where
  | push (object : T)
  | pop
  | steal

def Deque.call {T : Type} [Inhabited T] (d : Deque T) : Call T → Deque T × Option T
  | .push object => (d.pushBottom object, none)
  | .pop => d.popBottom
  | .steal => d.steal

/-- The calls on a list: its end is the bottom. -/
def listCall {T : Type} (l : List T) : Call T → List T × Option T
  | .push object => (l ++ [object], none)
  | .pop => (l.dropLast, l.getLast?)
  | .steal => (l.tail, l.head?)

namespace Deque

variable {T : Type}

/-- The buffer holds `l` at the logical indices from `top` to `bottom`, and is
larger than that and no smaller than it was at first. -/
structure Represents (log : Nat) (d : Deque T) (l : List T) : Prop where
  initial : d.logInitialSize = log
  length : d.bottom - d.top = l.length
  lt_size : l.length < d.buffer.size
  initial_le : 2 ^ log ≤ d.buffer.size
  element : ∀ (k : Nat) x, l[k]? = some x → d.buffer.get (d.top + k) = x

/-- What is left when the newest element is taken. -/
theorem Represents.dropLast {log : Nat} {d : Deque T} {l : List T}
    (h : Represents log d l) {a : Buffer T} (hl : l ≠ []) (hsize : l.length ≤ a.size) (hinitial : 2 ^ log ≤ a.size)
    (hget : ∀ i, d.top ≤ i → i < d.bottom → a.get i = d.buffer.get i) :
    Represents log { d with bottom := d.bottom - 1, buffer := a } l.dropLast := by
  have hlen := h.length
  have hpos := List.length_pos_iff.2 hl
  refine ⟨h.initial, ?_, ?_, hinitial, fun k x hx => ?_⟩
  · simp only [List.length_dropLast]
    omega
  · simp only [List.length_dropLast]
    omega
  · rw [List.getElem?_dropLast] at hx
    split at hx
    · show a.get (d.top + k) = x
      rw [hget _ (by omega) (by omega)]
      exact h.element k x hx
    · cases hx

/-- What is left when the oldest element is taken. -/
theorem Represents.tail {log : Nat} {d : Deque T} {l : List T} (h : Represents log d l)
    (hl : l ≠ []) : Represents log { d with top := d.top + 1 } l.tail := by
  have hlen := h.length
  have hlt := h.lt_size
  have hpos := List.length_pos_iff.2 hl
  refine ⟨h.initial, ?_, ?_, h.initial_le, fun k x hx => ?_⟩
  · simp only [List.length_tail]
    omega
  · simp only [List.length_tail]
    omega
  · rw [List.getElem?_tail] at hx
    have := h.element (k + 1) x hx
    rwa [show d.top + ((k + 1 : Nat) : Int) = d.top + 1 + k by omega] at this

variable [Inhabited T]

/-- Every call answers as it does on the list, and leaves the deque to represent
what it leaves of the list. -/
def Refines (log : Nat) : Deque T → List T → List (Call T) → Prop
  | _, _, [] => True
  | d, l, c :: cs =>
      (d.call c).2 = (listCall l c).2 ∧ Represents log (d.call c).1 (listCall l c).1 ∧
        Refines log (d.call c).1 (listCall l c).1 cs

/-- `steal` sees the sign of the number of elements in 32 bits, and `pop_bottom`
finds no reason to shrink the first buffer. -/
def Fits (log : Nat) (d : Deque T) : Call T → Prop
  | .push _ => True
  | .pop => log ≤ 30 ∨ d.buffer.size ≠ 2 ^ log ∨ d.bottom - d.top ≤ 1 ∨
      ((2 ^ log / 3 : Nat) : Int) < d.bottom - d.top
  | .steal => d.bottom - d.top = 0 ∨ 0 < toInt (d.bottom - d.top)

/-- Every call is made in a state it fits. -/
def AllFit (log : Nat) : Deque T → List (Call T) → Prop
  | _, [] => True
  | d, c :: cs => Fits log d c ∧ AllFit log (d.call c).1 cs

section Calls

variable {log : Nat} {d : Deque T} {l : List T}

theorem Represents.new (log : Nat) : Represents log (Deque.new log : Deque T) [] where
  initial := rfl
  length := rfl
  lt_size := Buffer.size_pos _
  initial_le := Nat.le_refl _
  element k x hx := by simp at hx

theorem Represents.push (h : Represents log d l) (x : T) :
    Represents log (d.pushBottom x) (l ++ [x]) := by
  have hlen := h.length
  have hlt := h.lt_size
  have hinitial := h.initial_le
  -- the buffer that takes the new element holds the old ones
  obtain ⟨a, ha, hsize, hle, hget⟩ : ∃ a : Buffer T, d.pushBottom x =
      { d with buffer := a.put d.bottom x, bottom := d.bottom + 1 } ∧ l.length + 1 < a.size ∧
        2 ^ log ≤ a.size ∧ ∀ i, d.top ≤ i → i < d.bottom → a.get i = d.buffer.get i := by
    refine ⟨_, rfl, ?_⟩
    split
    · have hgrow := d.buffer.size_grow d.bottom d.top
      refine ⟨by omega, by omega, fun i hi hi' => ?_⟩
      exact Buffer.get_resize _ (by omega) hi hi'
    · rename_i hfit
      simp only [grows, toUnsigned_of_nonneg (show 0 ≤ d.bottom - d.top by omega),
        decide_eq_true_eq] at hfit
      exact ⟨by omega, hinitial, fun _ _ _ => rfl⟩
  rw [ha]
  refine ⟨h.initial, ?_, ?_, hle, fun k y hy => ?_⟩
  · simp only [List.length_append, List.length_singleton]
    omega
  · simpa using hsize
  · show (a.put d.bottom x).get (d.top + k) = y
    rcases Nat.lt_or_ge k l.length with hlt | hge
    · rw [List.getElem?_append_left hlt] at hy
      rw [Buffer.get_put_of_lap (d := d.top) _ _ (by omega) (by omega) (by omega) (by omega) (by omega),
        hget _ (by omega) (by omega)]
      exact h.element k y hy
    · rw [List.getElem?_append_right hge] at hy
      obtain ⟨hk, hx⟩ : k = l.length ∧ x = y := by
        cases hj : k - l.length with
        | zero =>
            rw [hj] at hy
            exact ⟨by omega, Option.some.inj hy⟩
        | succ j =>
            rw [hj] at hy
            simp at hy
      rw [hk, ← hlen, show d.top + (d.bottom - d.top) = d.bottom by omega, Buffer.get_put_self, hx]

/-- The sizes when a pop shrinks the buffer. -/
theorem shrink_bounds (h : Represents log d l) (hs : shrinks d.logInitialSize d.buffer l.length = true)
    (h2 : 2 ≤ l.length) :
    l.length ≤ (d.buffer.resize d.bottom d.top (-1)).size ∧
      2 * (d.buffer.resize d.bottom d.top (-1)).size = d.buffer.size ∧
      oneShiftLeft log < l.length ∧ 3 * l.length ≤ d.buffer.size := by
  have hlt := h.lt_size
  have hhalf := d.buffer.size_shrink d.bottom d.top (by omega)
  simp only [shrinks, Bool.and_eq_true, decide_eq_true_eq, h.initial,
    toUnsigned_of_nonneg (show (0 : Int) ≤ l.length by omega)] at hs
  have hthird : l.length ≤ d.buffer.size / 3 := by omega
  exact ⟨by omega, hhalf, hs.2, by omega⟩

theorem Represents.pop (h : Represents log d l) (hfits : Fits log d .pop) :
    d.popBottom.2 = l.getLast? ∧ Represents log d.popBottom.1 l.dropLast := by
  have hlen := h.length
  have hlt := h.lt_size
  have hinitial := h.initial_le
  simp only [popBottom]
  split
  · obtain rfl : l = [] := List.length_eq_zero_iff.1 (by omega)
    exact ⟨rfl, h⟩
  · split
    · -- one element, which thieves may want as well
      obtain ⟨x, rfl⟩ := List.length_eq_one_iff.1 (show l.length = 1 by omega)
      refine ⟨?_, h.tail (by simp)⟩
      have := h.element 0 x rfl
      rw [Int.natCast_zero, Int.add_zero] at this
      rw [this]
      rfl
    · have hne : l ≠ [] := List.length_pos_iff.1 (by omega)
      refine ⟨?_, ?_⟩
      · rw [List.getLast?_eq_getElem?, List.getElem?_eq_getElem (by omega)]
        have := h.element (l.length - 1) _ (List.getElem?_eq_getElem (by omega))
        rwa [show d.top + ((l.length - 1 : Nat) : Int) = d.bottom - 1 by omega, ← Option.some_inj] at this
      · split
        · rename_i hs
          rw [hlen] at hs
          obtain ⟨hle, hhalf, hshift, hthird⟩ := shrink_bounds h hs (by omega)
          refine h.dropLast hne hle ?_ fun i hi hi' => Buffer.get_resize _ (by omega) hi hi'
          rcases Nat.lt_or_ge log 31 with hlog | hlog
          · rw [oneShiftLeft_of_le (by omega)] at hshift
            omega
          · -- the buffer is not the first one, so it is twice as large at least
            have hne : d.buffer.size ≠ 2 ^ log := by
              intro heq
              rcases hfits with hle | hsize | hone | hmany
              · omega
              · exact hsize heq
              · omega
              · rw [← heq] at hmany
                omega
            have hlt' : log < d.buffer.logSize :=
              (Nat.pow_lt_pow_iff_right (by decide : 1 < 2)).1 (lt_of_le_of_ne hinitial hne.symm)
            have hpow : 2 ^ (log + 1) ≤ d.buffer.size := Nat.pow_le_pow_right (by decide) hlt'
            rw [pow_succ] at hpow
            omega
        · exact h.dropLast hne (by omega) hinitial fun _ _ _ => rfl

omit [Inhabited T] in
theorem Represents.steal (h : Represents log d l) (hfits : Fits log d .steal) :
    d.steal.2 = l.head? ∧ Represents log d.steal.1 l.tail := by
  have hlen := h.length
  simp only [Deque.steal]
  rcases l with _ | ⟨x, l⟩
  · rw [if_neg (by simp [hlen, toInt])]
    exact ⟨rfl, h⟩
  · have hsign : 0 < toInt (d.bottom - d.top) := by
      rcases hfits with hzero | hpos
      · simp only [List.length_cons] at hlen
        omega
      · exact hpos
    rw [if_pos hsign]
    have := h.element 0 x rfl
    rw [Int.natCast_zero, Int.add_zero] at this
    exact ⟨by rw [this]; rfl, h.tail (by simp)⟩

theorem Represents.call (h : Represents log d l) {c : Call T} (hfits : Fits log d c) :
    (d.call c).2 = (listCall l c).2 ∧ Represents log (d.call c).1 (listCall l c).1 := by
  cases c with
  | push x => exact ⟨rfl, h.push x⟩
  | pop => exact h.pop hfits
  | steal => exact h.steal hfits

/-- A call that does not fit fails on a deque with elements, or leaves a buffer
that is too small. -/
theorem Represents.fits (h : Represents log d l) {c : Call T} (ha : (d.call c).2 = (listCall l c).2)
    (hr : Represents log (d.call c).1 (listCall l c).1) : Fits log d c := by
  have hlen := h.length
  cases c with
  | push x => trivial
  | pop =>
      by_contra hfits
      simp only [Fits, not_or, not_le, ne_eq, not_not, not_lt] at hfits
      obtain ⟨hlog, hsize, hone, hmany⟩ := hfits
      have hs : shrinks d.logInitialSize d.buffer (d.bottom - d.top) = true := by
        have hshift := oneShiftLeft_of_ge (show 31 ≤ log by omega)
        simp only [shrinks, Bool.and_eq_true, decide_eq_true_eq, h.initial, hsize,
          toUnsigned_of_nonneg (show 0 ≤ d.bottom - d.top by omega)]
        exact ⟨hmany, by omega⟩
      have hhalf := d.buffer.size_shrink d.bottom d.top (by
        have := h.lt_size
        omega)
      have hsmall := hr.initial_le
      simp only [Deque.call, popBottom, if_neg (show ¬ d.bottom - d.top ≤ 0 by omega),
        if_neg (show ¬ d.bottom - d.top = 1 by omega), if_pos hs] at hsmall
      have := Nat.two_pow_pos log
      omega
  | steal =>
      by_contra hfits
      simp only [Fits, not_or] at hfits
      obtain ⟨hne, hsign⟩ := hfits
      simp only [Deque.call, Deque.steal, if_neg hsign, listCall] at ha
      rcases l with _ | ⟨x, l⟩
      · exact hne hlen
      · cases ha

/-- The deque behaves as the list exactly when all its calls fit. -/
theorem Represents.calls_iff (h : Represents log d l) (cs : List (Call T)) :
    Refines log d l cs ↔ AllFit log d cs := by
  induction cs generalizing d l with
  | nil => exact ⟨fun _ => trivial, fun _ => trivial⟩
  | cons c cs ih =>
      constructor
      · rintro ⟨ha, hr, hcs⟩
        exact ⟨h.fits ha hr, (ih hr).1 hcs⟩
      · rintro ⟨hfits, hcs⟩
        obtain ⟨ha, hr⟩ := h.call hfits
        exact ⟨ha, hr, (ih hr).2 hcs⟩

end Calls

/-- The deque refines a list exactly on the sequences of calls that all fit. -/
theorem refines_iff (log : Nat) (cs : List (Call T)) :
    Refines log (.new log) [] cs ↔ AllFit log (.new log : Deque T) cs :=
  (Represents.new log).calls_iff cs

theorem Represents.pushes_fit {log : Nat} {d : Deque T} {l : List T} (h : Represents log d l)
    {x : T} {n : Nat} (hfit : AllFit log d (List.replicate n (.push x) ++ [.steal])) :
    Fits log { d with bottom := d.bottom + n } (.steal : Call T) := by
  induction n generalizing d l with
  | zero => simpa using hfit.1
  | succ n ih =>
      have hnext := ih (h.push x) hfit.2
      simp only [Fits, pushBottom] at hnext ⊢
      rwa [show d.bottom + 1 + (n : Int) = d.bottom + ((n + 1 : Nat) : Int) by omega] at hnext

/-- With `2 ^ 31` elements the difference does not fit an `int`. -/
theorem not_refines :
    ¬ ∀ (log : Nat) (cs : List (Call Nat)), Refines log (.new log) [] cs := by
  intro h
  have hfit := (refines_iff 0 _).1 (h 0 (List.replicate (2 ^ 31) (.push 7) ++ [.steal]))
  rcases (Represents.new 0).pushes_fit hfit with hzero | hsign
  · exact absurd hzero (by decide)
  · exact absurd hsign (by decide)

end Deque

end TaskDispatcher.Container.Spmc
