import Mathlib.Algebra.Order.Floor.Div
import Mathlib.Data.List.Basic

/-!
# `submit_batched` and `submit_batched_n`

The ranges that `td.hh` hands to the tasks of a batched submission.  `unsigned`
is `UInt32`, and `intDivCeil` stands for `cc::int_div_ceil`.
-/

namespace TaskDispatcher.Submit

variable {A : Type}

/-- What is relied on of `cc::int_div_ceil`. -/
def DividesUp (intDivCeil : UInt32 → UInt32 → UInt32) : Prop :=
  ∀ a b, 0 < a → 0 < b → (intDivCeil a b).toNat = a.toNat ⌈/⌉ b.toNat

theorem toNat_succ {batch numBatches : UInt32} (h : batch < numBatches) :
    (batch + 1).toNat = batch.toNat + 1 := by
  have hlt := UInt32.lt_iff_toNat_lt.1 h
  have hmax := numBatches.toNat_lt
  rw [UInt32.toNat_add, UInt32.toNat_one, Nat.mod_eq_of_lt (by omega)]

/-- The loop over the batches. -/
def batchLoop (batchSize numBatches n : UInt32) (task : UInt32 → UInt32 → UInt32 → A)
    (batch start finish : UInt32) : List A :=
  if batch < numBatches then
    task start finish batch ::
      batchLoop batchSize numBatches n task (batch + 1) ((batch + 1) * batchSize)
        (min ((batch + 1 + 1) * batchSize) n)
  else []
termination_by numBatches.toNat - batch.toNat
decreasing_by
  rename_i h
  have hlt := UInt32.lt_iff_toNat_lt.1 h
  rw [toNat_succ h]
  omega

/-- The tasks of a batched submission, `none` where its assertion fires. -/
def batchedTasks (intDivCeil : UInt32 → UInt32 → UInt32) (n numBatchesMax : UInt32)
    (task : UInt32 → UInt32 → UInt32 → A) : Option (List A) :=
  let batchSize := intDivCeil n numBatchesMax
  let numBatches := intDivCeil n batchSize
  if numBatches ≤ numBatchesMax then
    some (batchLoop batchSize numBatches n task 0 0 (min batchSize n))
  else none

/-- `submit_batched`: the arguments `start` and `end` of each task. -/
def submitBatched (intDivCeil : UInt32 → UInt32 → UInt32) (n numBatchesMax : UInt32) :
    Option (List (UInt32 × UInt32)) :=
  batchedTasks intDivCeil n numBatchesMax fun start finish _ => (start, finish)

/-- `submit_batched_n`: the arguments `start`, `end` and `batch_i` of each task. -/
def submitBatchedN (intDivCeil : UInt32 → UInt32 → UInt32) (n numBatchesMax : UInt32) :
    Option (List (UInt32 × UInt32 × UInt32)) :=
  batchedTasks intDivCeil n numBatchesMax fun start finish batch => (start, finish, batch)

/-! ## The tasks in closed form -/

/-- The task of batch `i`. -/
def batchTask (batchSize n : UInt32) (task : UInt32 → UInt32 → UInt32 → A) (i : Nat) : A :=
  task (UInt32.ofNat i * batchSize) (min ((UInt32.ofNat i + 1) * batchSize) n) (UInt32.ofNat i)

theorem batchLoop_eq (batchSize numBatches n : UInt32) (task : UInt32 → UInt32 → UInt32 → A)
    (batch : UInt32) :
    batchLoop batchSize numBatches n task batch (batch * batchSize)
        (min ((batch + 1) * batchSize) n) =
      (List.range' batch.toNat (numBatches.toNat - batch.toNat)).map
        (batchTask batchSize n task) := by
  induction hd : numBatches.toNat - batch.toNat generalizing batch with
  | zero =>
      have hge : ¬ batch < numBatches := by
        rw [UInt32.lt_iff_toNat_lt]
        omega
      rw [batchLoop, if_neg hge]
      rfl
  | succ d ih =>
      have hlt : batch < numBatches := UInt32.lt_iff_toNat_lt.2 (by omega)
      have hsucc := toNat_succ hlt
      rw [batchLoop, if_pos hlt, ih (batch + 1) (by omega), List.range'_succ, List.map_cons, hsucc,
        batchTask, UInt32.ofNat_toNat]

theorem batchedTasks_eq (intDivCeil : UInt32 → UInt32 → UInt32) (n numBatchesMax : UInt32)
    (task : UInt32 → UInt32 → UInt32 → A)
    (hle : intDivCeil n (intDivCeil n numBatchesMax) ≤ numBatchesMax) :
    batchedTasks intDivCeil n numBatchesMax task =
      some ((List.range (intDivCeil n (intDivCeil n numBatchesMax)).toNat).map
        (batchTask (intDivCeil n numBatchesMax) n task)) := by
  have hloop := batchLoop_eq (intDivCeil n numBatchesMax)
    (intDivCeil n (intDivCeil n numBatchesMax)) n task 0
  rw [UInt32.zero_mul, UInt32.zero_add, UInt32.one_mul, UInt32.toNat_zero, Nat.sub_zero,
    ← List.range_eq_range'] at hloop
  simp only [batchedTasks]
  rw [if_pos hle, hloop]

/-! ## The ranges -/

/-- The ranges are non-empty and consecutive, and they partition `[0, n)`. -/
structure Partitions (n : UInt32) (ranges : List (UInt32 × UInt32)) : Prop where
  first : ∃ p, ranges[0]? = some p ∧ p.1 = 0
  next : ∀ i p q, ranges[i]? = some p → ranges[i + 1]? = some q → p.2 = q.1
  nonempty : ∀ p ∈ ranges, p.1 < p.2
  last : ∃ p, ranges.getLast? = some p ∧ p.2 = n

/-- `n` rounded up to a multiple of the batch size. -/
def roundedUp (n numBatchesMax : Nat) : Nat :=
  n ⌈/⌉ (n ⌈/⌉ numBatchesMax) * (n ⌈/⌉ numBatchesMax)

section Sizes

variable {n m : Nat}

theorem batchSize_pos (hn : 0 < n) (hm : 0 < m) : 0 < n ⌈/⌉ m := by
  rw [Nat.pos_iff_ne_zero]
  intro hzero
  have hle := (ceilDiv_le_iff_le_mul hm).1 (le_of_eq hzero)
  omega

theorem numBatches_le (hn : 0 < n) (hm : 0 < m) : n ⌈/⌉ (n ⌈/⌉ m) ≤ m := by
  rw [ceilDiv_le_iff_le_mul (batchSize_pos hn hm), Nat.mul_comm]
  exact (ceilDiv_le_iff_le_mul hm).1 le_rfl

theorem le_roundedUp (hn : 0 < n) (hm : 0 < m) : n ≤ roundedUp n m := by
  rw [roundedUp, Nat.mul_comm]
  exact (ceilDiv_le_iff_le_mul (batchSize_pos hn hm)).1 le_rfl

/-- Every batch but the last ends inside the range. -/
theorem batch_lt (hn : 0 < n) (hm : 0 < m) {i : Nat} (hi : i < n ⌈/⌉ (n ⌈/⌉ m)) :
    i * (n ⌈/⌉ m) < n := by
  by_contra hge
  have hle : n ⌈/⌉ (n ⌈/⌉ m) ≤ i := by
    rw [ceilDiv_le_iff_le_mul (batchSize_pos hn hm), Nat.mul_comm]
    omega
  omega

theorem batchSize_le (hm : 0 < m) : n ⌈/⌉ m ≤ n := by
  rw [ceilDiv_le_iff_le_mul hm]
  exact Nat.le_mul_of_pos_left n hm

/-- The last product exceeds the range by less than a batch. -/
theorem roundedUp_lt (hn : 0 < n) (hm : 0 < m) : roundedUp n m < n + n ⌈/⌉ m := by
  have hpos := Nat.lt_of_lt_of_le hn (le_roundedUp hn hm)
  obtain ⟨k, hk⟩ : ∃ k, n ⌈/⌉ (n ⌈/⌉ m) = k + 1 := by
    refine Nat.exists_eq_succ_of_ne_zero fun hzero => ?_
    rw [roundedUp, hzero, Nat.zero_mul] at hpos
    omega
  have hlt := batch_lt (i := k) hn hm (by omega)
  rw [roundedUp, hk, Nat.add_mul, Nat.one_mul]
  omega

end Sizes

section Ranges

variable {intDivCeil : UInt32 → UInt32 → UInt32} {n m : UInt32}

/-- The range of batch `i`. -/
def batchRange (intDivCeil : UInt32 → UInt32 → UInt32) (n m : UInt32) (i : Nat) : UInt32 × UInt32 :=
  batchTask (intDivCeil n m) n (fun start finish _ => (start, finish)) i

/-- The sizes the code computes are the mathematical ones. -/
structure Sized (intDivCeil : UInt32 → UInt32 → UInt32) (n m : UInt32) : Prop where
  pos : 0 < n.toNat
  max_pos : 0 < m.toNat
  size : (intDivCeil n m).toNat = n.toNat ⌈/⌉ m.toNat
  num : (intDivCeil n (intDivCeil n m)).toNat = n.toNat ⌈/⌉ (n.toNat ⌈/⌉ m.toNat)

theorem DividesUp.sized (hdiv : DividesUp intDivCeil) (hn : 0 < n) (hm : 0 < m) :
    Sized intDivCeil n m := by
  have hn' := UInt32.lt_iff_toNat_lt.1 hn
  have hm' := UInt32.lt_iff_toNat_lt.1 hm
  have hsize := hdiv n m hn hm
  have hpos : 0 < intDivCeil n m := by
    rw [UInt32.lt_iff_toNat_lt, hsize]
    exact batchSize_pos hn' hm'
  exact ⟨hn', hm', hsize, by rw [hdiv n _ hn hpos, hsize]⟩

namespace Sized

theorem num_le (h : Sized intDivCeil n m) : intDivCeil n (intDivCeil n m) ≤ m := by
  rw [UInt32.le_iff_toNat_le, h.num]
  exact numBatches_le h.pos h.max_pos

theorem start_toNat (h : Sized intDivCeil n m) {i : Nat}
    (hi : i < (intDivCeil n (intDivCeil n m)).toNat) :
    (batchRange intDivCeil n m i).1.toNat = i * (n.toNat ⌈/⌉ m.toNat) := by
  have hlt := batch_lt h.pos h.max_pos (h.num ▸ hi)
  have hmax := n.toNat_lt
  have hi' : i < UInt32.size := hi.trans (UInt32.toNat_lt _)
  show (UInt32.ofNat i * intDivCeil n m).toNat = _
  rw [UInt32.toNat_mul, UInt32.toNat_ofNat_of_lt' hi', h.size, Nat.mod_eq_of_lt (by omega)]

theorem finish_toNat (h : Sized intDivCeil n m) {i : Nat}
    (hi : i < (intDivCeil n (intDivCeil n m)).toNat) :
    (batchRange intDivCeil n m i).2.toNat =
      min ((i + 1) * (n.toNat ⌈/⌉ m.toNat) % 2 ^ 32) n.toNat := by
  have hi' : i < UInt32.size := hi.trans (UInt32.toNat_lt _)
  have hprod : ((UInt32.ofNat i + 1) * intDivCeil n m).toNat =
      (i + 1) * (n.toNat ⌈/⌉ m.toNat) % 2 ^ 32 := by
    rw [UInt32.toNat_mul, UInt32.toNat_add, UInt32.toNat_ofNat_of_lt' hi', h.size,
      UInt32.toNat_one, Nat.mod_mul_mod]
  show (if (UInt32.ofNat i + 1) * intDivCeil n m ≤ n then _ else n).toNat = _
  rw [← hprod]
  split <;> rename_i hle <;> rw [UInt32.le_iff_toNat_le] at hle <;> omega

/-- Where no product wraps, a batch ends at the next multiple of the batch size. -/
theorem finish_eq (h : Sized intDivCeil n m) (hfits : roundedUp n.toNat m.toNat < 2 ^ 32) {i : Nat}
    (hi : i < (intDivCeil n (intDivCeil n m)).toNat) :
    (batchRange intDivCeil n m i).2.toNat =
      min ((i + 1) * (n.toNat ⌈/⌉ m.toNat)) n.toNat := by
  have hle : (i + 1) * (n.toNat ⌈/⌉ m.toNat) ≤ roundedUp n.toNat m.toNat := by
    rw [roundedUp, ← h.num]
    exact Nat.mul_le_mul_right _ hi
  rw [h.finish_toNat hi, Nat.mod_eq_of_lt (by omega)]

theorem ranges_partition (h : Sized intDivCeil n m) (hfits : roundedUp n.toNat m.toNat < 2 ^ 32) :
    Partitions n ((List.range (intDivCeil n (intDivCeil n m)).toNat).map
      (batchRange intDivCeil n m)) := by
  have hnum : 0 < (intDivCeil n (intDivCeil n m)).toNat := by
    rw [h.num]
    exact batchSize_pos h.pos (batchSize_pos h.pos h.max_pos)
  have hget : ∀ {i : Nat} {p : UInt32 × UInt32},
      ((List.range (intDivCeil n (intDivCeil n m)).toNat).map (batchRange intDivCeil n m))[i]? =
        some p → i < (intDivCeil n (intDivCeil n m)).toNat ∧ batchRange intDivCeil n m i = p := by
    intro i p hp
    rw [List.getElem?_map, Option.map_eq_some_iff] at hp
    obtain ⟨j, hj, rfl⟩ := hp
    obtain ⟨hlt, heq⟩ := List.getElem?_eq_some_iff.1 hj
    rw [List.getElem_range] at heq
    rw [List.length_range] at hlt
    exact ⟨hlt, by rw [heq]⟩
  refine ⟨⟨batchRange intDivCeil n m 0, ?_, ?_⟩, ?_, ?_,
    ⟨batchRange intDivCeil n m ((intDivCeil n (intDivCeil n m)).toNat - 1), ?_, ?_⟩⟩
  · rw [List.getElem?_map, List.getElem?_range hnum]
    rfl
  · apply UInt32.toNat_inj.1
    rw [h.start_toNat hnum, Nat.zero_mul, UInt32.toNat_zero]
  · intro i p q hp hq
    obtain ⟨hi, rfl⟩ := hget hp
    obtain ⟨hi', rfl⟩ := hget hq
    apply UInt32.toNat_inj.1
    have hlt := batch_lt h.pos h.max_pos (h.num ▸ hi')
    rw [h.finish_eq hfits hi, h.start_toNat hi', Nat.min_eq_left (Nat.le_of_lt hlt)]
  · intro p hp
    obtain ⟨i, hi, rfl⟩ := List.mem_map.1 hp
    rw [List.mem_range] at hi
    have hlt := batch_lt h.pos h.max_pos (h.num ▸ hi)
    have hsize := batchSize_pos h.pos h.max_pos
    rw [UInt32.lt_iff_toNat_lt, h.start_toNat hi, h.finish_eq hfits hi, Nat.add_mul, Nat.one_mul]
    omega
  · rw [List.getLast?_eq_getElem?, List.length_map, List.length_range, List.getElem?_map,
      List.getElem?_range (by omega)]
    rfl
  · apply UInt32.toNat_inj.1
    have hle := le_roundedUp h.pos h.max_pos
    rw [roundedUp, ← h.num] at hle
    rw [h.finish_eq hfits (by omega), Nat.sub_add_cancel hnum, Nat.min_eq_right hle]

/-- Where the last product wraps, the last range ends too early. -/
theorem roundedUp_fits (h : Sized intDivCeil n m)
    (hp : Partitions n ((List.range (intDivCeil n (intDivCeil n m)).toNat).map
      (batchRange intDivCeil n m))) : roundedUp n.toNat m.toNat < 2 ^ 32 := by
  have hnum : 0 < (intDivCeil n (intDivCeil n m)).toNat := by
    rw [h.num]
    exact batchSize_pos h.pos (batchSize_pos h.pos h.max_pos)
  obtain ⟨p, hlast, hend⟩ := hp.last
  rw [List.getLast?_eq_getElem?, List.length_map, List.length_range, List.getElem?_map,
    List.getElem?_range (by omega)] at hlast
  obtain rfl := Option.some.inj hlast
  have hfinish := h.finish_toNat (i := (intDivCeil n (intDivCeil n m)).toNat - 1) (by omega)
  rw [hend, Nat.sub_add_cancel hnum] at hfinish
  have hprod : (intDivCeil n (intDivCeil n m)).toNat * (n.toNat ⌈/⌉ m.toNat) =
      roundedUp n.toNat m.toNat := by rw [roundedUp, h.num]
  rw [hprod] at hfinish
  have hlt := roundedUp_lt h.pos h.max_pos
  have hsize := batchSize_le (n := n.toNat) h.max_pos
  have hmax := n.toNat_lt
  by_contra hge
  have hwrap : roundedUp n.toNat m.toNat % 2 ^ 32 = roundedUp n.toNat m.toNat - 2 ^ 32 := by
    rw [Nat.mod_eq_sub_mod (by omega), Nat.mod_eq_of_lt (by omega)]
  rw [hwrap] at hfinish
  omega

end Sized

/-- Both submissions hand out the ranges of a partition of `[0, n)` into at most
`num_batches_max` parts, the second with their positions. -/
def CoversOnce (intDivCeil : UInt32 → UInt32 → UInt32) (n numBatchesMax : UInt32) : Prop :=
  ∃ ranges, submitBatched intDivCeil n numBatchesMax = some ranges ∧
    submitBatchedN intDivCeil n numBatchesMax =
      some (ranges.zipIdx.map fun p => (p.1.1, p.1.2, UInt32.ofNat p.2)) ∧
    Partitions n ranges ∧ ranges.length ≤ numBatchesMax.toNat

/-- A batched submission covers its range exactly once when the range, rounded
up to full batches, still fits an `unsigned`. -/
theorem coversOnce_iff (hdiv : DividesUp intDivCeil) (hn : 0 < n) (hm : 0 < m) :
    CoversOnce intDivCeil n m ↔ roundedUp n.toNat m.toNat < 2 ^ 32 := by
  have h := hdiv.sized hn hm
  have hranges : submitBatched intDivCeil n m = some
      ((List.range (intDivCeil n (intDivCeil n m)).toNat).map (batchRange intDivCeil n m)) :=
    batchedTasks_eq intDivCeil n m _ h.num_le
  constructor
  · rintro ⟨ranges, heq, -, hp, -⟩
    rw [hranges] at heq
    obtain rfl := Option.some.inj heq
    exact h.roundedUp_fits hp
  · intro hfits
    refine ⟨_, hranges, ?_, h.ranges_partition hfits, ?_⟩
    · rw [submitBatchedN, batchedTasks_eq intDivCeil n m _ h.num_le, List.zipIdx_map]
      congr 1
      rw [List.map_map]
      apply List.ext_getElem?
      intro i
      rw [List.getElem?_map, List.getElem?_map, List.getElem?_zipIdx]
      rcases Nat.lt_or_ge i (intDivCeil n (intDivCeil n m)).toNat with hi | hi
      · rw [List.getElem?_range hi, Nat.zero_add]
        rfl
      · rw [List.getElem?_eq_none (by rw [List.length_range]; exact hi)]
        rfl
    · rw [List.length_map, List.length_range]
      exact UInt32.le_iff_toNat_le.1 h.num_le

/-- The exact division that rounds up. -/
def ceilDivision (a b : UInt32) : UInt32 := UInt32.ofNat (a.toNat ⌈/⌉ b.toNat)

theorem ceilDivision_dividesUp : DividesUp ceilDivision := by
  intro a b _ hb
  have hle := batchSize_le (n := a.toNat) (UInt32.lt_iff_toNat_lt.1 hb)
  exact UInt32.toNat_ofNat_of_lt' (hle.trans_lt a.toNat_lt)

theorem coversOnce_ten : CoversOnce ceilDivision 10 4 :=
  (coversOnce_iff ceilDivision_dividesUp (by decide) (by decide)).2 (by decide)

/-- Two batches of a range whose second half ends beyond `2 ^ 32`. -/
theorem not_coversOnce :
    ¬ ∀ intDivCeil, DividesUp intDivCeil → ∀ n m : UInt32, 0 < n → 0 < m →
      CoversOnce intDivCeil n m := by
  intro h
  have hcovers := h ceilDivision ceilDivision_dividesUp 4294967295 2 (by decide) (by decide)
  have hsized := ceilDivision_dividesUp.sized (n := 4294967295) (m := 2) (by decide) (by decide)
  obtain ⟨ranges, heq, -, hp, -⟩ := hcovers
  have hranges := batchedTasks_eq ceilDivision 4294967295 2
    (fun start finish _ => (start, finish)) hsized.num_le
  rw [submitBatched, hranges] at heq
  obtain rfl := Option.some.inj heq
  have hfits := hsized.roundedUp_fits hp
  revert hfits
  decide

end Ranges

end TaskDispatcher.Submit
