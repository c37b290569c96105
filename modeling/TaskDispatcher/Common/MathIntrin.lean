import Mathlib.Order.Bounds.Basic
import Mathlib.Tactic.Ring

/-!
# `common/math_intrin.hh`

`bsr` has one body for each compiler.  `uint32_t` and `uint64_t` are `BitVec 32`
and `BitVec 64`, and both overloads of a function are one definition over the
width.
-/

namespace TaskDispatcher.Common

/-- The compiler that the preprocessor selects. -/
inductive Compiler where
  | msvc
  | gnuc
  deriving DecidableEq, Repr

/-- `_BitScanReverse` and `_BitScanReverse64`: the index of the highest set bit. -/
def bitScanReverse {w : Nat} (v : BitVec w) : Nat := v.toNat.log2

/-- `__builtin_clz` and `__builtin_clzll`: the number of leading zeros. -/
def builtinClz {w : Nat} (v : BitVec w) : Nat := v.clz.toNat

/-- `intrin::bsr` -/
def bsr {w : Nat} (cc : Compiler) (v : BitVec w) : BitVec 32 :=
  match cc with
  | .msvc => .ofNat 32 (bitScanReverse v)
  | .gnuc => .ofNat 32 (w - builtinClz v)

/-- `math::clog2` -/
def clog2 {w : Nat} (cc : Compiler) (x : BitVec w) : BitVec w :=
  (bsr cc ((x <<< 1) - 1)).setWidth w

/-- `math::upperpow2`.  The language leaves open a shift by `w` or more. -/
def upperpow2 {w : Nat} (cc : Compiler) (x : BitVec w) : BitVec w :=
  (2 : BitVec w) <<< clog2 cc x

section Bits

variable {w : Nat} {v : BitVec w}

theorem toNat_ne_zero (hv : v ≠ 0) : v.toNat ≠ 0 := by
  intro h
  exact hv (BitVec.eq_of_toNat_eq h)

theorem pos_of_ne_zero (hv : v ≠ 0) : 0 < w := by
  apply Nat.pos_of_ne_zero
  rintro rfl
  exact hv (BitVec.eq_nil v)

theorem bitScanReverse_lt (hv : v ≠ 0) : bitScanReverse v < w := by
  unfold bitScanReverse
  exact (Nat.log2_lt (toNat_ne_zero hv)).2 v.isLt

/-- The bit found is set, and none above it is. -/
theorem bitScanReverse_highest (hv : v ≠ 0) :
    v.getLsbD (bitScanReverse v) = true ∧ ∀ i, bitScanReverse v < i → v.getLsbD i = false := by
  have hne := toNat_ne_zero hv
  constructor
  · have hge := Nat.log2_self_le hne
    have hlt := Nat.lt_log2_self (n := v.toNat)
    have hquot : v.toNat / 2 ^ v.toNat.log2 = 1 := by
      apply Nat.div_eq_of_lt_le
      · omega
      · rw [pow_succ] at hlt
        omega
    unfold bitScanReverse BitVec.getLsbD
    rw [Nat.testBit_eq_decide_div_mod_eq, hquot]
    rfl
  · intro i hi
    unfold BitVec.getLsbD
    apply Nat.testBit_lt_two_pow
    exact (Nat.log2_lt hne).1 hi

/-- The bits of a number are its leading zeros, the highest bit and those below. -/
theorem builtinClz_add (hv : v ≠ 0) : builtinClz v + (bitScanReverse v + 1) = w := by
  have hne := toNat_ne_zero hv
  have hw := pos_of_ne_zero hv
  have hupper : bitScanReverse v < w - builtinClz v :=
    (Nat.log2_lt hne).2 BitVec.toNat_lt_two_pow_sub_clz
  have hlower : w - 1 - builtinClz v ≤ bitScanReverse v :=
    (Nat.le_log2 hne).2 (BitVec.two_pow_sub_clz_le_toNat_of_ne_zero hw hv)
  omega

/-- The two bodies of `bsr` differ by one. -/
theorem bsr_gnuc (hw : w < 2 ^ 32) (hv : v ≠ 0) :
    (bsr .gnuc v).toNat = (bsr .msvc v).toNat + 1 := by
  have hsum := builtinClz_add hv
  have hgnuc : (bsr .gnuc v).toNat = w - builtinClz v := by
    unfold bsr
    rw [BitVec.toNat_ofNat, Nat.mod_eq_of_lt (by omega)]
  have hmsvc : (bsr .msvc v).toNat = bitScanReverse v := by
    unfold bsr
    rw [BitVec.toNat_ofNat, Nat.mod_eq_of_lt (by omega)]
  rw [hgnuc, hmsvc]
  omega

end Bits

/-! ## The ceiling logarithm -/

/-- The highest bit of `2 * n - 1` is the ceiling logarithm of `n`. -/
theorem log2_isLeast {n : Nat} (hn : 1 ≤ n) : IsLeast {k | n ≤ 2 ^ k} (2 * n - 1).log2 := by
  have hiff : ∀ k, n ≤ 2 ^ k ↔ (2 * n - 1).log2 ≤ k := by
    intro k
    have hlog : (2 * n - 1).log2 < k + 1 ↔ 2 * n - 1 < 2 ^ (k + 1) := Nat.log2_lt (by omega)
    rw [pow_succ] at hlog
    omega
  constructor
  · exact (hiff _).2 (le_refl _)
  · intro k hk
    exact (hiff k).1 hk

section Range

variable {w : Nat} {x : BitVec w}

/-- The shift and the decrement wrap together. -/
theorem toNat_double_pred (hx : 1 ≤ x.toNat) (hx' : x.toNat ≤ 2 ^ (w - 1)) :
    ((x <<< 1) - 1).toNat = 2 * x.toNat - 1 := by
  have hlt := x.isLt
  cases w with
  | zero =>
      rw [Nat.pow_zero] at hlt
      omega
  | succ w =>
      have hone : (1 : BitVec (w + 1)).toNat = 1 := by
        show 1 % 2 ^ (w + 1) = 1
        apply Nat.mod_eq_of_lt
        rw [pow_succ]
        have := Nat.two_pow_pos w
        omega
      have hshift : (x <<< 1).toNat = 2 * x.toNat % 2 ^ (w + 1) := by
        rw [BitVec.toNat_shiftLeft, Nat.shiftLeft_eq, pow_one, Nat.mul_comm]
      have hpow : 2 ^ (w + 1) = 2 * 2 ^ w := by ring
      replace hx' : x.toNat ≤ 2 ^ w := hx'
      rw [BitVec.toNat_sub, hshift, hone]
      rcases Nat.lt_or_eq_of_le hx' with hsmall | htop
      · rw [Nat.mod_eq_of_lt (show 2 * x.toNat < 2 ^ (w + 1) by omega),
          show 2 ^ (w + 1) - 1 + 2 * x.toNat = 2 * x.toNat - 1 + 2 ^ (w + 1) by omega,
          Nat.add_mod_right, Nat.mod_eq_of_lt (by omega)]
      · rw [htop, ← hpow, Nat.mod_self, Nat.add_zero]
        exact Nat.mod_eq_of_lt (by omega)

theorem double_pred_ne_zero (hx : 1 ≤ x.toNat) (hx' : x.toNat ≤ 2 ^ (w - 1)) :
    (x <<< 1) - 1 ≠ 0 := by
  intro h
  have hval := toNat_double_pred hx hx'
  rw [h] at hval
  replace hval : 0 % 2 ^ w = 2 * x.toNat - 1 := hval
  rw [Nat.zero_mod] at hval
  omega

/-- Under MSVC, `clog2` is the ceiling logarithm. -/
theorem clog2_msvc (hw : w < 2 ^ 32) (hx : 1 ≤ x.toNat) (hx' : x.toNat ≤ 2 ^ (w - 1)) :
    IsLeast {k | x.toNat ≤ 2 ^ k} (clog2 .msvc x).toNat := by
  have hlt := bitScanReverse_lt (double_pred_ne_zero hx hx')
  have hself := Nat.lt_two_pow_self (n := w)
  have hval : (clog2 .msvc x).toNat = (2 * x.toNat - 1).log2 := by
    unfold clog2 bsr
    rw [BitVec.toNat_setWidth, BitVec.toNat_ofNat, Nat.mod_eq_of_lt (by omega),
      Nat.mod_eq_of_lt (by omega)]
    unfold bitScanReverse
    rw [toNat_double_pred hx hx']
  rw [hval]
  exact log2_isLeast hx

/-- Under GNUC it is one more. -/
theorem clog2_gnuc (hw : w < 2 ^ 32) (hx : 1 ≤ x.toNat) (hx' : x.toNat ≤ 2 ^ (w - 1)) :
    (clog2 .gnuc x).toNat = (clog2 .msvc x).toNat + 1 := by
  have hne := double_pred_ne_zero hx hx'
  have hlt := bitScanReverse_lt hne
  have hself := Nat.lt_two_pow_self (n := w)
  have hbsr := bsr_gnuc hw hne
  have hmsvc : (bsr .msvc ((x <<< 1) - 1)).toNat = bitScanReverse ((x <<< 1) - 1) := by
    unfold bsr
    rw [BitVec.toNat_ofNat, Nat.mod_eq_of_lt (by omega)]
  unfold clog2
  rw [BitVec.toNat_setWidth, BitVec.toNat_setWidth, hbsr, hmsvc, Nat.mod_eq_of_lt (by omega),
    Nat.mod_eq_of_lt (by omega)]

/-- `upperpow2` is twice the power that `clog2` stands for, where that is representable. -/
theorem toNat_upperpow2 {cc : Compiler} (hfits : 2 * 2 ^ (clog2 cc x).toNat < 2 ^ w) :
    (upperpow2 cc x).toNat = 2 * 2 ^ (clog2 cc x).toNat := by
  have hone := Nat.one_le_two_pow (n := (clog2 cc x).toNat)
  have htwo : (2 : BitVec w).toNat = 2 := by
    show 2 % 2 ^ w = 2
    apply Nat.mod_eq_of_lt
    omega
  unfold upperpow2
  rw [BitVec.shiftLeft_eq', BitVec.toNat_shiftLeft, htwo, Nat.shiftLeft_eq]
  exact Nat.mod_eq_of_lt hfits

/-- The power under GNUC is twice that under MSVC. -/
theorem upperpow2_gnuc (hw : w < 2 ^ 32) (hx : 1 ≤ x.toNat) (hx' : x.toNat ≤ 2 ^ (w - 1))
    (hfits : 2 * 2 ^ (clog2 .gnuc x).toNat < 2 ^ w) :
    (upperpow2 .gnuc x).toNat = 2 * (upperpow2 .msvc x).toNat := by
  have hsucc := clog2_gnuc hw hx hx'
  have hpow : 2 * 2 ^ (clog2 .gnuc x).toNat = 2 * (2 * 2 ^ (clog2 .msvc x).toNat) := by
    rw [hsucc]
    ring
  rw [toNat_upperpow2 hfits, toNat_upperpow2 (by omega), hpow]

end Range

/-- The logarithms are those of `x` on both compilers, and so is the power above. -/
structure CeilingLog {w : Nat} (x : BitVec w) : Prop where
  bsr : bsr .msvc ((x <<< 1) - 1) = bsr .gnuc ((x <<< 1) - 1)
  clog2 : ∀ cc, IsLeast {k | x.toNat ≤ 2 ^ k} (clog2 cc x).toNat
  upperpow2 : (∀ cc, 2 * 2 ^ (Common.clog2 cc x).toNat < 2 ^ w) →
    upperpow2 .msvc x = upperpow2 .gnuc x ∧ ∃ k, (upperpow2 .msvc x).toNat = 2 ^ k

/-- The compilers disagree on every argument. -/
theorem ceilingLog_never {w : Nat} (hw : w = 32 ∨ w = 64) (x : BitVec w) (hx : 1 ≤ x.toNat)
    (hx' : x.toNat ≤ 2 ^ (w - 1)) : ¬ CeilingLog x := by
  intro h
  have hlt : w < 2 ^ 32 := by omega
  have hsucc := bsr_gnuc hlt (double_pred_ne_zero hx hx')
  rw [h.bsr] at hsucc
  omega

theorem ceilingLog_never_one : ¬ CeilingLog (1#64) :=
  ceilingLog_never (Or.inr rfl) 1#64 (by decide) (by decide)

/-- At `1` the highest bit has index `0`, and GNUC reports `1`. -/
theorem not_ceilingLog : ¬ ∀ (w : Nat), w = 32 ∨ w = 64 → ∀ x : BitVec w, 1 ≤ x.toNat →
    x.toNat ≤ 2 ^ (w - 1) → CeilingLog x := by
  intro h
  have hone := (h 32 (Or.inl rfl) 1#32 (by decide) (by decide)).bsr
  revert hone
  decide

end TaskDispatcher.Common
