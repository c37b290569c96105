import Mathlib.Data.Nat.ModEq

/-!
# Positions in a ring

Absolute positions name the cells of a ring of `n` cells through their residue.
Within one lap a residue names one position, and neighbours never share a cell
once the ring has two of them.
-/

namespace TaskDispatcher.Library.Ring

theorem succ_mod_ne {n : Nat} (hn : 2 ≤ n) (p : Nat) : (p + 1) % n ≠ p % n := by
  intro h
  have hmod : p + 1 ≡ p + 0 [MOD n] := h
  have h1 : 1 ≡ 0 [MOD n] := Nat.ModEq.add_left_cancel' p hmod
  have h2 : 1 % n = 0 % n := h1
  rw [Nat.mod_eq_of_lt (by omega), Nat.zero_mod] at h2
  omega

/-- A position is determined by its residue within one lap. -/
theorem eq_of_mod_eq {n d p r : Nat} (hp : d ≤ p) (hpd : p < d + n) (hr : d ≤ r) (hrd : r < d + n)
    (h : p % n = r % n) : p = r := by
  rcases Nat.le_total p r with hle | hle
  · have := (Nat.modEq_iff_dvd' hle).1 h
    have := Nat.eq_zero_of_dvd_of_lt this (by omega)
    omega
  · have := (Nat.modEq_iff_dvd' hle).1 h.symm
    have := Nat.eq_zero_of_dvd_of_lt this (by omega)
    omega

/-- Every cell has a position in the lap that starts at `d`. -/
theorem exists_mod_eq {n : Nat} (hn : 0 < n) (d p : Nat) :
    ∃ r, d ≤ r ∧ r < d + n ∧ r % n = p % n := by
  refine ⟨d + (p + n * d - d) % n, by omega, ?_, ?_⟩
  · have := Nat.mod_lt (p + n * d - d) hn
    omega
  · have hd : d ≤ n * d := Nat.le_mul_of_pos_left d hn
    calc (d + (p + n * d - d) % n) % n
        = (d + (p + n * d - d)) % n := by rw [Nat.add_mod, Nat.mod_mod, ← Nat.add_mod]
      _ = (p + n * d) % n := by rw [show d + (p + n * d - d) = p + n * d by omega]
      _ = p % n := Nat.add_mul_mod_self_left p n d

/-- The same for positions that may be negative. -/
theorem eq_of_emod_eq {n : Nat} {d p r : Int} (hp : d ≤ p) (hpd : p < d + n) (hr : d ≤ r)
    (hrd : r < d + n) (h : p % n = r % n) : p = r := by
  have hdvd : (n : Int) ∣ p - r := Int.dvd_of_emod_eq_zero (Int.emod_eq_emod_iff_emod_sub_eq_zero.1 h)
  have hzero : p - r = 0 := Int.eq_zero_of_abs_lt_dvd hdvd (abs_lt.2 ⟨by omega, by omega⟩)
  omega

theorem add_self_mod (n p : Nat) : (p + n) % n = p % n := Nat.add_mod_right p n

theorem sub_self_mod {n p : Nat} (h : n ≤ p) : (p - n) % n = p % n := by
  rw [← Nat.mod_eq_sub_mod h]

end TaskDispatcher.Library.Ring
