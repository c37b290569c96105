import TaskDispatcher.Library.Table
import TaskDispatcher.Library.Ring

/-!
# `container::VersionRing`

The ring of `container/version_ring.hh`.  `unsigned` is `UInt32`, so versions and
their differences wrap, and `modPow2` stands for `cc::mod_pow2`.
-/

namespace TaskDispatcher.Container

open TaskDispatcher.Library

/-- What is relied on of `cc::mod_pow2`. -/
def ReducesPow2 (modPow2 : UInt32 → UInt32 → UInt32) : Prop :=
  ∀ (a n : UInt32) (k : Nat), n.toNat = 2 ^ k → (modPow2 a n).toNat = a.toNat % n.toNat

/-- `VersionRing<T, N>` -/
structure VersionRing (T : Type) where
  data : Table T
  version : UInt32

namespace VersionRing

variable {T : Type} (modPow2 : UInt32 → UInt32 → UInt32) (N : UInt32)

def isExpired (r : VersionRing T) (handle : UInt32) : Bool := r.version - handle > N

/-- The index in `mData` that a handle refers to. -/
def slot (handle : UInt32) : Nat := (modPow2 handle N).toNat

def get (r : VersionRing T) (handle : UInt32) : T := r.data (slot modPow2 N handle)

def acquire (r : VersionRing T) (value : T) : UInt32 × VersionRing T :=
  let handle := r.version
  (handle, { data := r.data.set (slot modPow2 N handle) value, version := r.version + 1 })

def reset (r : VersionRing T) : VersionRing T := { r with version := 0 }

/-- A sequence of `acquire` calls, with the handles they return. -/
def acquireAll (r : VersionRing T) : List T → List UInt32 × VersionRing T
  | [] => ([], r)
  | value :: values =>
      let a := acquire modPow2 N r value
      let b := acquireAll a.2 values
      (a.1 :: b.1, b.2)

section Calls

variable {modPow2 N} {k : Nat} {r : VersionRing T} {values : List T}

theorem add_one_add (v : UInt32) (n : Nat) : v + 1 + UInt32.ofNat n = v + UInt32.ofNat (n + 1) := by
  apply UInt32.toNat_inj.1
  rw [UInt32.toNat_add, UInt32.toNat_add, UInt32.toNat_add, UInt32.toNat_ofNat',
    UInt32.toNat_ofNat', UInt32.toNat_one]
  omega

theorem length_handles (r : VersionRing T) (values : List T) :
    (acquireAll modPow2 N r values).1.length = values.length := by
  induction values generalizing r with
  | nil => rfl
  | cons value values ih =>
      unfold acquireAll
      exact congrArg (· + 1) (ih _)

/-- The handles count on from the version. -/
theorem handle_eq {i : Nat} {h : UInt32}
    (hh : (acquireAll modPow2 N r values).1[i]? = some h) :
    i < values.length ∧ h = r.version + UInt32.ofNat i := by
  induction values generalizing r i with
  | nil => cases hh
  | cons value values ih =>
      unfold acquireAll at hh
      cases i with
      | zero =>
          have hhead : r.version = h := Option.some.inj hh
          rw [← hhead]
          exact ⟨Nat.succ_pos _, (UInt32.add_zero _).symm⟩
      | succ i =>
          rw [List.getElem?_cons_succ] at hh
          obtain ⟨hi, heq⟩ := ih hh
          exact ⟨Nat.succ_lt_succ hi, heq.trans (add_one_add _ _)⟩

theorem version_acquireAll (r : VersionRing T) (values : List T) :
    (acquireAll modPow2 N r values).2.version = r.version + UInt32.ofNat values.length := by
  induction values generalizing r with
  | nil => exact (UInt32.add_zero _).symm
  | cons value values ih =>
      unfold acquireAll
      exact (ih _).trans (add_one_add _ _)

/-- A slot that no call refers to keeps its value. -/
theorem data_frame {s : Nat}
    (hother : ∀ h ∈ (acquireAll modPow2 N r values).1, slot modPow2 N h ≠ s) :
    (acquireAll modPow2 N r values).2.data s = r.data s := by
  induction values generalizing r with
  | nil => rfl
  | cons value values ih =>
      unfold acquireAll at hother ⊢
      rw [List.forall_mem_cons] at hother
      calc
        _ = (acquire modPow2 N r value).2.data s := ih hother.2
        _ = r.data s := Table.get_set_ne _ _ hother.1.symm

/-- A slot that no later call refers to has the value of its call. -/
theorem get_acquireAll {i : Nat} {h : UInt32} {v : T}
    (hh : (acquireAll modPow2 N r values).1[i]? = some h) (hv : values[i]? = some v)
    (hlater : ∀ j g, i < j → (acquireAll modPow2 N r values).1[j]? = some g →
      slot modPow2 N g ≠ slot modPow2 N h) :
    get modPow2 N (acquireAll modPow2 N r values).2 h = v := by
  induction values generalizing r i with
  | nil => cases hv
  | cons value values ih =>
      unfold acquireAll at hh hlater ⊢
      cases i with
      | zero =>
          have hhead : r.version = h := Option.some.inj hh
          have hvalue : value = v := Option.some.inj hv
          subst hhead hvalue
          have hother : ∀ g ∈ (acquireAll modPow2 N (acquire modPow2 N r value).2 values).1,
              slot modPow2 N g ≠ slot modPow2 N r.version := by
            intro g hg
            obtain ⟨j, hj⟩ := List.mem_iff_getElem?.1 hg
            exact hlater (j + 1) g (Nat.succ_pos j) hj
          exact (data_frame hother).trans (Table.get_set_self _ _ _)
      | succ i =>
          apply ih hh hv
          intro j g hij hg
          exact hlater (j + 1) g (Nat.succ_lt_succ hij) hg

/-! ## Versions and slots -/

theorem slot_add (hmod : ReducesPow2 modPow2) (hN : N.toNat = 2 ^ k) (v : UInt32) (i : Nat) :
    slot modPow2 N (v + UInt32.ofNat i) = (v.toNat + i) % N.toNat := by
  have hk : k < 32 := (Nat.pow_lt_pow_iff_right (by decide)).1 (hN ▸ N.toNat_lt)
  have hdvd : N.toNat ∣ 2 ^ 32 := hN ▸ Nat.pow_dvd_pow 2 hk.le
  calc
    slot modPow2 N (v + UInt32.ofNat i) = (v + UInt32.ofNat i).toNat % N.toNat := hmod _ N k hN
    _ = (v.toNat + i % 2 ^ 32) % 2 ^ 32 % N.toNat := by
      rw [UInt32.toNat_add, UInt32.toNat_ofNat']
    _ = (v.toNat + i) % N.toNat := by
      rw [Nat.add_mod_mod, Nat.mod_mod_of_dvd _ hdvd]

/-- Two calls have the same slot exactly when a multiple of `N` lies between them. -/
theorem slot_ne_of_lt (hmod : ReducesPow2 modPow2) (hN : N.toNat = 2 ^ k) (v : UInt32) {i j : Nat}
    (hij : i < j) (hlt : j < i + N.toNat) :
    slot modPow2 N (v + UInt32.ofNat j) ≠ slot modPow2 N (v + UInt32.ofNat i) := by
  rw [slot_add hmod hN, slot_add hmod hN]
  intro heq
  have := Ring.eq_of_mod_eq (d := v.toNat + i) (by omega) (by omega) (le_refl _) (by omega) heq
  omega

theorem slot_add_self (hmod : ReducesPow2 modPow2) (hN : N.toNat = 2 ^ k) (v : UInt32) (i : Nat) :
    slot modPow2 N (v + UInt32.ofNat (i + N.toNat)) = slot modPow2 N (v + UInt32.ofNat i) := by
  rw [slot_add hmod hN, slot_add hmod hN, ← Nat.add_assoc, Nat.add_mod_right]

/-- The age of a handle, through the wrap. -/
theorem toNat_age (v : UInt32) {i n : Nat} (hi : i ≤ n) (hn : n - i < 2 ^ 32) :
    (v + UInt32.ofNat n - (v + UInt32.ofNat i)).toNat = n - i := by
  have hv := v.toNat_lt
  rw [UInt32.toNat_sub, UInt32.toNat_add, UInt32.toNat_add, UInt32.toNat_ofNat',
    UInt32.toNat_ofNat']
  omega

end Calls

/-- A handle expires exactly when its slot is overwritten, and until then refers to
the value it was acquired with. -/
structure ExactExpiry (r : VersionRing T) (values : List T) : Prop where
  expiry : ∀ i h, (acquireAll modPow2 N r values).1[i]? = some h → values.length - i < 2 ^ 32 →
    (isExpired N (acquireAll modPow2 N r values).2 h = false ↔
      ∀ j g, i < j → (acquireAll modPow2 N r values).1[j]? = some g →
        slot modPow2 N g ≠ slot modPow2 N h)
  value : ∀ i h v, (acquireAll modPow2 N r values).1[i]? = some h → values[i]? = some v →
    values.length - i < 2 ^ 32 → isExpired N (acquireAll modPow2 N r values).2 h = false →
      get modPow2 N (acquireAll modPow2 N r values).2 h = v
  latest : ∀ i h, (acquireAll modPow2 N r values).1[i]? = some h → values.length - i < 2 ^ 32 →
    (isExpired N (acquireAll modPow2 N r values).2 h = false ↔ values.length - i ≤ N.toNat)
  distinct : ∀ i j g h, i < j → (acquireAll modPow2 N r values).1[i]? = some g →
    (acquireAll modPow2 N r values).1[j]? = some h → values.length - i ≤ N.toNat →
      slot modPow2 N h ≠ slot modPow2 N g

/-- Expiry is exact for every version that the calls start from. -/
theorem exactExpiry {modPow2 : UInt32 → UInt32 → UInt32} (hmod : ReducesPow2 modPow2) {N : UInt32}
    {k : Nat} (hN : N.toNat = 2 ^ k) (r : VersionRing T) (values : List T) :
    ExactExpiry modPow2 N r values := by
  have hpos : 0 < N.toNat := hN ▸ Nat.two_pow_pos k
  have hlatest : ∀ i h, (acquireAll modPow2 N r values).1[i]? = some h →
      values.length - i < 2 ^ 32 →
      (isExpired N (acquireAll modPow2 N r values).2 h = false ↔ values.length - i ≤ N.toNat) := by
    intro i h hh hage
    obtain ⟨hi, rfl⟩ := handle_eq hh
    unfold isExpired
    rw [version_acquireAll, decide_eq_false_iff_not, gt_iff_lt, UInt32.lt_iff_toNat_lt,
      toNat_age _ hi.le hage, Nat.not_lt]
  have hdistinct : ∀ i j g h, i < j → (acquireAll modPow2 N r values).1[i]? = some g →
      (acquireAll modPow2 N r values).1[j]? = some h → values.length - i ≤ N.toNat →
      slot modPow2 N h ≠ slot modPow2 N g := by
    intro i j g h hij hg hh hlast
    obtain ⟨-, rfl⟩ := handle_eq hg
    obtain ⟨hj, rfl⟩ := handle_eq hh
    exact slot_ne_of_lt hmod hN _ hij (by omega)
  have hexpiry : ∀ i h, (acquireAll modPow2 N r values).1[i]? = some h →
      values.length - i < 2 ^ 32 →
      (isExpired N (acquireAll modPow2 N r values).2 h = false ↔
        ∀ j g, i < j → (acquireAll modPow2 N r values).1[j]? = some g →
          slot modPow2 N g ≠ slot modPow2 N h) := by
    intro i h hh hage
    rw [hlatest i h hh hage]
    constructor
    · intro hlast j g hij hg
      exact hdistinct i j h g hij hh hg hlast
    · intro hother
      by_contra hlast
      -- the call `N` later has taken the slot again
      have hin : i + N.toNat < (acquireAll modPow2 N r values).1.length := by
        rw [length_handles]
        omega
      have hg := List.getElem?_eq_getElem hin
      apply hother _ _ (by omega) hg
      rw [(handle_eq hg).2, (handle_eq hh).2]
      exact slot_add_self hmod hN _ _
  refine ⟨hexpiry, ?_, hlatest, hdistinct⟩
  intro i h v hh hv hage hlive
  exact get_acquireAll hh hv ((hexpiry i h hh hage).1 hlive)

/-- The expiry of a ring of four slots whose version is about to wrap. -/
theorem exactExpiry_wrap : ExactExpiry (fun a n => a &&& (n - 1)) 4
    { data := .const 0, version := 4294967294 } [10, 11, 12, 13, 14] := by
  refine exactExpiry (fun a n k hn => ?_) (k := 2) rfl _ _
  have hpow := Nat.two_pow_pos k
  have hpred : (n - 1).toNat = 2 ^ k - 1 := by
    rw [UInt32.toNat_sub_of_le]
    · rw [hn]
      rfl
    · rw [UInt32.le_iff_toNat_le, hn]
      exact hpow
  rw [UInt32.toNat_and, hpred, hn, Nat.and_two_pow_sub_one_eq_mod]

end VersionRing

end TaskDispatcher.Container
