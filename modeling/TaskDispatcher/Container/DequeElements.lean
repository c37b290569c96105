import TaskDispatcher.Container.DequeReclaim
import TaskDispatcher.Library.Tokens

/-!
# What the calls of the deque yield

The elements that are not claimed lie in the current buffer between `top` and
the bottom that the owner reckons with.  A call claims one at an end of this
window and reads its cell afterwards; from then on only the order of the accesses
keeps the cell from being written again.
-/

namespace TaskDispatcher.Container.Spmc

open TaskDispatcher.Library

variable {T : Type}

/-! ## What is claimed -/

def Mem.current (m : Mem T) : Buffer (Item T) := (m.heap m.buffer).buffer

/-- Every call yields the element pushed at the index it claimed, no element is
yielded twice, and between the calls of the owner the current buffer holds every
element that is not claimed. -/
structure Exact (s : State T) : Prop where
  expected : ∀ y ∈ s.mem.hist.yields, y.item = y.expected
  once : (s.mem.hist.yields.map (·.item.id)).Nodup
  kept : s.owner = .idle → ∀ n, n < s.mem.hist.pushes → n ∉ s.mem.hist.claimed →
    ∃ i, s.mem.top ≤ i ∧ i < s.mem.bottom ∧ (s.mem.hist.pushed i.toNat).id = n ∧
      s.mem.current.get i = s.mem.hist.pushed i.toNat

/-- The step does not write a cell whose element a stealer has claimed and not yet
read. -/
def Spares (s : State T) (l : Label T) : Prop :=
  l = .owner → ∀ x b a, s.owner = .pushPut x b a → ∀ i t e, s.stealer i = .read t a e →
    t % (s.mem.heap a).buffer.size ≠ b % (s.mem.heap a).buffer.size

/-! ## The invariant -/

/-- One past the last index that is not claimed: a pop that has lowered `bottom` has
not claimed anything yet. -/
def OwnerPC.ends (bottom : Int) : OwnerPC T → Int
  | .popTop b _ => b
  | .popClaim b _ _ => b
  | .popRead b _ _ _ => b
  | .popRestore b => b
  | _ => bottom

/-- The element that the owner has claimed and not yet read. -/
def OwnerPC.pending : OwnerPC T → Option (Item T)
  | .popRead _ _ _ e => some e
  | .popTake _ _ _ e => some e
  | _ => none

def StealPC.pending : StealPC T → Option (Item T)
  | .read _ _ e => some e
  | _ => none

def State.ends (s : State T) : Int := s.owner.ends s.mem.bottom

def State.pending (s : State T) : Option Nat → Option (Item T)
  | none => s.owner.pending
  | some i => (s.stealer i).pending

/-- The elements from `top` to `e` are in the current buffer, and no others are missing. -/
structure Window (m : Mem T) (e : Int) : Prop where
  nonneg : 0 ≤ m.top
  order : m.top ≤ e
  fits : e - m.top < m.current.size
  stored : ∀ i, m.top ≤ i → i < e → m.current.get i = m.hist.pushed i.toNat
  kept : ∀ n, n < m.hist.pushes → n ∉ m.hist.claimed →
    ∃ i, m.top ≤ i ∧ i < e ∧ (m.hist.pushed i.toNat).id = n

/-- Where an element can be. -/
inductive ItemPlace where
  | index (i : Int)
  | agent (a : Option Nat)
  | yielded (k : Nat)
  deriving DecidableEq

/-- The number of the element at a place. -/
def itemAt (m : Mem T) (e : Int) (pending : Option Nat → Option (Item T)) :
    ItemPlace → Option Nat
  | .index i => if m.top ≤ i ∧ i < e then some (m.hist.pushed i.toNat).id else none
  | .agent a => (pending a).map (·.id)
  | .yielded k => m.hist.yields[k]?.map (·.item.id)

structure Numbered (m : Mem T) (e : Int) (pending : Option Nat → Option (Item T)) : Prop where
  linear : Linear (itemAt m e pending)
  below : ∀ P n, itemAt m e pending P = some n → n < m.hist.pushes

/-- There is room for one more element. -/
def Room (m : Mem T) (b : Int) : Prop := b = m.bottom ∧ b + 1 - m.top < m.current.size

/-- The buffer at `a` could replace the current one. -/
def Holds (m : Mem T) (a : Nat) (slack : Int) : Prop :=
  m.bottom + slack - m.top < (m.heap a).buffer.size ∧
    ∀ i, m.top ≤ i → i < m.bottom → (m.heap a).buffer.get i = m.hist.pushed i.toNat

def ReclaimK.Elem (m : Mem T) : ReclaimK T → Prop
  | .push _ b _ => Room m b
  | .pop => True

/-- What the owner has read so far. -/
def OwnerElem (m : Mem T) : OwnerPC T → Prop
  | .pushTop _ b => b = m.bottom
  | .pushBuffer _ b t => b = m.bottom ∧ t ≤ m.top ∧ b - t < m.current.size
  | .pushSize _ b t _ => b = m.bottom ∧ t ≤ m.top ∧ b - t < m.current.size
  | .pushStore _ b a => b = m.bottom ∧ Holds m a 1
  | .pushPut _ b _ => Room m b
  | .pushBottom x b => Room m b ∧ m.current.get b = { val := x, id := m.hist.pushes }
  | .popBuffer b => b = m.bottom
  | .popStore b _ => b = m.bottom
  | .popTop b _ => m.bottom = b - 1
  | .popClaim b t _ => m.bottom = b - 1 ∧ b - t = 1 ∧ t ≤ m.top
  | .popRead b t _ e => m.bottom = b - 1 ∧ m.current.get t = e
  | .popRestore b => m.bottom = b - 1
  | .popTake b t _ e =>
      m.bottom = b - 1 ∧ t ≤ m.top ∧ 1 < b - t ∧ m.current.get (b - 1) = e
  | .popShrink b t _ => m.bottom = b - 1 ∧ t ≤ m.top ∧ 1 < b - t
  | .popBufferStore a => Holds m a 0
  | .reclaimId _ k => k.Elem m
  | .reclaimList _ k => k.Elem m
  | .reclaimIdle _ _ k => k.Elem m
  | .reclaimUsed _ _ _ k => k.Elem m
  | .reclaimWalk _ k => k.Elem m
  | .idle => True

/-- What a stealer has read so far: as long as `top` stays where it was, the element
is in the window. -/
def StealerElem (m : Mem T) (e : Int) : StealPC T → Prop
  | .bottom t => 0 ≤ t ∧ t ≤ m.top
  | .buffer t => 0 ≤ t ∧ t ≤ m.top ∧ (t = m.top → t < e)
  | .claim t a => 0 ≤ t ∧ t ≤ m.top ∧
      (t = m.top → t < e ∧ (m.heap a).buffer.get t = m.hist.pushed t.toNat)
  | .read t a x => (m.heap a).buffer.get t = x
  | _ => True

structure ElemInv (s : State T) : Prop where
  window : Window s.mem s.ends
  numbered : Numbered s.mem s.ends s.pending
  yields : ∀ y ∈ s.mem.hist.yields, y.item = y.expected
  owner : OwnerElem s.mem s.owner
  stealer : ∀ i, StealerElem s.mem s.ends (s.stealer i)

/-! ## The window -/

theorem current_put (m : Mem T) (b : Int) (x : Item T) :
    (m.put m.buffer b x).current = m.current.put b x := by
  simp [Mem.current, Mem.put]

namespace Window

variable {m m' : Mem T} {e : Int}

theorem congr (h : Window m e) (htop : m'.top = m.top) (hhist : m'.hist = m.hist)
    (hcur : m'.current = m.current) : Window m' e := by
  constructor
  · rw [htop]
    exact h.nonneg
  · rw [htop]
    exact h.order
  · rw [htop, hcur]
    exact h.fits
  · rw [htop, hcur, hhist]
    exact h.stored
  · rw [htop, hhist]
    exact h.kept

/-- The element at one end of the window is claimed. -/
theorem claim (h : Window m e) {top' e' i : Int} (htop : m.top ≤ top') (he : e' ≤ e)
    (horder : top' ≤ e') (hi : ∀ j, m.top ≤ j → j < e → j ≠ i → top' ≤ j ∧ j < e') :
    Window (({ m with top := top' } : Mem T).claim i) e' where
  nonneg := Int.le_trans h.nonneg htop
  order := horder
  fits := by
    have hfits : e - m.top < (m.current.size : Int) := h.fits
    show e' - top' < (m.current.size : Int)
    omega
  stored j hj hj' := h.stored j (Int.le_trans htop hj) (Int.lt_of_lt_of_le hj' he)
  kept n hn hnot := by
    have hnot' : n ∉ m.hist.claimed ∧ n ≠ (m.hist.pushed i.toNat).id := by
      constructor
      · intro hmem
        exact hnot (List.mem_append_left _ hmem)
      · rintro rfl
        exact hnot (List.mem_append_right _ (List.mem_singleton.2 rfl))
    obtain ⟨j, hj, hj', hid⟩ := h.kept n hn hnot'.1
    have hne : j ≠ i := by
      rintro rfl
      exact hnot'.2 hid.symm
    obtain ⟨hle, hlt⟩ := hi j hj hj' hne
    exact ⟨j, hle, hlt, hid⟩

/-- A cell outside the window is written. -/
theorem put (h : Window m e) (hroom : e + 1 - m.top < m.current.size) (x : Item T) :
    Window (m.put m.buffer e x) e := by
  have hcur := current_put m e x
  refine ⟨h.nonneg, h.order, ?_, fun i hi hi' => ?_, h.kept⟩
  · rw [hcur, Buffer.size_put]
    exact h.fits
  · have hle := h.order
    change m.top ≤ i at hi
    rw [hcur, Buffer.get_put_of_lap (d := m.top) _ _ hle (by omega) hi (by omega) (by omega)]
    exact h.stored i hi hi'

/-- The window grows by the element written behind it. -/
theorem publish (h : Window m e) (hroom : e + 1 - m.top < m.current.size) {x : Item T}
    (hx : m.current.get e = x) (hid : x.id = m.hist.pushes) : Window (m.publish e x) (e + 1) := by
  have hle := h.order
  have hpos := h.nonneg
  have hother : ∀ i, m.top ≤ i → i < e →
      (m.hist.pushed.set e.toNat x) i.toNat = m.hist.pushed i.toNat := by
    intro i hi hi'
    exact Table.get_set_ne _ _ (by omega)
  refine ⟨hpos, Int.le_add_one hle, hroom, fun i hi hi' => ?_, fun n hn hnot => ?_⟩
  · rcases lt_or_eq_of_le (Int.le_of_lt_add_one hi') with hlt | rfl
    · show m.current.get i = (m.hist.pushed.set e.toNat x) i.toNat
      rw [hother i hi hlt]
      exact h.stored i hi hlt
    · show m.current.get i = (m.hist.pushed.set i.toNat x) i.toNat
      rw [hx, Table.get_set_self]
  · rcases Nat.lt_succ_iff_lt_or_eq.1 hn with hlt | rfl
    · obtain ⟨i, hi, hi', hi''⟩ := h.kept n hlt hnot
      refine ⟨i, hi, by omega, ?_⟩
      show ((m.hist.pushed.set e.toNat x) i.toNat).id = n
      rw [hother i hi hi']
      exact hi''
    · refine ⟨e, hle, by omega, ?_⟩
      show ((m.hist.pushed.set e.toNat x) e.toNat).id = _
      rw [Table.get_set_self]
      exact hid

end Window

/-! ## The numbers of the elements -/

namespace Numbered

variable {m m' : Mem T} {e e' : Int} {pending pending' : Option Nat → Option (Item T)}

theorem congr (h : Numbered m e pending) (htop : m'.top = m.top) (hhist : m'.hist = m.hist) :
    Numbered m' e pending := by
  have heq : itemAt m' e pending = itemAt m e pending := by
    funext P
    cases P <;> simp only [itemAt, htop, hhist]
  constructor
  · rw [heq]
    exact h.linear
  · rw [heq, hhist]
    exact h.below

theorem moved (h : Numbered m e pending) {P Q : ItemPlace}
    (hmoved : Moved (itemAt m e pending) (itemAt m' e' pending') P Q)
    (hpushes : m'.hist.pushes = m.hist.pushes) : Numbered m' e' pending' where
  linear := hmoved.linear h.linear
  below R n hn := by
    rw [hpushes]
    rcases hmoved.source hn with ⟨-, hp⟩ | ⟨-, -, hr⟩
    · exact h.below P n hp
    · exact h.below R n hr

/-- The element at index `i` goes to the agent that claims it. -/
theorem claim (h : Numbered m e pending) {top' i : Int} {x : Option Nat} (hx : pending x = none)
    (hi : m.top ≤ i ∧ i < e)
    (hrange : ∀ j, top' ≤ j ∧ j < e' ↔ (m.top ≤ j ∧ j < e) ∧ j ≠ i) :
    Numbered (({ m with top := top' } : Mem T).claim i) e'
      (Function.update pending x (some (m.hist.pushed i.toNat))) := by
  refine h.moved (P := .index i) (Q := .agent x) ⟨?_, ?_, ?_, ?_⟩ rfl
  · refine if_neg fun hin => ?_
    exact ((hrange i).1 hin).2 rfl
  · simp [itemAt, hi]
  · simp [itemAt, hx]
  · intro P hP hP'
    cases P with
    | index j =>
        have hne : j ≠ i := by
          rintro rfl
          exact hP rfl
        have hiff : top' ≤ j ∧ j < e' ↔ m.top ≤ j ∧ j < e := by
          rw [hrange j]
          exact and_iff_left hne
        exact ite_congr (propext hiff) (fun _ => rfl) fun _ => rfl
    | agent a =>
        have hne : a ≠ x := by
          rintro rfl
          exact hP' rfl
        simp [itemAt, Function.update_of_ne hne]
    | yielded k => rfl

/-- An agent yields what it has claimed. -/
theorem yield (h : Numbered m e pending) {x : Option Nat} {it : Item T} {a : Nat} {i : Int}
    (hx : pending x = some it) (hit : (m.heap a).buffer.get i = it) :
    Numbered (m.yield a i it) e (Function.update pending x none) := by
  refine h.moved (P := .agent x) (Q := .yielded m.hist.yields.length) ⟨?_, ?_, ?_, ?_⟩ rfl
  · simp [itemAt]
  · simp [itemAt, Mem.yield, hx, hit]
  · simp [itemAt]
  · intro P hP hP'
    cases P with
    | index j => rfl
    | agent b =>
        have hne : b ≠ x := by
          rintro rfl
          exact hP rfl
        simp [itemAt, Function.update_of_ne hne]
    | yielded k =>
        have hne : k ≠ m.hist.yields.length := by
          rintro rfl
          exact hP' rfl
        simp only [itemAt, Mem.yield]
        rcases Nat.lt_or_gt_of_ne hne with hlt | hgt
        · rw [List.getElem?_append_left hlt]
        · rw [List.getElem?_eq_none (by simp; omega), List.getElem?_eq_none (by omega)]

/-- A new element appears behind the window. -/
theorem publish (h : Numbered m e pending) (hpos : 0 ≤ m.top) {x : Item T}
    (hid : x.id = m.hist.pushes) : Numbered (m.publish e x) (e + 1) pending := by
  have hindex : ∀ i, itemAt (m.publish e x) (e + 1) pending (.index i) =
      if m.top ≤ i ∧ i < e + 1 then some ((m.hist.pushed.set e.toNat x) i.toNat).id else none :=
    fun _ => rfl
  have hother : ∀ P, P ≠ .index e → ∀ n, itemAt (m.publish e x) (e + 1) pending P = some n →
      itemAt m e pending P = some n := by
    intro P hP n hn
    cases P with
    | index i =>
        have hne : i ≠ e := by
          rintro rfl
          exact hP rfl
        rw [hindex] at hn
        split at hn
        · rw [← hn, Table.get_set_ne _ _ (by omega)]
          exact if_pos (by omega)
        · cases hn
    | agent a => exact hn
    | yielded k => exact hn
  have hself : ∀ n, itemAt (m.publish e x) (e + 1) pending (.index e) = some n →
      n = m.hist.pushes := by
    intro n hn
    rw [hindex, Table.get_set_self] at hn
    split at hn
    · rw [← hid, ← Option.some.inj hn]
    · cases hn
  constructor
  · apply h.linear.create (q := .index e) _ hother
    intro n hn P hP
    have hlt := h.below P n hP
    have heq := hself n hn
    omega
  · intro P n hn
    show n < m.hist.pushes + 1
    by_cases hP : P = .index e
    · subst hP
      exact Nat.lt_succ_of_le (hself n hn).le
    · exact Nat.lt_succ_of_lt (h.below P n (hother P hP n hn))

theorem nodup (h : Numbered m e pending) : (m.hist.yields.map (·.item.id)).Nodup := by
  rw [List.nodup_iff_injective_getElem]
  rintro ⟨j, hj⟩ ⟨k, hk⟩ heq
  rw [List.length_map] at hj hk
  simp only [List.getElem_map] at heq
  have hplace := h.linear (.yielded j) (.yielded k) (m.hist.yields[k].item.id)
    (by simp [itemAt, hj, heq]) (by simp [itemAt, hk])
  cases hplace
  rfl

end Numbered

/-! ## The owner -/

section Owner

variable {m m' : Mem T} {e e' : Int} {p' : OwnerPC T} {s : State T}

theorem StealerElem.congr {p : StealPC T} (h : StealerElem m e p) (htop : m.top ≤ m'.top)
    (hend : m'.top = m.top → m.top < e → m.top < e')
    (hclaim : ∀ t a, p = .claim t a → 0 ≤ t → t = m.top → t < e → m'.top = m.top →
      (m'.heap a).buffer.get t = (m.heap a).buffer.get t ∧
        m'.hist.pushed t.toNat = m.hist.pushed t.toNat)
    (hread : ∀ t a x, p = .read t a x →
      (m'.heap a).buffer.get t = (m.heap a).buffer.get t) : StealerElem m' e' p := by
  cases p with
  | bottom t => exact ⟨h.1, h.2.trans htop⟩
  | buffer t =>
      obtain ⟨hpos, hle, hin⟩ := h
      refine ⟨hpos, hle.trans htop, fun ht => ?_⟩
      have heq : t = m.top := by omega
      rw [heq]
      exact hend (by omega) (heq ▸ hin heq)
  | claim t a =>
      obtain ⟨hpos, hle, hin⟩ := h
      refine ⟨hpos, hle.trans htop, fun ht => ?_⟩
      have heq : t = m.top := by omega
      obtain ⟨hlt, hget⟩ := hin heq
      obtain ⟨hcell, hpushed⟩ := hclaim t a rfl hpos heq hlt (by omega)
      constructor
      · rw [heq]
        exact hend (by omega) (heq ▸ hlt)
      · rw [hcell, hpushed, hget]
  | read t a x => exact (hread t a x rfl).trans h
  | _ => trivial

theorem pending_owner (s : State T) (m' : Mem T) (p' : OwnerPC T) :
    ({ s with mem := m', owner := p' } : State T).pending =
      Function.update s.pending none p'.pending := by
  funext x
  cases x with
  | none => rw [Function.update_self]; rfl
  | some i => rw [Function.update_of_ne (by simp)]; rfl

theorem pending_owner_of_eq {s : State T} (m' : Mem T) (h : p'.pending = s.owner.pending) :
    ({ s with mem := m', owner := p' } : State T).pending = s.pending := by
  rw [pending_owner, h]
  exact Function.update_eq_self none s.pending

/-- An access that changes no cell of a buffer in use, and claims nothing. -/
theorem ElemInv.quiet (h : ElemInv s) (hr : ReclaimInv s)
    (hwindow : Window m' s.ends) (htop : m'.top = s.mem.top) (hhist : m'.hist = s.mem.hist)
    (hbuf : ∀ a, a ≤ s.mem.buffer → (m'.heap a).buffer = (s.mem.heap a).buffer)
    (hends : p'.ends m'.bottom = s.ends) (hpend : p'.pending = s.owner.pending)
    (howner : OwnerElem m' p') : ElemInv { s with mem := m', owner := p' } where
  window := by
    show Window m' (p'.ends m'.bottom)
    rw [hends]
    exact hwindow
  numbered := by
    rw [pending_owner_of_eq m' hpend]
    show Numbered m' (p'.ends m'.bottom) s.pending
    rw [hends]
    exact h.numbered.congr htop hhist
  yields := by
    rw [hhist]
    exact h.yields
  owner := howner
  stealer i := by
    have hcell : ∀ t a, (s.stealer i).held = some a →
        (m'.heap a).buffer.get t = (s.mem.heap a).buffer.get t := by
      intro t a ha
      rw [hbuf a ((hr.stealer i).held a ha).2.1]
    refine (h.stealer i).congr htop.ge (fun _ hlt => ?_) (fun t a hp _ _ _ _ => ?_) fun t a x hp => ?_
    · show s.mem.top < p'.ends m'.bottom
      rw [hends]
      exact hlt
    · exact ⟨hcell t a (by rw [hp]; rfl), by rw [hhist]⟩
    · exact hcell t a (by rw [hp]; rfl)

/-- An access to local variables or to the reclaimer. -/
theorem ElemInv.look (h : ElemInv s) (hr : ReclaimInv s) (hends : p'.ends s.mem.bottom = s.ends)
    (hpend : p'.pending = s.owner.pending) (howner : OwnerElem s.mem p') :
    ElemInv { s with owner := p' } :=
  h.quiet hr h.window rfl rfl (fun _ _ => rfl) hends hpend howner

theorem ownerElem_testUnlinked {a : Nat} {k : ReclaimK T} (hk : k.Elem m) :
    OwnerElem m (testUnlinked m a k) := by
  unfold testUnlinked
  split
  · exact hk
  · cases k with
    | push x b c => exact hk
    | pop => trivial

theorem ends_testUnlinked (m : Mem T) (a : Nat) (k : ReclaimK T) (bottom : Int) :
    (testUnlinked m a k).ends bottom = bottom ∧ (testUnlinked m a k).pending = none := by
  unfold testUnlinked
  split
  · exact ⟨rfl, rfl⟩
  · cases k <;> exact ⟨rfl, rfl⟩

/-- The owner claims an element at one end of the window. -/
theorem ElemInv.claim (h : ElemInv s) {t i : Int} (hpend : s.owner.pending = none)
    (hpend' : p'.pending = some (s.mem.hist.pushed i.toNat)) (hi : s.mem.top ≤ i ∧ i < s.ends)
    (htop : s.mem.top ≤ t) (horder : t ≤ p'.ends s.mem.bottom)
    (hrange : ∀ j, t ≤ j ∧ j < p'.ends s.mem.bottom ↔ (s.mem.top ≤ j ∧ j < s.ends) ∧ j ≠ i)
    (hle : p'.ends s.mem.bottom ≤ s.ends)
    (hend : t = s.mem.top → s.mem.top < p'.ends s.mem.bottom)
    (howner : OwnerElem (({ s.mem with top := t } : Mem T).claim i) p') :
    ElemInv { s with mem := ({ s.mem with top := t } : Mem T).claim i, owner := p' } where
  window := h.window.claim htop hle horder fun j hj hj' hne => (hrange j).2 ⟨⟨hj, hj'⟩, hne⟩
  numbered := by
    rw [pending_owner, hpend']
    exact h.numbered.claim hpend hi hrange
  yields := h.yields
  owner := howner
  stealer j := (h.stealer j).congr htop (fun heq _ => hend heq)
    (fun _ _ _ _ _ _ _ => ⟨rfl, rfl⟩) fun _ _ _ _ => rfl

/-- The owner reads the element it has claimed. -/
theorem ElemInv.yield (h : ElemInv s) {a : Nat} {i : Int} {x : Item T}
    (hpend : s.owner.pending = some x) (hpend' : p'.pending = none)
    (hx : (s.mem.heap a).buffer.get i = x) (hends : p'.ends s.mem.bottom = s.ends)
    (howner : OwnerElem (s.mem.yield a i x) p') :
    ElemInv { s with mem := s.mem.yield a i x, owner := p' } := by
  have hends' : ({ s with mem := s.mem.yield a i x, owner := p' } : State T).ends = s.ends := hends
  constructor
  · rw [hends']
    exact ⟨h.window.nonneg, h.window.order, h.window.fits, h.window.stored, h.window.kept⟩
  · rw [hends', pending_owner, hpend']
    exact h.numbered.yield hpend hx
  · intro y hy
    rcases List.mem_append.1 hy with hold | hnew
    · exact h.yields y hold
    · rw [List.mem_singleton.1 hnew]
      exact hx
  · exact howner
  · intro j
    rw [hends']
    exact (h.stealer j).congr (le_refl _) (fun _ hlt => hlt)
      (fun _ _ _ _ _ _ _ => ⟨rfl, rfl⟩) fun _ _ _ _ => rfl

section Resize

variable [Inhabited T] (m) (b t delta : Int)

theorem heap_resize (hn : m.buffer < m.nextAddress) {a : Nat} (ha : a ≤ m.buffer) :
    ((m.resize m.buffer b t delta).heap a).buffer = (m.heap a).buffer := by
  simp only [Mem.resize, Table.get_set]
  split
  · rename_i heq
    rw [if_neg (by omega), heq]
  · rw [if_neg (by omega)]

theorem heap_resize_new (hn : m.buffer < m.nextAddress) :
    ((m.resize m.buffer b t delta).heap m.nextAddress).buffer =
      m.current.resize b t delta := by
  simp only [Mem.resize, Table.get_set]
  rw [if_neg (by omega), if_pos trivial]
  rfl

end Resize

/-- The owner copies the window to a new buffer, which the next access stores. -/
theorem ElemInv.resize [Inhabited T] (h : ElemInv s) (hr : ReclaimInv s) {b t delta : Int}
    (hfresh : s.owner.fresh = none) (hends : p'.ends s.mem.bottom = s.ends)
    (hpend : p'.pending = s.owner.pending)
    (howner : OwnerElem (s.mem.resize s.mem.buffer b t delta) p') :
    ElemInv { s with mem := s.mem.resize s.mem.buffer b t delta, owner := p' } := by
  have hn := hr.owner.next_address
  rw [hfresh] at hn
  have hbuf : ∀ a, a ≤ s.mem.buffer →
      ((s.mem.resize s.mem.buffer b t delta).heap a).buffer = (s.mem.heap a).buffer :=
    fun a ha => heap_resize s.mem b t delta (by omega) ha
  exact h.quiet hr (h.window.congr rfl rfl (hbuf _ (le_refl _))) rfl rfl hbuf hends hpend howner

theorem holds_resize [Inhabited T] (h : Window m m.bottom) {b t delta : Int}
    (hn : m.buffer < m.nextAddress) (ht : t ≤ m.top) (hb : m.bottom ≤ b) {slack : Int}
    (hcopied : b - t ≤ (m.current.resize b t delta).size)
    (hsize : m.bottom + slack - m.top < (m.current.resize b t delta).size) :
    Holds (m.resize m.buffer b t delta) m.nextAddress slack := by
  unfold Holds
  rw [heap_resize_new m b t delta hn]
  refine ⟨hsize, fun i hi hi' => ?_⟩
  change m.top ≤ i at hi
  change i < m.bottom at hi'
  rw [Buffer.get_resize _ hcopied (by omega) (by omega)]
  exact h.stored i hi hi'

/-- The owner stores the new buffer. -/
theorem ElemInv.store (h : ElemInv s) (hr : ReclaimInv s) {a : Nat} {slack : Int}
    (hholds : Holds s.mem a slack) (hslack : 0 ≤ slack) (hends : s.ends = s.mem.bottom)
    (hends' : p'.ends s.mem.bottom = s.mem.bottom) (hpend : p'.pending = s.owner.pending)
    (howner : OwnerElem { s.mem with buffer := a } p') :
    ElemInv { s with mem := { s.mem with buffer := a }, owner := p' } := by
  obtain ⟨hsize, hstored⟩ := hholds
  have hwindow := h.window
  rw [hends] at hwindow
  refine h.quiet hr ?_ rfl rfl (fun _ _ => rfl) (hends'.trans hends.symm) hpend howner
  rw [hends]
  refine ⟨hwindow.nonneg, hwindow.order, ?_, hstored, hwindow.kept⟩
  show s.mem.bottom - s.mem.top < ((s.mem.heap a).buffer.size : Int)
  omega

/-- The owner writes the cell of the element it pushes. -/
theorem ElemInv.put (h : ElemInv s) (hr : ReclaimInv s) {x : T} {b : Int} {a : Nat}
    (hp : s.owner = .pushPut x b a) (hg : Spares s .owner) :
    ElemInv { s with
      mem := s.mem.put a b { val := x, id := s.mem.hist.pushes }, owner := .pushBottom x b } := by
  obtain ⟨hb, hroom⟩ : Room s.mem b := by
    have := h.owner
    rwa [hp] at this
  have ha : a = s.mem.buffer := hr.owner.current a (by rw [hp]; simp [OwnerPC.currents])
  have hspare := hg rfl x b a hp
  subst ha
  have hends : s.ends = b := by rw [State.ends, hp, hb]; rfl
  have hwindow := h.window
  rw [hends] at hwindow
  -- a cell that is not the one written
  have hcell : ∀ (t : Int) (c : Nat), (c = s.mem.buffer →
      t % s.mem.current.size ≠ b % s.mem.current.size) →
      ((s.mem.put s.mem.buffer b { val := x, id := s.mem.hist.pushes }).heap c).buffer.get t =
        (s.mem.heap c).buffer.get t := by
    intro t c hne
    simp only [Mem.put, Table.get_set]
    split
    · rename_i hc
      rw [hc]
      exact Buffer.get_put_ne _ _ (hne hc)
    · rfl
  constructor
  · show Window _ s.mem.bottom
    rw [← hb]
    exact hwindow.put hroom _
  · rw [pending_owner_of_eq _ (by rw [hp]; rfl)]
    show Numbered _ s.mem.bottom s.pending
    rw [← hb, ← hends]
    exact h.numbered.congr rfl rfl
  · exact h.yields
  · refine ⟨⟨hb, ?_⟩, ?_⟩
    · rw [current_put]
      exact hroom
    · rw [current_put]
      exact Buffer.get_put_self _ _ _
  · intro i
    refine (h.stealer i).congr (le_refl _) (fun _ hlt => ?_) (fun t c hq hpos ht hlt _ => ⟨?_, rfl⟩)
      fun t c e hq => ?_
    · rwa [hends, hb] at hlt
    · apply hcell
      rintro -
      rw [hends] at hlt
      intro heq
      have := Ring.eq_of_emod_eq (d := s.mem.top) (by omega) (by omega) (by omega) (by omega) heq
      omega
    · apply hcell
      rintro rfl
      exact hspare i t e hq

/-- The element is pushed. -/
theorem ElemInv.publish (h : ElemInv s) {x : T} {b : Int} (hp : s.owner = .pushBottom x b) :
    ElemInv { s with
      mem := s.mem.publish b { val := x, id := s.mem.hist.pushes }, owner := .idle } := by
  obtain ⟨⟨hb, hroom⟩, hget⟩ : OwnerElem s.mem (.pushBottom x b) := by
    have := h.owner
    rwa [hp] at this
  have hends : s.ends = b := by rw [State.ends, hp, hb]; rfl
  have hwindow := h.window
  rw [hends] at hwindow
  constructor
  · exact hwindow.publish hroom hget rfl
  · rw [pending_owner_of_eq _ (by rw [hp]; rfl)]
    have hnumbered := h.numbered
    rw [hends] at hnumbered
    exact hnumbered.publish hwindow.nonneg rfl
  · exact h.yields
  · trivial
  · intro i
    refine (h.stealer i).congr (le_refl _) (fun _ hlt => ?_) (fun t c hq hpos ht hlt _ => ⟨rfl, ?_⟩)
      fun _ _ _ _ => rfl
    · rw [hends] at hlt
      show s.mem.top < b + 1
      omega
    · rw [hends] at hlt
      exact Table.get_set_ne _ _ (by omega)

theorem ElemInv.pushSize [Inhabited T] (h : ElemInv s) (hr : ReclaimInv s) {x : T} {b t : Int}
    {a : Nat} (hp : s.owner = .pushSize x b t a)
    (hx : ownerStep s.mem (.pushSize x b t a) = some (m', p')) :
    ElemInv { s with mem := m', owner := p' } := by
  obtain ⟨hb, ht, hfits⟩ : OwnerElem s.mem (.pushSize x b t a) := by
    have := h.owner
    rwa [hp] at this
  have ha : a = s.mem.buffer := hr.owner.current a (by rw [hp]; simp [OwnerPC.currents])
  have hn := hr.owner.next_address
  rw [hp] at hn
  replace hn : s.mem.nextAddress = s.mem.buffer + 1 := hn
  subst ha
  have hends : s.ends = s.mem.bottom := by rw [State.ends, hp]; rfl
  have hwindow := h.window
  rw [hends] at hwindow
  have hle := hwindow.order
  have hsign : toUnsigned (b - t) = b - t := toUnsigned_of_nonneg (by omega)
  simp only [ownerStep] at hx
  split at hx <;> rename_i hgrows <;> cases hx
  · refine h.resize hr (by rw [hp]; rfl) hends.symm (by rw [hp]; rfl) ⟨hb, ?_⟩
    have hdouble := s.mem.current.size_grow b t
    have hpos := s.mem.current.size_pos
    apply holds_resize hwindow (by omega) ht hb.ge <;> omega
  · obtain ⟨hends', hpend⟩ := ends_testUnlinked s.mem s.mem.buffer (.push x b s.mem.buffer) s.mem.bottom
    refine h.look hr (hends'.trans hends.symm) (by rw [hpend, hp]; rfl) (ownerElem_testUnlinked ⟨hb, ?_⟩)
    have hsize : (s.mem.heap s.mem.buffer).buffer = s.mem.current := rfl
    simp only [grows, hsign, hsize, decide_eq_true_eq, not_le] at hgrows
    omega

theorem ElemInv.popTop [Inhabited T] (h : ElemInv s) (hr : ReclaimInv s) {b : Int} {a : Nat}
    (hp : s.owner = .popTop b a) (hx : ownerStep s.mem (.popTop b a) = some (m', p')) :
    ElemInv { s with mem := m', owner := p' } := by
  have hb : s.mem.bottom = b - 1 := by
    have := h.owner
    rwa [hp] at this
  have hends : s.ends = b := by rw [State.ends, hp]; rfl
  have hwindow := h.window
  rw [hends] at hwindow
  simp only [ownerStep] at hx
  split at hx
  · cases hx
    exact h.look hr hends.symm (by rw [hp]; rfl) hb
  · split at hx <;> cases hx
    · rename_i hone
      exact h.look hr hends.symm (by rw [hp]; rfl) ⟨hb, hone, le_refl _⟩
    · -- no stealer can reach this element: it is not the one at `top`
      have hends' : OwnerPC.ends s.mem.bottom
          (.popTake b s.mem.top a (s.mem.hist.pushed (b - 1).toNat)) = b - 1 := hb
      refine h.claim (t := s.mem.top) (by rw [hp]; rfl) rfl (by omega) (le_refl _) ?_ ?_ ?_ ?_ ?_
      · rw [hends']
        omega
      · intro j
        rw [hends', hends]
        omega
      · rw [hends', hends]
        omega
      · intro _
        rw [hends']
        omega
      · have ha : a = s.mem.buffer := hr.owner.current a (by rw [hp]; simp [OwnerPC.currents])
        refine ⟨hb, le_refl _, by show 1 < b - s.mem.top; omega, ?_⟩
        exact hwindow.stored (b - 1) (by omega) (by omega)

theorem ElemInv.popClaim [Inhabited T] (h : ElemInv s) (hr : ReclaimInv s) {b t : Int} {a : Nat}
    (hp : s.owner = .popClaim b t a) (hx : ownerStep s.mem (.popClaim b t a) = some (m', p')) :
    ElemInv { s with mem := m', owner := p' } := by
  obtain ⟨hb, hone, ht⟩ : OwnerElem s.mem (.popClaim b t a) := by
    have := h.owner
    rwa [hp] at this
  have hends : s.ends = b := by rw [State.ends, hp]; rfl
  have hwindow := h.window
  rw [hends] at hwindow
  simp only [ownerStep] at hx
  split at hx <;> rename_i htop <;> cases hx
  · subst htop
    refine h.claim (by rw [hp]; rfl) rfl (by omega) (by omega) ?_ ?_ hends.ge (by omega) ?_
    · show s.mem.top + 1 ≤ b
      omega
    · intro j
      show s.mem.top + 1 ≤ j ∧ j < b ↔ _
      rw [hends]
      omega
    · exact ⟨hb, hwindow.stored s.mem.top (le_refl _) (by omega)⟩
  · exact h.look hr hends.symm (by rw [hp]; rfl) hb

theorem ElemInv.popShrink [Inhabited T] (h : ElemInv s) (hr : ReclaimInv s) {b t : Int} {a : Nat}
    (hp : s.owner = .popShrink b t a) (hx : ownerStep s.mem (.popShrink b t a) = some (m', p')) :
    ElemInv { s with mem := m', owner := p' } := by
  obtain ⟨hb, ht, hmany⟩ : OwnerElem s.mem (.popShrink b t a) := by
    have := h.owner
    rwa [hp] at this
  have ha : a = s.mem.buffer := hr.owner.current a (by rw [hp]; simp [OwnerPC.currents])
  have hn := hr.owner.next_address
  rw [hp] at hn
  replace hn : s.mem.nextAddress = s.mem.buffer + 1 := hn
  subst ha
  have hends : s.ends = s.mem.bottom := by rw [State.ends, hp]; rfl
  have hwindow := h.window
  rw [hends] at hwindow
  have hsign : toUnsigned (b - t) = b - t := toUnsigned_of_nonneg (by omega)
  simp only [ownerStep] at hx
  split at hx <;> rename_i hshrinks <;> cases hx
  · refine h.resize hr (by rw [hp]; rfl) hends.symm (by rw [hp]; rfl) ?_
    have hsize : (s.mem.heap s.mem.buffer).buffer = s.mem.current := rfl
    simp only [shrinks, hsign, hsize, Bool.and_eq_true, decide_eq_true_eq] at hshrinks
    have hhalf := s.mem.current.size_shrink b t (by omega)
    apply holds_resize hwindow (by omega) ht (by omega) <;> omega
  · obtain ⟨hends', hpend⟩ := ends_testUnlinked s.mem s.mem.buffer .pop s.mem.bottom
    exact h.look hr (hends'.trans hends.symm) (by rw [hpend, hp]; rfl) (ownerElem_testUnlinked trivial)

theorem ElemInv.ownerStep [Inhabited T] (h : ElemInv s) (hr : ReclaimInv s)
    (hx : ownerStep s.mem s.owner = some (m', p')) (hg : Spares s .owner) :
    ElemInv { s with mem := m', owner := p' } := by
  have howner := h.owner
  cases hp : s.owner with
  | idle =>
      rw [hp] at hx
      cases hx
  | pushTop x b =>
      rw [hp] at hx howner
      cases hx
      have hends : s.ends = s.mem.bottom := by rw [State.ends, hp]; rfl
      refine h.look hr hends.symm (by rw [hp]; rfl) ⟨howner, le_refl _, ?_⟩
      have hfits := h.window.fits
      rw [hends] at hfits
      rwa [show b = s.mem.bottom from howner]
  | pushBuffer x b t =>
      rw [hp] at hx howner
      cases hx
      exact h.look hr (by rw [State.ends, hp]; rfl) (by rw [hp]; rfl) howner
  | pushSize x b t a =>
      rw [hp] at hx
      exact h.pushSize hr hp hx
  | pushStore x b a =>
      rw [hp] at hx howner
      cases hx
      obtain ⟨hb, hholds⟩ := howner
      obtain ⟨hends, hpend⟩ := ends_testUnlinked { s.mem with buffer := a } a (.push x b a) s.mem.bottom
      refine h.store hr hholds (by omega) (by rw [State.ends, hp]; rfl) hends
        (by rw [hpend, hp]; rfl) (ownerElem_testUnlinked ⟨hb, ?_⟩)
      rw [hb]
      exact hholds.1
  | pushPut x b a =>
      rw [hp] at hx
      cases hx
      exact h.put hr hp hg
  | pushBottom x b =>
      rw [hp] at hx
      cases hx
      exact h.publish hp
  | popBuffer b =>
      rw [hp] at hx howner
      cases hx
      exact h.look hr (by rw [State.ends, hp]; rfl) (by rw [hp]; rfl) howner
  | popStore b a =>
      rw [hp] at hx howner
      cases hx
      exact h.quiet hr (h.window.congr rfl rfl rfl) rfl rfl (fun _ _ => rfl)
        (by rw [State.ends, hp]; exact howner) (by rw [hp]; rfl) rfl
  | popTop b a =>
      rw [hp] at hx
      exact h.popTop hr hp hx
  | popClaim b t a =>
      rw [hp] at hx
      exact h.popClaim hr hp hx
  | popRead b t a e =>
      have ha : a = s.mem.buffer := hr.owner.current a (by rw [hp]; simp [OwnerPC.currents])
      subst ha
      rw [hp] at hx howner
      cases hx
      exact h.yield (by rw [hp]; rfl) rfl howner.2 (by rw [State.ends, hp]; rfl) howner.1
  | popRestore b =>
      rw [hp] at hx howner
      cases hx
      exact h.quiet hr (h.window.congr rfl rfl rfl) rfl rfl (fun _ _ => rfl)
        (by rw [State.ends, hp]; rfl) (by rw [hp]; rfl) trivial
  | popTake b t a e =>
      have ha : a = s.mem.buffer := hr.owner.current a (by rw [hp]; simp [OwnerPC.currents])
      subst ha
      rw [hp] at hx howner
      cases hx
      obtain ⟨hb, ht, hmany, hget⟩ := howner
      exact h.yield (by rw [hp]; rfl) rfl hget (by rw [State.ends, hp]; rfl) ⟨hb, ht, hmany⟩
  | popShrink b t a =>
      rw [hp] at hx
      exact h.popShrink hr hp hx
  | popBufferStore a =>
      rw [hp] at hx howner
      cases hx
      obtain ⟨hends, hpend⟩ := ends_testUnlinked { s.mem with buffer := a } a .pop s.mem.bottom
      exact h.store hr howner (le_refl _) (by rw [State.ends, hp]; rfl) hends
        (by rw [hpend, hp]; rfl) (ownerElem_testUnlinked trivial)
  | reclaimId a k =>
      rw [hp] at hx howner
      cases hx
      exact h.look hr (by rw [State.ends, hp]; rfl) (by rw [hp]; rfl) howner
  | reclaimList minId k =>
      rw [hp] at hx howner
      cases hx
      exact h.look hr (by rw [State.ends, hp]; rfl) (by rw [hp]; rfl) howner
  | reclaimIdle minId head k =>
      rw [hp] at hx howner
      cases head with
      | nil =>
          cases hx
          exact h.look hr (by rw [State.ends, hp]; rfl) (by rw [hp]; rfl) howner
      | cons i head =>
          cases hx
          split
          · exact h.look hr (by rw [State.ends, hp]; rfl) (by rw [hp]; rfl) howner
          · exact h.look hr (by rw [State.ends, hp]; rfl) (by rw [hp]; rfl) howner
  | reclaimUsed minId i head k =>
      rw [hp] at hx howner
      cases hx
      exact h.look hr (by rw [State.ends, hp]; rfl) (by rw [hp]; rfl) howner
  | reclaimWalk minId k =>
      rw [hp] at hx howner
      simp only [Spmc.ownerStep] at hx
      split at hx
      · cases hx
      · rename_i u hu
        have hbuf : ∀ a, a ≤ s.mem.buffer →
            ((s.mem.heap.set u { s.mem.heap u with live := false }) a).buffer =
              (s.mem.heap a).buffer := by
          intro a _
          rw [Table.get_set]
          split
          · rename_i ha
            rw [ha]
          · rfl
        have hcur : (s.mem.heap.set u { s.mem.heap u with live := false } s.mem.buffer).buffer =
            s.mem.current := hbuf _ (le_refl _)
        split at hx <;> cases hx
        · refine h.quiet hr (h.window.congr rfl rfl hcur) rfl rfl hbuf
            (by rw [State.ends, hp]) (by rw [hp]) ?_
          cases k with
          | pop => trivial
          | push x b c =>
              refine ⟨howner.1, ?_⟩
              show _ < (((s.mem.heap.set u _) s.mem.buffer).buffer.size : Int)
              rw [hcur]
              exact howner.2
        · cases k with
          | pop => exact h.look hr (by rw [State.ends, hp]; rfl) (by rw [hp]; rfl) trivial
          | push x b c => exact h.look hr (by rw [State.ends, hp]; rfl) (by rw [hp]; rfl) howner

end Owner

/-! ## The stealers -/

section Stealer

variable {m m' : Mem T} {s : State T} {i : Nat} {q : StealPC T}

theorem pending_stealer (s : State T) (m' : Mem T) (i : Nat) (q : StealPC T) :
    ({ s with mem := m', stealer := s.stealer.set i q } : State T).pending =
      Function.update s.pending (some i) q.pending := by
  funext x
  cases x with
  | none => rw [Function.update_of_ne (by simp)]; rfl
  | some j =>
      by_cases hj : j = i
      · subst hj
        rw [Function.update_self]
        show ((s.stealer.set j q) j).pending = q.pending
        rw [Table.get_set_self]
      · rw [Function.update_of_ne (by simpa using hj)]
        show ((s.stealer.set i q) j).pending = (s.stealer j).pending
        rw [Table.get_set_ne _ _ hj]

/-- The owner does not mind when `top` moves up to its end of the window. -/
theorem OwnerElem.advance {p : OwnerPC T} (h : OwnerElem m p) (htop : m.top ≤ m'.top)
    (hbottom : m'.bottom = m.bottom) (hheap : m'.heap = m.heap) (hb : m'.buffer = m.buffer)
    (hpushed : m'.hist.pushed = m.hist.pushed) (hpushes : m'.hist.pushes = m.hist.pushes) :
    OwnerElem m' p := by
  have hcur : m'.current = m.current := by rw [Mem.current, Mem.current, hheap, hb]
  have hroom : ∀ b, Room m b → Room m' b := by
    rintro b ⟨h1, h2⟩
    refine ⟨by rw [hbottom]; exact h1, ?_⟩
    rw [hcur]
    omega
  have hholds : ∀ a slack, Holds m a slack → Holds m' a slack := by
    rintro a slack ⟨h1, h2⟩
    unfold Holds
    rw [hbottom, hheap, hpushed]
    exact ⟨by omega, fun i hi hi' => h2 i (by omega) hi'⟩
  have hk : ∀ k : ReclaimK T, k.Elem m → k.Elem m' := by
    intro k hk
    cases k with
    | push x b a => exact hroom b hk
    | pop => trivial
  cases p with
  | pushStore x b a =>
      refine ⟨?_, hholds a 1 h.2⟩
      rw [hbottom]
      exact h.1
  | pushPut x b a => exact hroom b h
  | pushBottom x b =>
      refine ⟨hroom b h.1, ?_⟩
      rw [hcur, hpushes]
      exact h.2
  | popRead b t a e =>
      simp only [OwnerElem, hbottom, hcur] at h ⊢
      exact h
  | popTake b t a e =>
      simp only [OwnerElem, hbottom, hcur] at h ⊢
      exact ⟨h.1, h.2.1.trans htop, h.2.2⟩
  | popBufferStore a => exact hholds a 0 h
  | reclaimId a k => exact hk k h
  | reclaimList minId k => exact hk k h
  | reclaimIdle minId head k => exact hk k h
  | reclaimUsed minId j head k => exact hk k h
  | reclaimWalk minId k => exact hk k h
  | idle => trivial
  | _ =>
      simp only [OwnerElem, hbottom, hcur] at h ⊢
      omega

/-- A stealer that neither claims nor yields. -/
theorem ElemInv.observe (h : ElemInv s) (htop : m'.top = s.mem.top)
    (hbottom : m'.bottom = s.mem.bottom) (hheap : m'.heap = s.mem.heap)
    (hb : m'.buffer = s.mem.buffer) (hhist : m'.hist = s.mem.hist)
    (hpend : q.pending = (s.stealer i).pending) (hq : StealerElem s.mem s.ends q) :
    ElemInv { s with mem := m', stealer := s.stealer.set i q } := by
  have hends : ({ s with mem := m', stealer := s.stealer.set i q } : State T).ends = s.ends := by
    show s.owner.ends m'.bottom = s.ends
    rw [hbottom]
    rfl
  have hsame : ∀ p, StealerElem s.mem s.ends p → StealerElem m' s.ends p := by
    intro p hp
    refine hp.congr htop.ge (fun _ hlt => hlt) (fun _ _ _ _ _ _ _ => ?_) fun _ _ _ _ => ?_
    · rw [hheap, hhist]
      exact ⟨rfl, rfl⟩
    · rw [hheap]
  constructor
  · rw [hends]
    refine h.window.congr htop hhist ?_
    rw [Mem.current, Mem.current, hheap, hb]
  · rw [hends, pending_stealer, hpend]
    show Numbered m' s.ends (Function.update s.pending (some i) (s.pending (some i)))
    rw [Function.update_eq_self]
    exact h.numbered.congr htop hhist
  · rw [hhist]
    exact h.yields
  · exact h.owner.advance htop.ge hbottom hheap hb (by rw [hhist]) (by rw [hhist])
  · intro j
    rw [hends]
    simp only [Table.get_set]
    split
    · exact hsame q hq
    · exact hsame _ (h.stealer j)

/-- A stealer claims the element at `top`. -/
theorem ElemInv.stolen (h : ElemInv s) {a : Nat} (hp : s.stealer i = .claim s.mem.top a) :
    ElemInv { s with
      mem := ({ s.mem with top := s.mem.top + 1 } : Mem T).claim s.mem.top
      stealer := s.stealer.set i
        (.read s.mem.top a (s.mem.hist.pushed s.mem.top.toNat)) } := by
  obtain ⟨hpos, -, hin⟩ : StealerElem s.mem s.ends (.claim s.mem.top a) := by
    have := h.stealer i
    rwa [hp] at this
  obtain ⟨hlt, hget⟩ := hin rfl
  constructor
  · refine h.window.claim (by omega) (le_refl s.ends) ?_ fun j hj hj' hne => ⟨by omega, hj'⟩
    show s.mem.top + 1 ≤ s.ends
    omega
  · rw [pending_stealer]
    refine h.numbered.claim (show (s.stealer i).pending = none by rw [hp]; rfl)
      ⟨le_refl _, hlt⟩ fun j => ?_
    show s.mem.top + 1 ≤ j ∧ j < s.ends ↔ _
    omega
  · exact h.yields
  · exact h.owner.advance (by show s.mem.top ≤ s.mem.top + 1; omega) rfl rfl rfl rfl rfl
  · intro j
    simp only [Table.get_set]
    split
    · exact hget
    · refine (h.stealer j).congr (by show s.mem.top ≤ s.mem.top + 1; omega) (fun heq _ => ?_)
        (fun _ _ _ _ _ _ heq => ?_) fun _ _ _ _ => rfl
      · change s.mem.top + 1 = s.mem.top at heq
        omega
      · change s.mem.top + 1 = s.mem.top at heq
        omega

/-- A stealer reads the element it has claimed. -/
theorem ElemInv.read (h : ElemInv s) {t : Int} {a : Nat} {e : Item T}
    (hp : s.stealer i = .read t a e) :
    ElemInv { s with mem := s.mem.yield a t e, stealer := s.stealer.set i .setIdle } := by
  have hget : (s.mem.heap a).buffer.get t = e := by
    have := h.stealer i
    rwa [hp] at this
  constructor
  · exact ⟨h.window.nonneg, h.window.order, h.window.fits, h.window.stored, h.window.kept⟩
  · rw [pending_stealer]
    exact h.numbered.yield (show (s.stealer i).pending = some e by rw [hp]; rfl) hget
  · intro y hy
    rcases List.mem_append.1 hy with hold | hnew
    · exact h.yields y hold
    · rw [List.mem_singleton.1 hnew]
      exact hget
  · exact h.owner.advance (le_refl _) rfl rfl rfl rfl rfl
  · intro j
    simp only [Table.get_set]
    split
    · trivial
    · exact (h.stealer j).congr (le_refl _) (fun _ hlt => hlt)
        (fun _ _ _ _ _ _ _ => ⟨rfl, rfl⟩) fun _ _ _ _ => rfl

/-- A stealer that sees a positive size has seen `bottom` above its `top`. -/
theorem lt_of_toInt_pos {b t : Int} (hle : t ≤ b + 1) (h : 0 < toInt (b - t)) : t < b := by
  rcases lt_or_ge t b with hlt | hge
  · exact hlt
  · have hcases : b - t = 0 ∨ b - t = -1 := by omega
    rcases hcases with hzero | hone
    · rw [hzero] at h
      exact absurd h (by decide)
    · rw [hone] at h
      exact absurd h (by decide)

/-- `bottom` is at most one below the end of the window. -/
theorem ElemInv.bottom_ends (h : ElemInv s) : s.mem.bottom ≤ s.ends ∧ s.ends ≤ s.mem.bottom + 1 := by
  have howner := h.owner
  unfold State.ends
  cases hp : s.owner with
  | popTop b a =>
      rw [hp] at howner
      simp only [OwnerElem] at howner
      simp only [OwnerPC.ends]
      omega
  | popClaim b t a =>
      rw [hp] at howner
      simp only [OwnerElem] at howner
      simp only [OwnerPC.ends]
      omega
  | popRead b t a e =>
      rw [hp] at howner
      simp only [OwnerElem] at howner
      simp only [OwnerPC.ends]
      omega
  | popRestore b =>
      rw [hp] at howner
      simp only [OwnerElem] at howner
      simp only [OwnerPC.ends]
      omega
  | _ => exact ⟨le_refl _, Int.le_add_one (le_refl _)⟩

theorem ElemInv.stealStep [Inhabited T] (h : ElemInv s) (i : Nat) (b : Bool) :
    ElemInv { s with
      mem := (stealStep s.mem i b (s.stealer i)).1
      stealer := s.stealer.set i (stealStep s.mem i b (s.stealer i)).2 } := by
  have hstealer := h.stealer i
  have hwindow := h.window
  cases hp : s.stealer i with
  | link next =>
      simp only [Spmc.stealStep]
      split
      · exact h.observe rfl rfl rfl rfl rfl (by rw [hp]; rfl) trivial
      · exact h.observe rfl rfl rfl rfl rfl (by rw [hp]; rfl) trivial
  | top =>
      exact h.observe rfl rfl rfl rfl rfl (by rw [hp]; rfl) ⟨hwindow.nonneg, le_refl _⟩
  | bottom t =>
      rw [hp] at hstealer
      obtain ⟨hpos, hle⟩ := hstealer
      have hbottom := h.bottom_ends
      have horder := hwindow.order
      simp only [Spmc.stealStep]
      split
      · rename_i hsize
        have hlt := lt_of_toInt_pos (by omega) hsize
        exact h.observe rfl rfl rfl rfl rfl (by rw [hp]; rfl) ⟨hpos, hle, fun _ => by omega⟩
      · exact h.observe rfl rfl rfl rfl rfl (by rw [hp]; rfl) trivial
  | buffer t =>
      rw [hp] at hstealer
      obtain ⟨hpos, hle, hin⟩ := hstealer
      refine h.observe rfl rfl rfl rfl rfl (by rw [hp]; rfl) ⟨hpos, hle, fun ht => ⟨hin ht, ?_⟩⟩
      exact hwindow.stored t ht.ge (hin ht)
  | claim t a =>
      simp only [Spmc.stealStep]
      split
      · rename_i htop
        subst htop
        exact h.stolen hp
      · exact h.observe rfl rfl rfl rfl rfl (by rw [hp]; rfl) trivial
  | read t a e => exact h.read hp
  | _ => exact h.observe rfl rfl rfl rfl rfl (by rw [hp]; rfl) trivial

end Stealer

/-! ## Runs -/

section Runs

variable [Inhabited T] {s s' : State T} {l : Label T}

theorem ElemInv.step (h : ElemInv s) (hr : ReclaimInv s) (hg : Spares s l)
    (hs : step s l = some s') : ElemInv s' := by
  rcases step_cases hs with ⟨x, -, hp, rfl⟩ | ⟨-, hp, rfl⟩ | ⟨m', p', rfl, hx, rfl⟩ | ⟨i, b, rfl, rfl⟩
  · exact h.look hr (by rw [State.ends, hp]; rfl) (by rw [hp]; rfl) rfl
  · exact h.look hr (by rw [State.ends, hp]; rfl) (by rw [hp]; rfl) rfl
  · exact h.ownerStep hr hx hg
  · exact h.stealStep i b

theorem ElemInv.start (log : Nat) : ElemInv (start log : State T) := by
  have hnone : ∀ P n, itemAt (Spmc.start log : State T).mem 0 (Spmc.start log : State T).pending P ≠
      some n := by
    intro P n
    cases P with
    | index i =>
        have hempty : itemAt (Spmc.start log : State T).mem 0 (Spmc.start log : State T).pending
            (.index i) = none := by
          refine if_neg ?_
          rintro ⟨hle, hlt⟩
          change 0 ≤ i at hle
          omega
        rw [hempty]
        simp
    | agent a => cases a <;> simp [itemAt, Spmc.start, State.pending, OwnerPC.pending, StealPC.pending]
    | yielded k => simp [itemAt, Spmc.start]
  constructor
  · refine ⟨le_refl _, le_refl _, ?_, fun i hi hi' => ?_, fun n hn => ?_⟩
    · show (0 : Int) - 0 < ((2 ^ log : Nat) : Int)
      have := Nat.two_pow_pos log
      omega
    · change 0 ≤ i at hi
      change i < 0 at hi'
      omega
    · exact absurd hn (Nat.not_lt_zero n)
  · exact ⟨fun P Q n hP => absurd hP (hnone P n), fun P n hP => absurd hP (hnone P n)⟩
  · simp [Spmc.start]
  · trivial
  · exact fun i => trivial

omit [Inhabited T] in
theorem ElemInv.exact (h : ElemInv s) : Exact s where
  expected := h.yields
  once := h.numbered.nodup
  kept hidle n hn hnot := by
    have hends : s.ends = s.mem.bottom := by rw [State.ends, hidle]; rfl
    have hwindow := h.window
    rw [hends] at hwindow
    obtain ⟨i, hi, hi', hid⟩ := hwindow.kept n hn hnot
    exact ⟨i, hi, hi', hid, hwindow.stored i hi hi'⟩

/-- As long as no push writes a cell that a stealer is about to read, every call
yields the element it claimed, once, and the others stay in the current buffer. -/
theorem exact_of_run {log : Nat} {σ : Nat → State T} {ℓ : Nat → Label T} {n : Nat}
    (h : Run step (start log) σ ℓ n) (hg : ∀ k, k < n → Spares (σ k) (ℓ k)) :
    ∀ k, k ≤ n → Exact (σ k) := by
  intro k hk
  have hinv := h.guarded (I := fun s => ReclaimInv s ∧ ElemInv s) ⟨.start log, .start log⟩
    (fun s l s' hI hG hs => ⟨hI.1.step hs, hI.2.step hI.1 hG hs⟩) hg k hk
  exact hinv.2.exact

/-! ## The condition computed -/

omit [Inhabited T] in
/-- A stealer is not about to read the cell of index `b` in buffer `a`. -/
def StealPC.spared (size : Nat) (b : Int) (a : Nat) : StealPC T → Bool
  | .read t c _ => c ≠ a || t % size ≠ b % size
  | _ => true

omit [Inhabited T] in
def spares (s : State T) (l : Label T) : Bool :=
  match l, s.owner with
  | .owner, .pushPut _ b a =>
      (s.stealer.rest :: s.stealer.cells).all (StealPC.spared (s.mem.heap a).buffer.size b a)
  | _, _ => true

omit [Inhabited T] in
theorem Spares.of_spares (h : spares s l = true) : Spares s l := by
  rintro rfl x b a hp i t e hi
  simp only [spares, hp] at h
  have hmem : s.stealer i ∈ s.stealer.rest :: s.stealer.cells := s.stealer.get_mem i
  have hspared := List.all_eq_true.1 h _ hmem
  simpa [StealPC.spared, hi] using hspared

/-- Three pushes, two steals of which the first is not finished, and another push. -/
def stealLabels : List (Label Nat) :=
  [.push 7] ++ List.replicate 11 .owner ++ [.push 8] ++ List.replicate 11 .owner ++
    [.push 9] ++ List.replicate 9 .owner ++ List.replicate 7 (.stealer 0 false) ++
    List.replicate 8 (.stealer 1 false) ++ [.push 10] ++ List.replicate 13 .owner

theorem exact_steal : Exact (trace step (start 0) (stealLabels ++ [.stealer 0 false]) 64) := by
  have hrun : follows step spares (start 0) (stealLabels ++ [.stealer 0 false]) = true := by
    decide +kernel
  exact exact_of_run (Run.of_follows .owner hrun)
    (fun k hk => .of_spares (trace_ok .owner hrun k hk)) 64 (by decide +kernel)

/-- One push more takes the cell of the element that the first steal has claimed. -/
def lateLabels : List (Label Nat) :=
  stealLabels ++ [.push 11] ++ List.replicate 13 .owner ++ [.stealer 0 false]

theorem not_exact :
    ¬ ∀ (log : Nat) (σ : Nat → State Nat) (ℓ : Nat → Label Nat) (n : Nat),
      Run step (start log) σ ℓ n → ∀ k, k ≤ n → Exact (σ k) := by
  intro h
  have hrun : follows step (fun _ _ => true) (start 0) lateLabels = true := by decide +kernel
  have hexact := h 0 _ _ _ (Run.of_follows .owner hrun) 78 (by decide +kernel)
  have hyield := hexact.expected { item := ⟨11, 4⟩, expected := ⟨7, 0⟩ } (by decide +kernel)
  cases hyield

end Runs

end TaskDispatcher.Container.Spmc
