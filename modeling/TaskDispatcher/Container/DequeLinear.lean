import TaskDispatcher.Container.DequeElements
import TaskDispatcher.Library.Atomic

/-!
# `spmc::Deque` refines an atomic deque

A push takes effect when it raises `bottom`, a pop or a steal when it claims its element.
What a call answers is shown as soon as it is settled: what is left of the call restores
`bottom`, shrinks the buffer or reclaims.
-/

namespace TaskDispatcher.Container.Spmc

open TaskDispatcher.Library

inductive DequeOp (T : Type) where
  | push (object : T)
  | pop
  | steal
  deriving DecidableEq, Repr

inductive DequeRes (T : Type) where
  | pushed
  | popped (object : Option T)
  | stolen (object : Option T)
  deriving DecidableEq, Repr

variable {T : Type}

/-- Another call has taken an element and not returned. -/
def TakeOverlaps (status : Option Nat → Status (DequeOp T) (DequeRes T)) (a : Option Nat) : Prop :=
  ∃ b v, b ≠ a ∧ (status b = .decided .pop (.popped (some v)) ∨
    status b = .decided .steal (.stolen (some v)))

/-- The owner, which is `none`, works at the back and the stealers at the front.  A steal
may come out empty next to a pop of the only element, or to another call that takes one. -/
inductive DequeEffect (status : Option Nat → Status (DequeOp T) (DequeRes T)) (a : Option Nat) :
    List T → DequeOp T → List T → DequeRes T → Prop where
  | push {l : List T} {v : T} : DequeEffect status a l (.push v) (l ++ [v]) .pushed
  | pop {l : List T} {v : T} : DequeEffect status a (l ++ [v]) .pop l (.popped (some v))
  | popEmpty : DequeEffect status a [] .pop [] (.popped none)
  | steal {l : List T} {v : T} : DequeEffect status a (v :: l) .steal l (.stolen (some v))
  | missed {l : List T} :
      l = [] ∨ (l.length = 1 ∧ status none = .pending .pop) ∨ TakeOverlaps status a →
      DequeEffect status a l .steal l (.stolen none)

def ReclaimK.status : ReclaimK T → Status (DequeOp T) (DequeRes T)
  | .push x _ _ => .pending (.push x)
  | .pop => .idle

/-- What the call of the owner has come to. -/
def OwnerPC.status : OwnerPC T → Status (DequeOp T) (DequeRes T)
  | .pushTop x _ => .pending (.push x)
  | .pushBuffer x _ _ => .pending (.push x)
  | .pushSize x _ _ _ => .pending (.push x)
  | .pushStore x _ _ => .pending (.push x)
  | .pushPut x _ _ => .pending (.push x)
  | .pushBottom x _ => .pending (.push x)
  | .popBuffer _ => .pending .pop
  | .popStore _ _ => .pending .pop
  | .popTop _ _ => .pending .pop
  | .popClaim _ _ _ => .pending .pop
  | .popRead _ _ _ e => .decided .pop (.popped (some e.val))
  | .popTake _ _ _ e => .decided .pop (.popped (some e.val))
  | .reclaimId _ k => k.status
  | .reclaimList _ k => k.status
  | .reclaimIdle _ _ k => k.status
  | .reclaimUsed _ _ _ k => k.status
  | .reclaimWalk _ k => k.status
  | _ => .idle

/-- A stealer has read `t` from `top`: once `top` has moved on it cannot succeed. -/
def stealing (top t : Int) : Status (DequeOp T) (DequeRes T) :=
  if t = top then .pending .steal else .decided .steal (.stolen none)

/-- What the call of a stealer has come to. -/
def StealPC.status (top : Int) : StealPC T → Status (DequeOp T) (DequeRes T)
  | .top => .pending .steal
  | .bottom t => stealing top t
  | .buffer t => stealing top t
  | .claim t _ => stealing top t
  | .read _ _ e => .decided .steal (.stolen (some e.val))
  | _ => .idle

/-- The elements from `top` to `e`. -/
def Mem.contents (m : Mem T) (e : Int) : List T :=
  (List.range (e - m.top).toNat).map fun k : Nat => (m.current.get (m.top + k)).val

/-- The atomic object that a state stands for. -/
def State.view (s : State T) : Atomic (List T) (Option Nat) (DequeOp T) (DequeRes T) where
  value := s.mem.contents s.ends
  status
    | none => s.owner.status
    | some i => (s.stealer i).status s.mem.top

def OwnerPC.shows (m : Mem T) : OwnerPC T → List (Visible (Option Nat) (DequeOp T) (DequeRes T))
  | .pushBottom _ _ => [.ret none .pushed]
  | .popTop b _ => if b - m.top ≤ 0 then [.ret none (.popped none)] else []
  | .popClaim _ t _ => if m.top = t then [] else [.ret none (.popped none)]
  | .popRead _ t a _ => [.ret none (.popped (some ((m.heap a).buffer.get t).val))]
  | .popTake b _ a _ => [.ret none (.popped (some ((m.heap a).buffer.get (b - 1)).val))]
  | _ => []

def StealPC.shows (m : Mem T) (i : Nat) :
    StealPC T → List (Visible (Option Nat) (DequeOp T) (DequeRes T))
  | .idle => [.invoke (some i) .steal]
  | .bottom t => if 0 < toInt (m.bottom - t) then [] else [.ret (some i) (.stolen none)]
  | .claim t _ => if m.top = t then [] else [.ret (some i) (.stolen none)]
  | .read t a _ => [.ret (some i) (.stolen (some ((m.heap a).buffer.get t).val))]
  | _ => []

/-- What a step shows of the calls. -/
def shows (s : State T) : Label T → List (Visible (Option Nat) (DequeOp T) (DequeRes T))
  | .push x => [.invoke none (.push x)]
  | .pop => [.invoke none .pop]
  | .owner => s.owner.shows s.mem
  | .stealer i _ => (s.stealer i).shows s.mem i

/-- The step writes no cell that a stealer is about to read, and the size fits an `int`. -/
def Counted (s : State T) (l : Label T) : Prop := Spares s l ∧ s.mem.bottom - s.mem.top < 2 ^ 31

/-! ## The elements in order -/

/-- What was pushed at the indices from `t` to `e`. -/
def between (pushed : Table (Item T)) (t e : Int) : List T :=
  (List.range (e - t).toNat).map fun k : Nat => (pushed (t + k).toNat).val

theorem between_of_le (pushed : Table (Item T)) {t e : Int} (h : e ≤ t) : between pushed t e = [] := by
  unfold between
  rw [show (e - t).toNat = 0 by omega]
  rfl

theorem between_snoc (pushed : Table (Item T)) {t e : Int} (h : t ≤ e) :
    between pushed t (e + 1) = between pushed t e ++ [(pushed e.toNat).val] := by
  unfold between
  rw [show (e + 1 - t).toNat = (e - t).toNat + 1 by omega, List.range_succ, List.map_append,
    List.map_singleton, show t + ((e - t).toNat : Int) = e by omega]

theorem between_cons (pushed : Table (Item T)) {t e : Int} (h : t < e) :
    between pushed t e = (pushed t.toNat).val :: between pushed (t + 1) e := by
  unfold between
  rw [show (e - t).toNat = (e - (t + 1)).toNat + 1 by omega, List.range_succ_eq_map, List.map_cons,
    List.map_map]
  congr 1
  · rw [Int.natCast_zero, Int.add_zero]
  · apply List.map_congr_left
    intro k _
    show (pushed (t + ((k + 1 : Nat) : Int)).toNat).val = _
    rw [show t + ((k + 1 : Nat) : Int) = t + 1 + (k : Int) by omega]

/-- Writing behind the window leaves it alone. -/
theorem between_set (pushed : Table (Item T)) {t e : Int} (h : 0 ≤ t) (x : Item T) :
    between (pushed.set e.toNat x) t e = between pushed t e := by
  unfold between
  apply List.map_congr_left
  intro k hk
  have hlt := List.mem_range.1 hk
  rw [Table.get_set_ne _ _ (by omega)]

theorem length_between (pushed : Table (Item T)) (t e : Int) :
    (between pushed t e).length = (e - t).toNat := by
  unfold between
  rw [List.length_map, List.length_range]

/-- The current buffer holds what was pushed. -/
theorem Window.contents {m : Mem T} {e : Int} (h : Window m e) :
    m.contents e = between m.hist.pushed m.top e := by
  unfold Mem.contents between
  apply List.map_congr_left
  intro k hk
  have hlt := List.mem_range.1 hk
  rw [h.stored (m.top + k) (by omega) (by omega)]

/-! ## The invariant -/

/-- The `bottom` that a pop of the last element is going to restore. -/
def OwnerPC.restores : OwnerPC T → Option Int
  | .popRead b _ _ _ => some b
  | .popRestore b => some b
  | _ => none

structure LinearInv (s : State T) : Prop where
  reclaim : ReclaimInv s
  elem : ElemInv s
  unregistered : s.stealer.rest = .unregistered
  /-- nothing is left when `bottom` is going to be restored -/
  emptied : ∀ b, s.owner.restores = some b → b ≤ s.mem.top

variable {s s' : State T} {m' : Mem T} {p' : OwnerPC T} {l : Label T}

theorem restores_testUnlinked (m : Mem T) (a : Nat) (k : ReclaimK T) :
    (testUnlinked m a k).restores = none := by
  unfold testUnlinked
  split
  · rfl
  · cases k <;> rfl

/-- A pop that is going to restore `bottom` leaves nothing behind. -/
theorem emptied_step [Inhabited T] (h : ElemInv s) (hx : ownerStep s.mem s.owner = some (m', p')) {b : Int}
    (hb : p'.restores = some b) : s.owner.restores = some b ∧ m'.top = s.mem.top ∨ b ≤ m'.top := by
  have howner := h.owner
  cases hp : s.owner with
  | idle =>
      rw [hp] at hx
      cases hx
  | popTop c a =>
      rw [hp] at hx
      simp only [ownerStep] at hx
      split at hx
      · cases hx
        cases hb
        right
        omega
      · split at hx <;> (cases hx; cases hb)
  | popClaim c t a =>
      rw [hp] at hx howner
      obtain ⟨-, hone, hle⟩ := howner
      simp only [ownerStep] at hx
      split at hx
      · cases hx
        cases hb
        right
        show b ≤ t + 1
        omega
      · rename_i hmoved
        cases hx
        cases hb
        right
        omega
  | popRead c t a e =>
      rw [hp] at hx
      cases hx
      cases hb
      exact Or.inl ⟨rfl, rfl⟩
  | pushSize x c t a =>
      rw [hp] at hx
      simp only [ownerStep] at hx
      split at hx <;> cases hx
      · cases hb
      · rw [restores_testUnlinked] at hb
        cases hb
  | popShrink c t a =>
      rw [hp] at hx
      simp only [ownerStep] at hx
      split at hx <;> cases hx
      · cases hb
      · rw [restores_testUnlinked] at hb
        cases hb
  | pushStore x c a =>
      rw [hp] at hx
      cases hx
      rw [restores_testUnlinked] at hb
      cases hb
  | popBufferStore a =>
      rw [hp] at hx
      cases hx
      rw [restores_testUnlinked] at hb
      cases hb
  | reclaimIdle minId head k =>
      rw [hp] at hx
      cases head with
      | nil =>
          cases hx
          cases hb
      | cons i head =>
          cases hx
          split at hb <;> cases hb
  | reclaimWalk minId k =>
      rw [hp] at hx
      simp only [ownerStep] at hx
      split at hx
      · cases hx
      · split at hx <;> cases hx
        · cases hb
        · cases k <;> cases hb
  | _ =>
      rw [hp] at hx
      cases hx
      cases hb

/-- A stealer only moves `top` up. -/
theorem top_le_stealStep [Inhabited T] (m : Mem T) (i : Nat) (b : Bool) (p : StealPC T) :
    m.top ≤ (stealStep m i b p).1.top := by
  cases p with
  | claim t a =>
      simp only [stealStep]
      split
      · rename_i htop
        show m.top ≤ t + 1
        omega
      · exact le_refl _
  | link next =>
      simp only [stealStep]
      split <;> exact le_refl _
  | _ => exact le_refl _

theorem LinearInv.step [Inhabited T] (h : LinearInv s) (hg : Spares s l) (hs : Spmc.step s l = some s') :
    LinearInv s' := by
  have hreclaim := h.reclaim.step hs
  have helem := h.elem.step h.reclaim hg hs
  rcases step_cases hs with ⟨x, -, hp, rfl⟩ | ⟨-, hp, rfl⟩ | ⟨m', p', rfl, hx, rfl⟩ | ⟨i, b, rfl, rfl⟩
  · exact ⟨hreclaim, helem, h.unregistered, fun _ hb => by cases hb⟩
  · exact ⟨hreclaim, helem, h.unregistered, fun _ hb => by cases hb⟩
  · refine ⟨hreclaim, helem, h.unregistered, fun b hb => ?_⟩
    rcases emptied_step h.elem hx hb with ⟨hold, htop⟩ | hle
    · show b ≤ m'.top
      rw [htop]
      exact h.emptied b hold
    · exact hle
  · refine ⟨hreclaim, helem, h.unregistered, fun b' hb => ?_⟩
    exact (h.emptied b' hb).trans (top_le_stealStep _ _ _ _)

theorem LinearInv.start [Inhabited T] (log : Nat) : LinearInv (start log : State T) where
  reclaim := .start log
  elem := .start log
  unregistered := rfl
  emptied _ hb := by cases hb

/-! ## One step -/

theorem ReclaimK.status_testUnlinked (m : Mem T) (a : Nat) (k : ReclaimK T) :
    (testUnlinked m a k).status = k.status := by
  unfold testUnlinked
  split
  · rfl
  · cases k <;> rfl

/-- An access of the owner leaves what the stealers have come to, as long as it leaves `top`. -/
theorem view_owner (s : State T) (m' : Mem T) (p' : OwnerPC T) (htop : m'.top = s.mem.top) :
    ({ s with mem := m', owner := p' } : State T).view =
      { value := m'.contents (p'.ends m'.bottom)
        status := Function.update s.view.status none p'.status } := by
  unfold State.view
  congr 1
  funext x
  cases x with
  | none => rw [Function.update_self]
  | some i =>
      rw [Function.update_of_ne (by simp)]
      show (s.stealer i).status m'.top = (s.stealer i).status s.mem.top
      rw [htop]

/-- An access of a stealer leaves what the others have come to, as long as it leaves `top`. -/
theorem view_stealer (s : State T) (m' : Mem T) (i : Nat) (q : StealPC T)
    (htop : m'.top = s.mem.top) :
    ({ s with mem := m', stealer := s.stealer.set i q } : State T).view =
      { value := m'.contents (s.owner.ends m'.bottom)
        status := Function.update s.view.status (some i) (q.status s.mem.top) } := by
  unfold State.view
  congr 1
  funext x
  cases x with
  | none => rw [Function.update_of_ne (by simp)]
  | some j =>
      show (s.stealer.set i q j).status m'.top = _
      rw [htop]
      by_cases hj : j = i
      · subst hj
        rw [Function.update_self, Table.get_set_self]
      · rw [Function.update_of_ne (by simpa using hj), Table.get_set_ne _ _ hj]

/-- The contents stay when `top` and the end of the window do. -/
theorem Window.contents_congr {m m' : Mem T} {e e' : Int} (h : Window m e) (h' : Window m' e')
    (htop : m'.top = m.top) (hpushed : m'.hist.pushed = m.hist.pushed) (he : e' = e) :
    m'.contents e' = m.contents e := by
  rw [h.contents, h'.contents, htop, hpushed, he]

/-- An access of the owner that neither takes effect nor answers. -/
theorem answer_quiet (h : LinearInv s) (h' : LinearInv { s with mem := m', owner := p' })
    (htop : m'.top = s.mem.top) (hpushed : m'.hist.pushed = s.mem.hist.pushed)
    (hends : p'.ends m'.bottom = s.ends) (hstatus : p'.status = s.owner.status) :
    Path (Atomic.Step DequeEffect) s.view [] { s with mem := m', owner := p' }.view := by
  have hvalue : m'.contents (p'.ends m'.bottom) = s.mem.contents s.ends :=
    h.elem.window.contents_congr h'.elem.window htop hpushed hends
  rw [view_owner s m' p' htop, hvalue, hstatus, show s.owner.status = s.view.status none from rfl,
    Function.update_eq_self]
  exact .refl s.view

/-- The owner answers what is decided. -/
theorem answer_owner_ret (h : LinearInv s) (h' : LinearInv { s with mem := m', owner := p' })
    (htop : m'.top = s.mem.top) (hpushed : m'.hist.pushed = s.mem.hist.pushed)
    (hends : p'.ends m'.bottom = s.ends) {o : DequeOp T} {r : DequeRes T}
    (hstatus : s.owner.status = .decided o r) (hidle : p'.status = .idle) :
    Path (Atomic.Step DequeEffect) s.view [.ret none r] { s with mem := m', owner := p' }.view := by
  have hvalue : m'.contents (p'.ends m'.bottom) = s.mem.contents s.ends :=
    h.elem.window.contents_congr h'.elem.window htop hpushed hends
  rw [view_owner s m' p' htop, hvalue, hidle]
  exact .one (.ret hstatus)

/-- A pop that finds nothing answers at once. -/
theorem answer_owner_empty (h : LinearInv s) (h' : LinearInv { s with mem := m', owner := p' })
    (htop : m'.top = s.mem.top) (hpushed : m'.hist.pushed = s.mem.hist.pushed)
    (hends : p'.ends m'.bottom = s.ends) (hstatus : s.owner.status = .pending .pop)
    (hidle : p'.status = .idle) (hempty : s.ends ≤ s.mem.top) :
    Path (Atomic.Step DequeEffect) s.view [.ret none (.popped none)]
      { s with mem := m', owner := p' }.view := by
  have hnil : s.mem.contents s.ends = [] := by
    rw [h.elem.window.contents, between_of_le _ hempty]
  have hvalue : m'.contents (p'.ends m'.bottom) = s.mem.contents s.ends :=
    h.elem.window.contents_congr h'.elem.window htop hpushed hends
  have hpending : s.view.status none = .pending .pop := hstatus
  rw [view_owner s m' p' htop, hvalue, hidle]
  refine Atomic.answers hpending ?_
  show DequeEffect _ _ (s.mem.contents s.ends) _ (s.mem.contents s.ends) _
  rw [hnil]
  exact .popEmpty

/-- Only registered stealers steal. -/
theorem LinearInv.finite_steals (h : LinearInv s) :
    {a | s.view.status a = .pending .steal}.Finite := by
  have hsub : {a | s.view.status a = .pending .steal} ⊆
      some '' {i | i < s.stealer.cells.length} := by
    intro a ha
    change s.view.status a = _ at ha
    cases a with
    | none =>
        change s.owner.status = _ at ha
        cases hp : s.owner with
        | reclaimId b k =>
            rw [hp] at ha
            cases k <;> cases ha
        | reclaimList minId k =>
            rw [hp] at ha
            cases k <;> cases ha
        | reclaimIdle minId head k =>
            rw [hp] at ha
            cases k <;> cases ha
        | reclaimUsed minId i head k =>
            rw [hp] at ha
            cases k <;> cases ha
        | reclaimWalk minId k =>
            rw [hp] at ha
            cases k <;> cases ha
        | _ =>
            rw [hp] at ha
            cases ha
    | some i =>
        refine ⟨i, ?_, rfl⟩
        by_contra hge
        have hrest : s.stealer i = .unregistered := by
          rw [← h.unregistered]
          show Table.lookup s.stealer.rest s.stealer.cells i = _
          rw [Table.lookup_eq_getD, List.getElem?_eq_none (by simpa using hge), Option.getD_none]
        change (s.stealer i).status _ = _ at ha
        rw [hrest] at ha
        cases ha
  exact ((Set.finite_lt_nat _).image some).subset hsub

/-- When `top` moves up, a stealer that had read it comes out empty. -/
theorem StealerElem.status_moved {m : Mem T} {e : Int} {p : StealPC T} (h : StealerElem m e p)
    {top : Int} (htop : m.top < top) : p.status top = p.status m.top ∨
      p.status m.top = .pending .steal ∧ p.status top = .decided .steal (.stolen none) := by
  have hmoved : ∀ t, t ≤ m.top →
      (stealing top t : Status (DequeOp T) (DequeRes T)) = stealing m.top t ∨
        (stealing m.top t : Status (DequeOp T) (DequeRes T)) = .pending .steal ∧
          (stealing top t : Status (DequeOp T) (DequeRes T)) = .decided .steal (.stolen none) := by
    intro t hle
    unfold stealing
    rw [if_neg (show t ≠ top by omega)]
    by_cases ht : t = m.top
    · rw [if_pos ht]
      exact Or.inr ⟨rfl, rfl⟩
    · rw [if_neg ht]
      exact Or.inl rfl
  cases p with
  | bottom t => exact hmoved t h.2
  | buffer t => exact hmoved t h.2.1
  | claim t a => exact hmoved t h.2.1
  | _ => exact Or.inl rfl

/-- A call takes an element at the front, and with that the steals that have read the old
`top` come out empty. -/
theorem answer_take (h : LinearInv s) {a : Option Nat} {o : DequeOp T} {r : DequeRes T} {v : T}
    (htaken : o = .pop ∧ r = .popped (some v) ∨ o = .steal ∧ r = .stolen (some v))
    (hpending : s.view.status a = .pending o)
    (heffect : DequeEffect s.view.status a s.view.value o s'.view.value r)
    (hdecided : s'.view.status a = .decided o r)
    (hothers : ∀ b, b ≠ a → s'.view.status b = s.view.status b ∨
      s.view.status b = .pending .steal ∧ s'.view.status b = .decided .steal (.stolen none)) :
    Path (Atomic.Step DequeEffect) s.view [] s'.view := by
  have hother : ∀ b, b ≠ a → Function.update s.view.status a (.decided o r) b = s.view.status b :=
    fun b hb => Function.update_of_ne hb _ _
  have hmissed : Path (Atomic.Step DequeEffect)
      { value := s'.view.value, status := Function.update s.view.status a (.decided o r) } []
      s'.view := by
    refine Atomic.commits (o := .steal) (r := .stolen none)
      (D := {b | b ≠ a ∧ s.view.status b = .pending .steal ∧
        s'.view.status b = .decided .steal (.stolen none)})
      (h.finite_steals.subset fun b hb => hb.2.1) rfl ?_ (fun b hb => hb.2.2) ?_ ?_
    · rintro b ⟨hba, hb, -⟩
      exact (hother b hba).trans hb
    · intro b hb
      show s'.view.status b = Function.update s.view.status a (.decided o r) b
      by_cases hba : b = a
      · rw [hba, hdecided, Function.update_self]
      · rw [hother b hba]
        rcases hothers b hba with hsame | hmoved
        · exact hsame
        · exact absurd ⟨hba, hmoved⟩ hb
    · rintro status hstatus b ⟨hba, -, -⟩
      refine .missed (Or.inr (Or.inr ⟨a, v, Ne.symm hba, ?_⟩))
      have ha : status a = .decided o r := by
        rw [hstatus a fun hmem => hmem.1 rfl]
        exact Function.update_self _ _ _
      rcases htaken with ⟨rfl, rfl⟩ | ⟨rfl, rfl⟩
      · exact Or.inl ha
      · exact Or.inr ha
  exact .silent (.commit hpending heffect) hmissed

/-- The new element appears behind the others. -/
theorem answer_publish (h : LinearInv s) {x : T} {b : Int} (hp : s.owner = .pushBottom x b)
    (h' : LinearInv { s with
      mem := s.mem.publish b { val := x, id := s.mem.hist.pushes }, owner := .idle }) :
    Path (Atomic.Step DequeEffect) s.view [.ret none .pushed]
      { s with
        mem := s.mem.publish b { val := x, id := s.mem.hist.pushes }, owner := .idle }.view := by
  have howner := h.elem.owner
  rw [hp] at howner
  obtain ⟨⟨hb, -⟩, -⟩ := howner
  have hwindow := h.elem.window
  have hends : s.ends = b := by
    rw [State.ends, hp, hb]
    rfl
  have hpending : s.view.status none = .pending (.push x) := by
    show s.owner.status = _
    rw [hp]
    rfl
  have hvalue : (s.mem.publish b { val := x, id := s.mem.hist.pushes }).contents (b + 1) =
      s.mem.contents s.ends ++ [x] := by
    rw [Window.contents (e := b + 1) h'.elem.window, hwindow.contents, hends]
    show between (s.mem.hist.pushed.set b.toNat _) s.mem.top (b + 1) = _
    rw [between_snoc _ (hends ▸ hwindow.order), between_set _ hwindow.nonneg, Table.get_set_self]
  rw [view_owner s (s.mem.publish b _) .idle rfl]
  refine Atomic.answers hpending ?_
  show DequeEffect _ _ (s.mem.contents s.ends) _ (Mem.contents _ (b + 1)) _
  rw [hvalue]
  exact .push

/-- A call of the owner begins as an invocation. -/
theorem answer_begin (h : LinearInv s) (hp : s.owner = .idle) (h' : LinearInv { s with owner := p' })
    (o : DequeOp T) (hstatus : p'.status = .pending o)
    (hends : p'.ends s.mem.bottom = s.mem.bottom) :
    Path (Atomic.Step DequeEffect) s.view [.invoke none o] { s with owner := p' }.view := by
  have hidle : s.view.status none = .idle := by
    show s.owner.status = _
    rw [hp]
    rfl
  have hvalue : s.mem.contents (p'.ends s.mem.bottom) = s.mem.contents s.ends := by
    refine h.elem.window.contents_congr h'.elem.window rfl rfl ?_
    rw [hends, State.ends, hp]
    rfl
  have hview : ({ s with owner := p' } : State T).view = _ := view_owner s s.mem p' rfl
  rw [hview, hvalue, hstatus]
  exact .one (.invoke o hidle)

section Owner

variable [Inhabited T]

/-- With more than one element left, a pop takes the one at the back. -/
theorem answer_popTop (h : LinearInv s) {b : Int} {a : Nat} (hp : s.owner = .popTop b a)
    (hx : ownerStep s.mem (.popTop b a) = some (m', p'))
    (h' : LinearInv { s with mem := m', owner := p' }) :
    Path (Atomic.Step DequeEffect) s.view (s.owner.shows s.mem)
      { s with mem := m', owner := p' }.view := by
  have howner := h.elem.owner
  rw [hp] at howner
  have hbottom : s.mem.bottom = b - 1 := howner
  have hends : s.ends = b := by
    rw [State.ends, hp]
    rfl
  have hpending : s.owner.status = .pending .pop := by
    rw [hp]
    rfl
  rw [hp]
  simp only [OwnerPC.shows]
  simp only [ownerStep] at hx
  by_cases hempty : b - s.mem.top ≤ 0
  · rw [if_pos hempty] at hx ⊢
    cases hx
    exact answer_owner_empty h h' rfl rfl hends.symm hpending rfl (by omega)
  · rw [if_neg hempty] at hx ⊢
    by_cases hone : b - s.mem.top = 1
    · rw [if_pos hone] at hx
      cases hx
      exact answer_quiet h h' rfl rfl hends.symm hpending.symm
    · rw [if_neg hone] at hx
      cases hx
      have hvalue : s.mem.contents s.ends =
          (s.mem.claim (b - 1)).contents (b - 1) ++ [(s.mem.hist.pushed (b - 1).toNat).val] := by
        have hwindow' : Window (s.mem.claim (b - 1)) s.mem.bottom := h'.elem.window
        rw [hbottom] at hwindow'
        rw [h.elem.window.contents, hwindow'.contents, hends]
        show between s.mem.hist.pushed s.mem.top b = between s.mem.hist.pushed s.mem.top (b - 1) ++ _
        rw [← between_snoc _ (by omega), show b - 1 + 1 = b by omega]
      have hnone : s.view.status none = .pending .pop := hpending
      rw [view_owner s (s.mem.claim (b - 1)) _ rfl]
      refine .hidden (.commit hnone ?_)
      show DequeEffect _ _ (s.mem.contents s.ends) _ ((s.mem.claim (b - 1)).contents s.mem.bottom) _
      rw [hvalue, hbottom]
      exact .pop

/-- With one element left, a pop takes the one at the front. -/
theorem answer_popClaim (h : LinearInv s) {b t : Int} {a : Nat} (hp : s.owner = .popClaim b t a)
    (hx : ownerStep s.mem (.popClaim b t a) = some (m', p'))
    (h' : LinearInv { s with mem := m', owner := p' }) :
    Path (Atomic.Step DequeEffect) s.view (s.owner.shows s.mem)
      { s with mem := m', owner := p' }.view := by
  have howner := h.elem.owner
  rw [hp] at howner
  obtain ⟨-, hone, hle⟩ := howner
  have hends : s.ends = b := by
    rw [State.ends, hp]
    rfl
  have hpending : s.owner.status = .pending .pop := by
    rw [hp]
    rfl
  rw [hp]
  simp only [OwnerPC.shows]
  simp only [ownerStep] at hx
  by_cases htop : s.mem.top = t
  · rw [if_pos htop] at hx ⊢
    cases hx
    have hvalue : s.mem.contents s.ends = [(s.mem.hist.pushed t.toNat).val] := by
      rw [h.elem.window.contents, hends, between_cons _ (by omega), between_of_le _ (by omega), htop]
    have hnil : (({ s.mem with top := t + 1 } : Mem T).claim t).contents b = [] := by
      rw [Window.contents (e := b) h'.elem.window]
      exact between_of_le _ (show b ≤ t + 1 by omega)
    refine answer_take h (a := none) (Or.inl ⟨rfl, rfl⟩) hpending ?_ rfl ?_
    · show DequeEffect _ _ (s.mem.contents s.ends) _ (Mem.contents _ b) _
      rw [hvalue, hnil]
      exact .pop (l := [])
    · intro c hc
      cases c with
      | none => exact absurd rfl hc
      | some i =>
          apply (h.elem.stealer i).status_moved
          show s.mem.top < t + 1
          omega
  · rw [if_neg htop] at hx ⊢
    cases hx
    exact answer_owner_empty h h' rfl rfl hends.symm hpending rfl (by omega)

/-- Every access of the owner is answered by the atomic deque. -/
theorem answer_owner (h : LinearInv s) (hx : ownerStep s.mem s.owner = some (m', p'))
    (h' : LinearInv { s with mem := m', owner := p' }) :
    Path (Atomic.Step DequeEffect) s.view (s.owner.shows s.mem)
      { s with mem := m', owner := p' }.view := by
  have howner := h.elem.owner
  cases hp : s.owner with
  | idle =>
      rw [hp] at hx
      cases hx
  | pushBottom x b =>
      rw [hp] at hx
      cases hx
      exact answer_publish h hp h'
  | popTop b a =>
      rw [hp] at hx
      rw [← hp]
      exact answer_popTop h hp hx h'
  | popClaim b t a =>
      rw [hp] at hx
      rw [← hp]
      exact answer_popClaim h hp hx h'
  | popRead b t a e =>
      have ha : a = s.mem.buffer := h.reclaim.owner.current a (by rw [hp]; simp [OwnerPC.currents])
      rw [hp] at hx howner
      cases hx
      obtain ⟨-, hget⟩ := howner
      have hvalue : ((s.mem.heap a).buffer.get t).val = e.val := by
        rw [ha]
        exact congrArg Item.val hget
      simp only [OwnerPC.shows, hvalue]
      exact answer_owner_ret h h' rfl rfl (by rw [State.ends, hp]; rfl) (by rw [hp]; rfl) rfl
  | popTake b t a e =>
      have ha : a = s.mem.buffer := h.reclaim.owner.current a (by rw [hp]; simp [OwnerPC.currents])
      rw [hp] at hx howner
      cases hx
      obtain ⟨-, -, -, hget⟩ := howner
      have hvalue : ((s.mem.heap a).buffer.get (b - 1)).val = e.val := by
        rw [ha]
        exact congrArg Item.val hget
      simp only [OwnerPC.shows, hvalue]
      exact answer_owner_ret h h' rfl rfl (by rw [State.ends, hp]; rfl) (by rw [hp]; rfl) rfl
  | popStore b a =>
      rw [hp] at hx howner
      cases hx
      exact answer_quiet h h' rfl rfl (by rw [State.ends, hp]; exact howner) (by rw [hp]; rfl)
  | popRestore b =>
      rw [hp] at hx
      cases hx
      exact answer_quiet h h' rfl rfl (by rw [State.ends, hp]; rfl) (by rw [hp]; rfl)
  | pushSize x b t a =>
      rw [hp] at hx
      simp only [ownerStep] at hx
      split at hx <;> cases hx
      · exact answer_quiet h h' rfl rfl (by rw [State.ends, hp]; rfl) (by rw [hp]; rfl)
      · apply answer_quiet h h' rfl rfl
        · rw [(ends_testUnlinked _ _ _ _).1, State.ends, hp]
          rfl
        · rw [ReclaimK.status_testUnlinked, hp]
          rfl
  | popShrink b t a =>
      rw [hp] at hx
      simp only [ownerStep] at hx
      split at hx <;> cases hx
      · exact answer_quiet h h' rfl rfl (by rw [State.ends, hp]; rfl) (by rw [hp]; rfl)
      · apply answer_quiet h h' rfl rfl
        · rw [(ends_testUnlinked _ _ _ _).1, State.ends, hp]
          rfl
        · rw [ReclaimK.status_testUnlinked, hp]
          rfl
  | pushStore x b a =>
      rw [hp] at hx
      cases hx
      apply answer_quiet h h' rfl rfl
      · rw [(ends_testUnlinked _ _ _ _).1, State.ends, hp]
        rfl
      · rw [ReclaimK.status_testUnlinked, hp]
        rfl
  | popBufferStore a =>
      rw [hp] at hx
      cases hx
      apply answer_quiet h h' rfl rfl
      · rw [(ends_testUnlinked _ _ _ _).1, State.ends, hp]
        rfl
      · rw [ReclaimK.status_testUnlinked, hp]
        rfl
  | reclaimIdle minId head k =>
      rw [hp] at hx
      cases head with
      | nil =>
          cases hx
          exact answer_quiet h h' rfl rfl (by rw [State.ends, hp]; rfl) (by rw [hp]; rfl)
      | cons i head =>
          cases hx
          apply answer_quiet h h' rfl rfl
          · rw [State.ends, hp]
            split <;> rfl
          · rw [hp]
            split <;> rfl
  | reclaimWalk minId k =>
      rw [hp] at hx
      simp only [ownerStep] at hx
      split at hx
      · cases hx
      · split at hx <;> cases hx
        · exact answer_quiet h h' rfl rfl (by rw [State.ends, hp]) (by rw [hp])
        · apply answer_quiet h h' rfl rfl
          · rw [State.ends, hp]
            cases k <;> rfl
          · rw [hp]
            cases k <;> rfl
  | _ =>
      rw [hp] at hx
      cases hx
      exact answer_quiet h h' rfl rfl (by rw [State.ends, hp]; rfl) (by rw [hp]; rfl)

end Owner

/-- The window of a stealer's access is that before it, if it leaves `top`. -/
theorem contents_stealer {i : Nat} {q : StealPC T} (h : LinearInv s)
    (h' : LinearInv { s with mem := m', stealer := s.stealer.set i q })
    (htop : m'.top = s.mem.top) (hpushed : m'.hist.pushed = s.mem.hist.pushed)
    (hbottom : m'.bottom = s.mem.bottom) :
    m'.contents (s.owner.ends m'.bottom) = s.mem.contents s.ends :=
  h.elem.window.contents_congr h'.elem.window htop hpushed (by rw [hbottom]; rfl)

/-- An access of a stealer that neither takes effect nor answers. -/
theorem answer_look {i : Nat} {q : StealPC T} (h : LinearInv s)
    (h' : LinearInv { s with mem := m', stealer := s.stealer.set i q })
    (htop : m'.top = s.mem.top) (hpushed : m'.hist.pushed = s.mem.hist.pushed)
    (hbottom : m'.bottom = s.mem.bottom) (hstatus : q.status s.mem.top = s.view.status (some i)) :
    Path (Atomic.Step DequeEffect) s.view []
      { s with mem := m', stealer := s.stealer.set i q }.view := by
  rw [view_stealer s m' i q htop, contents_stealer h h' htop hpushed hbottom, hstatus,
    Function.update_eq_self]
  exact .refl s.view

/-- A stealer answers what is decided. -/
theorem answer_stealer_ret {i : Nat} {q : StealPC T} (h : LinearInv s)
    (h' : LinearInv { s with mem := m', stealer := s.stealer.set i q })
    (htop : m'.top = s.mem.top) (hpushed : m'.hist.pushed = s.mem.hist.pushed)
    (hbottom : m'.bottom = s.mem.bottom) (hidle : q.status s.mem.top = .idle) {o : DequeOp T}
    {r : DequeRes T} (hstatus : s.view.status (some i) = .decided o r) :
    Path (Atomic.Step DequeEffect) s.view [.ret (some i) r]
      { s with mem := m', stealer := s.stealer.set i q }.view := by
  rw [view_stealer s m' i q htop, contents_stealer h h' htop hpushed hbottom, hidle]
  exact .one (.ret hstatus)

/-- Where the size is seen not to be positive, nothing is left, or one element that a pop is
after, or another call has taken the last one. -/
theorem missed_of_size (h : LinearInv s) (i : Nat) (hcount : s.mem.bottom - s.mem.top < 2 ^ 31) (hsize : ¬ 0 < toInt (s.mem.bottom - s.mem.top)) :
    DequeEffect s.view.status (some i) s.view.value .steal s.view.value (.stolen none) := by
  have hbounds := h.elem.bottom_ends
  have horder := h.elem.window.order
  have hle : s.mem.bottom ≤ s.mem.top := by
    rw [toInt_of_lt (by omega) hcount] at hsize
    omega
  have hlength : s.view.value.length = (s.ends - s.mem.top).toNat := by
    show (s.mem.contents s.ends).length = _
    rw [h.elem.window.contents, length_between]
  apply DequeEffect.missed
  by_cases hempty : s.ends ≤ s.mem.top
  · left
    apply List.eq_nil_of_length_eq_zero
    omega
  · right
    left
    have hone : s.ends = s.mem.bottom + 1 := by omega
    refine ⟨by omega, ?_⟩
    show s.owner.status = .pending .pop
    have howner := h.elem.owner
    unfold State.ends at hone hempty
    cases hp : s.owner with
    | popTop b a => rfl
    | popClaim b t a => rfl
    | popRead b t a e =>
        have hnone := h.emptied b (by rw [hp]; rfl)
        rw [hp] at hempty
        exact absurd hnone hempty
    | popRestore b =>
        have hnone := h.emptied b (by rw [hp]; rfl)
        rw [hp] at hempty
        exact absurd hnone hempty
    | _ =>
        rw [hp] at hone
        change s.mem.bottom = s.mem.bottom + 1 at hone
        omega

/-- A stealer takes the element at the front. -/
theorem answer_stolen (h : LinearInv s) {i a : Nat} (hp : s.stealer i = .claim s.mem.top a)
    (h' : LinearInv { s with
      mem := ({ s.mem with top := s.mem.top + 1 } : Mem T).claim s.mem.top
      stealer := s.stealer.set i (.read s.mem.top a (s.mem.hist.pushed s.mem.top.toNat)) }) :
    Path (Atomic.Step DequeEffect) s.view []
      { s with
        mem := ({ s.mem with top := s.mem.top + 1 } : Mem T).claim s.mem.top
        stealer := s.stealer.set i (.read s.mem.top a (s.mem.hist.pushed s.mem.top.toNat)) }.view := by
  have hstealer := h.elem.stealer i
  rw [hp] at hstealer
  obtain ⟨-, -, hin⟩ := hstealer
  obtain ⟨hlt, -⟩ := hin rfl
  have hpending : s.view.status (some i) = .pending .steal := by
    show (s.stealer i).status _ = _
    rw [hp]
    exact if_pos rfl
  have hvalue : s.mem.contents s.ends = (s.mem.hist.pushed s.mem.top.toNat).val ::
      (({ s.mem with top := s.mem.top + 1 } : Mem T).claim s.mem.top).contents s.ends := by
    rw [h.elem.window.contents, Window.contents (e := s.ends) h'.elem.window, between_cons _ hlt]
    rfl
  refine answer_take h (a := some i) (v := (s.mem.hist.pushed s.mem.top.toNat).val) (Or.inr ⟨rfl, rfl⟩) hpending ?_ ?_ ?_
  · show DequeEffect _ _ (s.mem.contents s.ends) _ (Mem.contents _ s.ends) _
    rw [hvalue]
    exact .steal
  · show (s.stealer.set i _ i).status _ = _
    rw [Table.get_set_self]
    rfl
  · intro c hc
    cases c with
    | none => exact Or.inl rfl
    | some j =>
        have hj : j ≠ i := fun heq => hc (congrArg some heq)
        have hmoved := (h.elem.stealer j).status_moved (show s.mem.top < s.mem.top + 1 by omega)
        show (s.stealer.set i _ j).status _ = _ ∨ _ ∧ (s.stealer.set i _ j).status _ = _
        rw [Table.get_set_ne _ _ hj]
        exact hmoved

/-- Every access of a stealer is answered by the atomic deque. -/
theorem answer_stealer (h : LinearInv s) (hcount : s.mem.bottom - s.mem.top < 2 ^ 31) (i : Nat)
    (b : Bool) (h' : LinearInv { s with
      mem := (stealStep s.mem i b (s.stealer i)).1
      stealer := s.stealer.set i (stealStep s.mem i b (s.stealer i)).2 }) :
    Path (Atomic.Step DequeEffect) s.view ((s.stealer i).shows s.mem i)
      { s with
        mem := (stealStep s.mem i b (s.stealer i)).1
        stealer := s.stealer.set i (stealStep s.mem i b (s.stealer i)).2 }.view := by
  have hstealer := h.elem.stealer i
  have hstatus : s.view.status (some i) = (s.stealer i).status s.mem.top := rfl
  cases hp : s.stealer i with
  | unregistered =>
      rw [hp] at h' hstatus
      exact answer_look h h' rfl rfl rfl hstatus.symm
  | link next =>
      rw [hp] at h' hstatus
      simp only [stealStep] at h' ⊢
      split
      · rename_i heq
        rw [if_pos heq] at h'
        exact answer_look h h' rfl rfl rfl hstatus.symm
      · rename_i hne
        rw [if_neg hne] at h'
        exact answer_look h h' rfl rfl rfl hstatus.symm
  | relink =>
      rw [hp] at h' hstatus
      exact answer_look h h' rfl rfl rfl hstatus.symm
  | idle =>
      rw [hp] at h' hstatus
      rw [view_stealer s (stealStep s.mem i b .idle).1 i _ rfl]
      exact .one (.invoke .steal hstatus)
  | top =>
      rw [hp] at h' hstatus
      exact answer_look h h' rfl rfl rfl ((if_pos rfl).trans hstatus.symm)
  | bottom t =>
      rw [hp] at h' hstatus hstealer
      obtain ⟨-, hle⟩ := hstealer
      simp only [stealStep, StealPC.shows] at h' ⊢
      by_cases hsize : 0 < toInt (s.mem.bottom - t)
      · rw [if_pos hsize] at h' ⊢
        rw [if_pos hsize]
        exact answer_look h h' rfl rfl rfl hstatus.symm
      · rw [if_neg hsize] at h' ⊢
        rw [if_neg hsize]
        by_cases ht : t = s.mem.top
        · subst ht
          have hpending : s.view.status (some i) = .pending .steal := hstatus.trans (if_pos rfl)
          rw [view_stealer s s.mem i .setIdle rfl]
          exact Atomic.answers hpending (missed_of_size h i hcount hsize)
        · exact answer_stealer_ret h h' rfl rfl rfl rfl (hstatus.trans (if_neg ht))
  | buffer t =>
      rw [hp] at h' hstatus
      exact answer_look h h' rfl rfl rfl hstatus.symm
  | claim t a =>
      rw [hp] at h' hstatus hstealer
      simp only [stealStep, StealPC.shows] at h' ⊢
      by_cases htop : s.mem.top = t
      · rw [if_pos htop] at h' ⊢
        rw [if_pos htop]
        subst htop
        exact answer_stolen h hp h'
      · rw [if_neg htop] at h' ⊢
        rw [if_neg htop]
        exact answer_stealer_ret h h' rfl rfl rfl rfl (hstatus.trans (if_neg (Ne.symm htop)))
  | read t a e =>
      rw [hp] at h' hstatus hstealer
      have hget : (s.mem.heap a).buffer.get t = e := hstealer
      simp only [StealPC.shows, hget]
      exact answer_stealer_ret h h' rfl rfl rfl rfl hstatus
  | setIdle =>
      rw [hp] at h' hstatus
      exact answer_look h h' rfl rfl rfl hstatus.symm
  | reload =>
      rw [hp] at h' hstatus
      exact answer_look h h' rfl rfl rfl hstatus.symm
  | readId a =>
      rw [hp] at h' hstatus
      exact answer_look h h' rfl rfl rfl hstatus.symm
  | setUsed id =>
      rw [hp] at h' hstatus
      exact answer_look h h' rfl rfl rfl hstatus.symm

/-- While the size fits an `int` and no push takes a cell that is about to be read, every
step is answered by the atomic deque. -/
theorem simulates [Inhabited T] : Simulates (step : State T → Label T → Option (State T)) shows
    (Atomic.Step DequeEffect) (fun s t => LinearInv s ∧ t = s.view) Counted := by
  constructor
  rintro s l s' _ ⟨h, rfl⟩ ⟨hspares, hcount⟩ hs
  have h' : LinearInv s' := h.step hspares hs
  refine ⟨s'.view, ?_, h', rfl⟩
  rcases step_cases hs with ⟨x, rfl, hp, rfl⟩ | ⟨rfl, hp, rfl⟩ | ⟨m', p', rfl, hx, rfl⟩ | ⟨i, b, rfl, rfl⟩
  · exact answer_begin h hp h' (.push x) rfl rfl
  · exact answer_begin h hp h' .pop rfl rfl
  · exact answer_owner h hx h'
  · exact answer_stealer h hcount i b h'

/-! ## Whole runs -/

/-- The calls of such a run are those of an atomic deque, and at its end the deque holds what
the atomic one does. -/
theorem dequeLinear_of_run [Inhabited T] {log : Nat} {σ : Nat → State T} {ℓ : Nat → Label T}
    {n : Nat} (h : Run step (start log) σ ℓ n) (hg : ∀ k, k < n → Counted (σ k) (ℓ k)) :
    Path (Atomic.Step DequeEffect) (Atomic.new []) (shown shows σ ℓ n) (σ n).view := by
  have hstart : LinearInv (start log : State T) ∧ Atomic.new [] = (start log : State T).view := by
    refine ⟨.start log, ?_⟩
    unfold State.view Atomic.new
    congr 1
    funext a
    cases a <;> rfl
  obtain ⟨_, hpath, -, rfl⟩ := simulates.run h hstart hg
  exact hpath

def counted (s : State T) (l : Label T) : Bool := spares s l && s.mem.bottom - s.mem.top < 2 ^ 31

theorem Counted.of_counted {s : State T} {l : Label T} (h : counted s l = true) : Counted s l := by
  unfold counted at h
  rw [Bool.and_eq_true, decide_eq_true_eq] at h
  exact ⟨.of_spares h.1, h.2⟩

/-- Two stealers and the owner between them. -/
theorem dequeLinear_steal :
    Path (Atomic.Step DequeEffect) (Atomic.new [])
      (shown shows (trace step (start 0) (stealLabels ++ [.stealer 0 false]))
        (fun k => (stealLabels ++ [Label.stealer 0 false]).getD k .owner) 64)
      (trace step (start 0) (stealLabels ++ [.stealer 0 false]) 64).view := by
  have hrun : follows step counted (start 0) (stealLabels ++ [.stealer 0 false]) = true := by
    decide +kernel
  exact dequeLinear_of_run (Run.of_follows .owner hrun)
    fun k hk => .of_counted (trace_ok .owner hrun k hk)

end TaskDispatcher.Container.Spmc
