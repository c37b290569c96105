import TaskDispatcher.Library.Tokens
import TaskDispatcher.Library.Transition
import TaskDispatcher.Submit.Future

/-!
# Futures own their counters and results

A future holds the handle and the cell of the submission it owns, and both move
with it.  The handle of a submission is alive until the wait for its task has
returned, and as long as it is alive exactly one future holds it.
-/

namespace TaskDispatcher.Submit.Futures

open TaskDispatcher.Library

variable {T : Type} {w : World T} {f g a h c n : Nat}

/-! ## Projections -/

namespace World

theorem sync_setFuture (w : World T) (f : Nat) (F : Option Future) (x : Nat) :
    (w.setFuture f F).sync x = if x = f then F.bind Future.sync else w.sync x := by
  unfold sync setFuture
  rw [Table.get_set]
  split <;> rfl

theorem value_setFuture (w : World T) (f : Nat) (F : Option Future) (x : Nat) :
    (w.setFuture f F).value x = if x = f then F.bind Future.value else w.value x := by
  unfold value setFuture
  rw [Table.get_set]
  split <;> rfl

theorem owner_setOwner (w : World T) (f : Nat) (o : Option Nat) (x : Nat) :
    (w.setOwner f o).owner x = if x = f then o else w.owner x := by
  unfold owner setOwner
  exact Table.get_set _ _ _ _

theorem record_setRecord (w : World T) (n : Nat) (r : Record T) (m : Nat) :
    (w.setRecord n r).hist.record m = if m = n then r else w.hist.record m :=
  Table.get_set _ _ _ _

/-- What an update of a record keeps of it. -/
theorem setRecord_field {β : Type} (φ : Record T → β) {r : Record T}
    (hr : φ r = φ (w.hist.record n)) (m : Nat) :
    φ ((w.setRecord n r).hist.record m) = φ (w.hist.record m) := by
  rw [record_setRecord]
  split
  · next hm => rw [hr, hm]
  · rfl

theorem acquire_owner (w : World T) (f a h c x : Nat) :
    (w.acquireCounterHandle f a h c).owner x = if x = f then some w.hist.next else w.owner x :=
  Table.get_set _ _ _ _

theorem acquire_handles (w : World T) (f a h c k : Nat) :
    (w.acquireCounterHandle f a h c).handles k = if k = h then some c else w.handles k :=
  Table.get_set _ _ _ _

theorem acquire_issued (w : World T) (f a h c k : Nat) :
    (w.acquireCounterHandle f a h c).hist.issued k =
      if k = h then w.hist.next else w.hist.issued k :=
  Table.get_set _ _ _ _

/-- The earlier submissions keep their records. -/
theorem acquire_record (w : World T) (f a h c : Nat) {n : Nat} (hn : n < w.hist.next) :
    (w.acquireCounterHandle f a h c).hist.record n = w.hist.record n :=
  Table.get_set_ne _ _ (Nat.ne_of_lt hn)

theorem acquire_record_next (w : World T) (f a h c : Nat) :
    (w.acquireCounterHandle f a h c).hist.record w.hist.next = ⟨a, none, false, false, 0⟩ :=
  Table.get_set_self _ _ _

theorem moveInto_sync (w : World T) (f rhs : Nat) :
    (w.moveInto f rhs).sync =
      fun x => if x = rhs then none else if x = f then w.sync rhs else w.sync x := by
  funext x
  exact (sync_setFuture (w.setFuture f _) rhs _ x).trans (by rw [sync_setFuture]; rfl)

theorem moveInto_value (w : World T) (f rhs : Nat) :
    (w.moveInto f rhs).value =
      fun x => if x = rhs then none else if x = f then w.value rhs else w.value x := by
  funext x
  exact (value_setFuture (w.setFuture f _) rhs _ x).trans (by rw [value_setFuture]; rfl)

theorem moveInto_owner (w : World T) (f rhs : Nat) :
    (w.moveInto f rhs).owner =
      fun x => if x = rhs then none else if x = f then w.owner rhs else w.owner x := by
  funext x
  unfold moveInto
  rw [owner_setOwner, owner_setOwner]
  rfl

end World

/-- Reading `q` instead of `p` is the move of a token to the empty place `p`. -/
theorem moved_of_swap {tok : Nat → Option Nat} {p q : Nat} (hne : p ≠ q) (hp : tok p = none) :
    Moved tok (fun x => if x = q then none else if x = p then tok q else tok x) q p where
  gone := if_pos rfl
  here := (if_neg hne).trans (if_pos rfl)
  free := hp
  other _ hxq hxp := (if_neg hxq).trans (if_neg hxp)

/-! ## The invariant -/

/-- The local sync of a submit that has not been stored in its future. -/
def PC.submitting : PC → Option (Nat × Nat)
  | .submitTasks f _ h => some (f, h)
  | .setSync f h => some (f, h)
  | _ => none

namespace World

/-- The future `f`, or the submit that fills it, holds the handle `h`. -/
def Holds (w : World T) (f h : Nat) : Prop :=
  w.sync f = some h ∨ w.pc.submitting = some (f, h)

/-- Handles and cells are where their owners are. -/
structure Owned (w : World T) : Prop where
  linear : Linear w.owner
  cells : Linear w.value
  held : ∀ f h, w.Holds f h → w.owner f = some (w.hist.issued h) ∧ w.handles h ≠ none
  covered : ∀ h, w.handles h ≠ none → ∃ f, w.Holds f h
  owned : ∀ f n, w.owner f = some n → n < w.hist.next ∧ w.value f = some (w.hist.record n).cell
  allocated : ∀ f a, w.value f = some a → w.cells a ≠ none

/-- The counter of a handle counts the task of its submission. -/
structure Counted (w : World T) : Prop where
  counters : Linear w.handles
  taken : ∀ h c, w.handles h = some c → w.free c = false
  count : ∀ h c, w.handles h = some c →
    w.counts c = if (w.tasks (w.hist.issued h)).isSome then 1 else 0
  queued : ∀ n t, w.tasks n = some t → t.cell = (w.hist.record n).cell ∧
    (w.hist.record n).completed = false ∧ ∃ h, w.handles h = some t.counter ∧ w.hist.issued h = n

/-- A handle that is alive is that of the submission `n`. -/
def Live (w : World T) (n : Nat) : Prop := ∃ h, w.handles h ≠ none ∧ w.hist.issued h = n

/-- What the history says of every submission. -/
structure Recorded (w : World T) : Prop where
  completed : ∀ n, n < w.hist.next → (w.hist.record n).completed = true →
    w.tasks n = none ∧ (w.hist.record n).stored ≠ none
  waited : ∀ n, n < w.hist.next → (w.hist.record n).waited = true →
    (w.hist.record n).completed = true
  released : ∀ n, n < w.hist.next → (w.hist.record n).released = 0 ∧ w.Live n ∨
    (w.hist.record n).released = 1 ∧ (w.hist.record n).waited = true ∧ ¬ w.Live n
  written : ∀ f n v, w.owner f = some n → (w.hist.record n).stored = some v →
    w.cells (w.hist.record n).cell = some v
  got : ∀ n v, (some n, v) ∈ w.hist.got → n < w.hist.next ∧ (w.hist.record n).stored = some v

/-- What is known where the client is. -/
def AtPC (w : World T) : PC → Prop
  | .ready => True
  | .construct f => w.sync f = none ∧ w.value f = none ∧ w.owner f = none
  | .acquireHandle f a => w.sync f = none ∧ w.value f = some a ∧ w.owner f = none
  | .submitTasks f a h => w.sync f = none ∧ (w.hist.record (w.hist.issued h)).cell = a ∧
      w.tasks (w.hist.issued h) = none ∧ (w.hist.record (w.hist.issued h)).completed = false
  | .setSync f _ => w.sync f = none
  | .wait f k => ∀ rhs, k = .assign rhs → f ≠ rhs
  | .release f h k => w.sync f = some h ∧ (w.hist.record (w.hist.issued h)).waited = true ∧
      ∀ rhs, k = .assign rhs → f ≠ rhs
  | .finish f k => w.sync f = none ∧ ∀ rhs, k = .assign rhs → f ≠ rhs

/-- The assumption: a wait returns after the task of its submission has completed. -/
def WaitsForTask (w : World T) (l : Label T) : Prop :=
  ∀ f k h, w.pc = .wait f k → l = .go → w.sync f = some h →
    (w.hist.record (w.hist.issued h)).completed = true

structure Inv (w : World T) : Prop where
  clean : w.fault = none
  own : w.Owned
  counted : w.Counted
  recorded : w.Recorded
  here : w.AtPC w.pc

end World


/-! ## Frames -/

namespace World

theorem holds_iff_of_ready (hp : w.pc.submitting = none) : w.Holds f h ↔ w.sync f = some h := by
  unfold Holds
  rw [hp]
  simp

namespace Owned

theorem congr {w' : World T} (ho : w.Owned) (howner : w'.owner = w.owner)
    (hvalue : w'.value = w.value) (hholds : ∀ f h, w'.Holds f h ↔ w.Holds f h)
    (hhandles : w'.handles = w.handles) (hissued : w'.hist.issued = w.hist.issued)
    (hnext : w'.hist.next = w.hist.next)
    (hcell : ∀ n, (w'.hist.record n).cell = (w.hist.record n).cell)
    (halloc : ∀ a, w.cells a ≠ none → w'.cells a ≠ none) : w'.Owned where
  linear := howner ▸ ho.linear
  cells := hvalue ▸ ho.cells
  held f h hf := by
    rw [howner, hissued, hhandles]
    exact ho.held f h ((hholds f h).1 hf)
  covered h hh := by
    obtain ⟨f, hf⟩ := ho.covered h (hhandles ▸ hh)
    exact ⟨f, (hholds f h).2 hf⟩
  owned f n hf := by
    rw [hnext, hvalue, hcell]
    exact ho.owned f n (howner ▸ hf)
  allocated f a hf := halloc a (ho.allocated f a (hvalue ▸ hf))

/-- Two futures do not hold one handle. -/
theorem holder_unique (ho : w.Owned) (hf : w.Holds f h) (hg : w.Holds g h) : f = g :=
  ho.linear f g _ (ho.held f h hf).1 (ho.held g h hg).1

theorem issued_lt (ho : w.Owned) (hh : w.handles h ≠ none) : w.hist.issued h < w.hist.next := by
  obtain ⟨f, hf⟩ := ho.covered h hh
  exact (ho.owned f _ (ho.held f h hf).1).1

/-- Two owners keep their results in different cells. -/
theorem cell_ne (ho : w.Owned) {m : Nat} (hf : w.owner f = some n) (hg : w.owner g = some m)
    (hne : m ≠ n) : (w.hist.record m).cell ≠ (w.hist.record n).cell := by
  intro hcell
  have hvf := (ho.owned f n hf).2
  have hvg := (ho.owned g m hg).2
  rw [hcell] at hvg
  have hfg := ho.cells f g _ hvf hvg
  rw [hfg, hg] at hf
  exact hne (Option.some.inj hf)

end Owned

/-- The counter of a task that has not completed stands at one. -/
theorem Counted.count_one (hc : w.Counted) {t : Task} (hh : w.handles h = some c)
    (ht : w.tasks (w.hist.issued h) = some t) : w.counts c = 1 := by
  rw [hc.count h c hh, ht]
  rfl

theorem Counted.count_zero (hc : w.Counted) (hh : w.handles h = some c)
    (ht : w.tasks (w.hist.issued h) = none) : w.counts c = 0 := by
  rw [hc.count h c hh, ht]
  rfl

theorem AtPC.sync_none {p : PC} (hat : w.AtPC p) (hp : p.submitting = some (f, h)) :
    w.sync f = none := by
  cases p with
  | submitTasks f' a h' =>
      cases hp
      exact hat.1
  | setSync f' h' =>
      cases hp
      exact hat
  | _ => cases hp

namespace Inv

/-- A future holds one handle. -/
theorem held_unique (hi : w.Inv) {k : Nat} (hh : w.Holds f h) (hk : w.Holds f k) : h = k := by
  rcases hh with hh | hh <;> rcases hk with hk | hk
  · exact Option.some.inj (hh.symm.trans hk)
  · rw [hi.here.sync_none hk] at hh
    cases hh
  · rw [hi.here.sync_none hh] at hk
    cases hk
  · rw [hh] at hk
    cases hk
    rfl

/-- Two handles that are alive belong to different submissions. -/
theorem handle_unique (hi : w.Inv) {k : Nat} (hh : w.handles h ≠ none) (hk : w.handles k ≠ none)
    (hissued : w.hist.issued h = w.hist.issued k) : h = k := by
  obtain ⟨f, hf⟩ := hi.own.covered h hh
  obtain ⟨g, hg⟩ := hi.own.covered k hk
  have hfg : f = g := by
    apply hi.own.linear f g (w.hist.issued h) (hi.own.held f h hf).1
    rw [hissued]
    exact (hi.own.held g k hg).1
  rw [← hfg] at hg
  exact hi.held_unique hf hg

/-- The holder of a submission whose handle is alive owns it. -/
theorem owner_of_live (hi : w.Inv) (hlive : w.Live n) :
    ∃ f h, w.Holds f h ∧ w.hist.issued h = n ∧ w.owner f = some n := by
  obtain ⟨h, hh, hn⟩ := hlive
  obtain ⟨f, hf⟩ := hi.own.covered h hh
  exact ⟨f, h, hf, hn, hn ▸ (hi.own.held f h hf).1⟩

theorem live_of_task (hi : w.Inv) {t : Task} (ht : w.tasks n = some t) : w.Live n := by
  obtain ⟨-, -, h, hh, hn⟩ := hi.counted.queued n t ht
  exact ⟨h, by rw [hh]; exact Option.some_ne_none _, hn⟩

/-- The cell of a task that has not completed is allocated. -/
theorem task_cell (hi : w.Inv) {t : Task} (ht : w.tasks n = some t) : w.cells t.cell ≠ none := by
  obtain ⟨f, -, -, -, hf⟩ := hi.owner_of_live (hi.live_of_task ht)
  rw [(hi.counted.queued n t ht).1]
  exact hi.own.allocated f _ (hi.own.owned f n hf).2

theorem task_lt (hi : w.Inv) {t : Task} (ht : w.tasks n = some t) : n < w.hist.next := by
  obtain ⟨f, -, -, -, hf⟩ := hi.owner_of_live (hi.live_of_task ht)
  exact (hi.own.owned f n hf).1

theorem no_task (hi : w.Inv) (hn : w.hist.next ≤ n) : w.tasks n = none := by
  cases ht : w.tasks n with
  | none => rfl
  | some t => exact absurd (hi.task_lt ht) (Nat.not_lt.2 hn)

/-- Only where the client is changes. -/
theorem goto (hi : w.Inv) {p : PC} (hp : p.submitting = w.pc.submitting) (hat : w.AtPC p) :
    (w.goto p).Inv where
  clean := hi.clean
  own := by
    refine hi.own.congr rfl rfl (fun f h => ?_) rfl rfl rfl (fun _ => rfl) (fun _ => id)
    unfold Holds World.goto
    rw [← hp]
    rfl
  counted := ⟨hi.counted.counters, hi.counted.taken, hi.counted.count, hi.counted.queued⟩
  recorded := ⟨hi.recorded.completed, hi.recorded.waited, hi.recorded.released,
    hi.recorded.written, hi.recorded.got⟩
  here := hat

/-! ## Submitting -/

/-- `future()` -/
theorem construct [Inhabited T] (hi : w.Inv) (hp : w.pc = .construct f) (ha : w.cells a = none) :
    ((w.construct f a).goto (.acquireHandle f a)).Inv := by
  obtain ⟨hsync, hvalue, howner⟩ : w.AtPC (.construct f) := hp ▸ hi.here
  have hsync' : ((w.construct f a).goto (.acquireHandle f a)).sync = w.sync := by
    funext x
    refine (sync_setFuture _ f _ x).trans ?_
    split
    · next hx => exact (hx ▸ hsync).symm
    · rfl
  have hvalue' : ∀ x, ((w.construct f a).goto (.acquireHandle f a)).value x =
      if x = f then some a else w.value x := value_setFuture _ f _
  have hholds : ∀ x k, ((w.construct f a).goto (.acquireHandle f a)).Holds x k ↔ w.Holds x k := by
    intro x k
    rw [holds_iff_of_ready rfl, holds_iff_of_ready (by rw [hp]; rfl), hsync']
  have hfresh : ∀ x b, w.value x = some b → b ≠ a := by
    rintro x b hx rfl
    exact hi.own.allocated x b hx ha
  refine ⟨hi.clean, ⟨hi.own.linear, ?_, ?_, ?_, ?_, ?_⟩, ⟨hi.counted.counters, hi.counted.taken,
    hi.counted.count, hi.counted.queued⟩, ⟨hi.recorded.completed, hi.recorded.waited,
    hi.recorded.released, ?_, hi.recorded.got⟩, ⟨?_, ?_, howner⟩⟩
  · apply hi.own.cells.create (q := f)
    · intro b hb x hx
      rw [hvalue', if_pos rfl] at hb
      exact hfresh x b hx (Option.some.inj hb).symm
    · intro x hxf b hb
      rwa [hvalue', if_neg hxf] at hb
  · intro x k hx
    exact hi.own.held x k ((hholds x k).1 hx)
  · intro k hk
    obtain ⟨x, hx⟩ := hi.own.covered k hk
    exact ⟨x, (hholds x k).2 hx⟩
  · intro x n hx
    have hxf : x ≠ f := by
      rintro rfl
      rw [show w.owner x = some n from hx] at howner
      cases howner
    rw [hvalue', if_neg hxf]
    exact hi.own.owned x n hx
  · intro x b hx
    rw [hvalue'] at hx
    show (w.cells.set a (some default)) b ≠ none
    rw [Table.get_set]
    grind [hi.own.allocated x b]
  · intro x n v hx hv
    show (w.cells.set a (some default)) (w.hist.record n).cell = some v
    rw [Table.get_set_ne _ _ (hfresh x _ (hi.own.owned x n hx).2)]
    exact hi.recorded.written x n v hx hv
  · rw [hsync']
    exact hsync
  · rw [hvalue', if_pos rfl]

section Acquire

variable (hi : w.Inv) (hp : w.pc = .acquireHandle f a) (hh : w.handles h = none)

include hi hp hh in
theorem owned_acquire (c : Nat) :
    ((w.acquireCounterHandle f a h c).goto (.submitTasks f a h)).Owned := by
  obtain ⟨-, hvalue, howner⟩ : w.AtPC (.acquireHandle f a) := hp ▸ hi.here
  have hlive : ∀ k, w.handles k ≠ none → k ≠ h := by
    rintro k hk rfl
    exact hk hh
  refine ⟨?_, hi.own.cells, ?_, ?_, ?_, hi.own.allocated⟩
  · apply hi.own.linear.create (q := f)
    · intro n hn x hx
      replace hn := (w.acquire_owner f a h c f).symm.trans hn
      rw [if_pos rfl] at hn
      have hlt := (hi.own.owned x n hx).1
      have heq := Option.some.inj hn
      omega
    · intro x hxf n hn
      replace hn := (w.acquire_owner f a h c x).symm.trans hn
      rwa [if_neg hxf] at hn
  · intro x k hx
    show (w.acquireCounterHandle f a h c).owner x = some _ ∧
      (w.acquireCounterHandle f a h c).handles k ≠ none
    rw [acquire_owner, acquire_handles]
    show _ = some ((w.acquireCounterHandle f a h c).hist.issued k) ∧ _
    rw [acquire_issued]
    rcases hx with hx | hx
    · obtain ⟨hxo, hk⟩ := hi.own.held x k (Or.inl hx)
      have hxf : x ≠ f := by
        rintro rfl
        rw [howner] at hxo
        cases hxo
      rw [if_neg hxf, if_neg (hlive k hk), if_neg (hlive k hk)]
      exact ⟨hxo, hk⟩
    · cases hx
      rw [if_pos rfl, if_pos rfl, if_pos rfl]
      exact ⟨rfl, Option.some_ne_none _⟩
  · intro k hk
    replace hk : (w.acquireCounterHandle f a h c).handles k ≠ none := hk
    rw [acquire_handles] at hk
    by_cases hkh : k = h
    · exact ⟨f, Or.inr (by rw [hkh]; rfl)⟩
    · rw [if_neg hkh] at hk
      obtain ⟨x, hx⟩ := hi.own.covered k hk
      have hready : w.pc.submitting = none := by
        rw [hp]
        rfl
      exact ⟨x, Or.inl ((holds_iff_of_ready hready).1 hx)⟩
  · intro x n hx
    replace hx := (w.acquire_owner f a h c x).symm.trans hx
    by_cases hxf : x = f
    · rw [if_pos hxf] at hx
      obtain rfl := Option.some.inj hx
      refine ⟨Nat.lt_succ_self _, ?_⟩
      show w.value x = some ((w.acquireCounterHandle f a h c).hist.record w.hist.next).cell
      rw [acquire_record_next, hxf]
      exact hvalue
    · rw [if_neg hxf] at hx
      obtain ⟨hn, hcell⟩ := hi.own.owned x n hx
      refine ⟨Nat.lt_succ_of_lt hn, ?_⟩
      show w.value x = some ((w.acquireCounterHandle f a h c).hist.record n).cell
      rw [acquire_record _ _ _ _ _ hn]
      exact hcell

include hi hh in
theorem counted_acquire (hc : w.free c = true) :
    (w.acquireCounterHandle f a h c).Counted := by
  have hcounter : ∀ k c', w.handles k = some c' → c' ≠ c := by
    rintro k c' hk rfl
    rw [hi.counted.taken k c' hk] at hc
    cases hc
  refine ⟨?_, ?_, ?_, ?_⟩
  · apply hi.counted.counters.create (q := h)
    · intro c' hc' k hk
      rw [acquire_handles, if_pos rfl] at hc'
      exact hcounter k c' hk (Option.some.inj hc').symm
    · intro k hkh c' hc'
      rwa [acquire_handles, if_neg hkh] at hc'
  · intro k c' hk
    show (w.free.set c false) c' = false
    rw [Table.get_set]
    rw [acquire_handles] at hk
    grind [hi.counted.taken k c']
  · intro k c' hk
    show (w.counts.set c 0) c' = if (w.tasks _).isSome then 1 else 0
    rw [acquire_issued]
    rw [acquire_handles] at hk
    by_cases hkh : k = h
    · rw [if_pos hkh] at hk ⊢
      rw [← Option.some.inj hk, Table.get_set_self, hi.no_task (Nat.le_refl _)]
      rfl
    · rw [if_neg hkh] at hk ⊢
      rw [Table.get_set_ne _ _ (hcounter k c' hk)]
      exact hi.counted.count k c' hk
  · intro n t ht
    obtain ⟨hcell, hpending, k, hk, hn⟩ := hi.counted.queued n t ht
    have hkh : k ≠ h := by
      rintro rfl
      rw [hh] at hk
      cases hk
    rw [acquire_record _ _ _ _ _ (hi.task_lt ht)]
    refine ⟨hcell, hpending, k, ?_, ?_⟩
    · rw [acquire_handles, if_neg hkh]
      exact hk
    · rw [acquire_issued, if_neg hkh]
      exact hn

include hh in
theorem live_acquire (hn : n < w.hist.next) :
    (w.acquireCounterHandle f a h c).Live n ↔ w.Live n := by
  unfold Live
  refine exists_congr fun k => ?_
  rw [acquire_handles, acquire_issued]
  grind

include hi hh in
theorem recorded_acquire (f a c : Nat) : (w.acquireCounterHandle f a h c).Recorded := by
  have hcases : ∀ n, n < w.hist.next + 1 → n < w.hist.next ∨ n = w.hist.next := fun n hn => by omega
  refine ⟨?_, ?_, ?_, ?_, ?_⟩
  · intro n hn
    rcases hcases n hn with hlt | rfl
    · rw [acquire_record _ _ _ _ _ hlt]
      exact hi.recorded.completed n hlt
    · rw [acquire_record_next]
      intro hfalse
      cases hfalse
  · intro n hn
    rcases hcases n hn with hlt | rfl
    · rw [acquire_record _ _ _ _ _ hlt]
      exact hi.recorded.waited n hlt
    · rw [acquire_record_next]
      exact id
  · intro n hn
    rcases hcases n hn with hlt | rfl
    · rw [acquire_record _ _ _ _ _ hlt, live_acquire hh hlt]
      exact hi.recorded.released n hlt
    · rw [acquire_record_next]
      refine Or.inl ⟨rfl, h, ?_, ?_⟩
      · rw [acquire_handles, if_pos rfl]
        exact Option.some_ne_none _
      · rw [acquire_issued, if_pos rfl]
  · intro x n v hx hv
    rw [acquire_owner] at hx
    by_cases hxf : x = f
    · rw [if_pos hxf] at hx
      rw [← Option.some.inj hx, acquire_record_next] at hv
      cases hv
    · rw [if_neg hxf] at hx
      rw [acquire_record _ _ _ _ _ (hi.own.owned x n hx).1] at hv ⊢
      exact hi.recorded.written x n v hx hv
  · intro n v hv
    obtain ⟨hn, hstored⟩ := hi.recorded.got n v hv
    rw [acquire_record _ _ _ _ _ hn]
    exact ⟨Nat.lt_succ_of_lt hn, hstored⟩

include hi hp hh in
/-- `acquireCounterHandle` -/
theorem acquire (hc : w.free c = true) :
    ((w.acquireCounterHandle f a h c).goto (.submitTasks f a h)).Inv := by
  obtain ⟨hsync, -, -⟩ : w.AtPC (.acquireHandle f a) := hp ▸ hi.here
  have hcounted := hi.counted_acquire (f := f) (a := a) hh hc
  have hrecorded := hi.recorded_acquire hh f a c
  have hissued : (w.acquireCounterHandle f a h c).hist.issued h = w.hist.next :=
    (w.acquire_issued f a h c h).trans (if_pos rfl)
  refine ⟨hi.clean, hi.owned_acquire hp hh c,
    ⟨hcounted.counters, hcounted.taken, hcounted.count, hcounted.queued⟩,
    ⟨hrecorded.completed, hrecorded.waited, hrecorded.released, hrecorded.written, hrecorded.got⟩,
    hsync, ?_⟩
  show ((w.acquireCounterHandle f a h c).hist.record
      ((w.acquireCounterHandle f a h c).hist.issued h)).cell = a ∧
    w.tasks ((w.acquireCounterHandle f a h c).hist.issued h) = none ∧
    ((w.acquireCounterHandle f a h c).hist.record
      ((w.acquireCounterHandle f a h c).hist.issued h)).completed = false
  rw [hissued, acquire_record_next]
  exact ⟨rfl, hi.no_task (Nat.le_refl _), rfl⟩

end Acquire

/-- `submitTasks` -/
theorem submitTasks (hi : w.Inv) (hp : w.pc = .submitTasks f a h) (hh : w.handles h = some c) :
    ((w.submitTasks a h c).goto (.setSync f h)).Inv := by
  obtain ⟨hsync, hcell, hnone, hpending⟩ : w.AtPC (.submitTasks f a h) := hp ▸ hi.here
  have hcounts' : ∀ c', ((w.submitTasks a h c).goto (.setSync f h)).counts c' =
      if c' = c then w.counts c + 1 else w.counts c' := fun _ => Table.get_set _ _ _ _
  have htasks' : ∀ n, ((w.submitTasks a h c).goto (.setSync f h)).tasks n =
      if n = w.hist.issued h then some ⟨a, c⟩ else w.tasks n := fun _ => Table.get_set _ _ _ _
  have hne : ∀ k, w.handles k ≠ none → k ≠ h → w.hist.issued k ≠ w.hist.issued h := by
    intro k hk hkh heq
    exact hkh (hi.handle_unique hk (by rw [hh]; exact Option.some_ne_none _) heq)
  refine ⟨hi.clean, ?_, ⟨hi.counted.counters, hi.counted.taken, ?_, ?_⟩, ⟨?_, hi.recorded.waited,
    hi.recorded.released, hi.recorded.written, hi.recorded.got⟩, hsync⟩
  · refine hi.own.congr rfl rfl (fun x k => ?_) rfl rfl rfl (fun _ => rfl) (fun _ => id)
    unfold Holds
    rw [hp]
    rfl
  · intro k c' hk
    rw [hcounts', htasks']
    show _ = if (if w.hist.issued k = _ then _ else _ : Option Task).isSome then (1 : Int) else 0
    have hcount := hi.counted.count_zero hh hnone
    by_cases hkh : k = h
    · subst hkh
      rw [if_pos (Option.some.inj ((Eq.symm hk).trans hh)), hcount, if_pos rfl]
      rfl
    · have hc : c' ≠ c := by
        rintro rfl
        exact hkh (hi.counted.counters k h _ hk hh)
      rw [if_neg hc, if_neg (hne k (by rw [show w.handles k = _ from hk]; exact Option.some_ne_none _) hkh)]
      exact hi.counted.count k c' hk
  · intro n t ht
    rw [htasks'] at ht
    by_cases hn : n = w.hist.issued h
    · rw [if_pos hn] at ht
      obtain rfl := Option.some.inj ht
      subst hn
      exact ⟨hcell.symm, hpending, h, hh, rfl⟩
    · rw [if_neg hn] at ht
      exact hi.counted.queued n t ht
  · intro n hn hdone
    rw [htasks', if_neg]
    · exact hi.recorded.completed n hn hdone
    · rintro rfl
      exact Bool.false_ne_true (hpending.symm.trans hdone)

/-- `res.set_sync(s)` -/
theorem setSync (hi : w.Inv) (hp : w.pc = .setSync f h) :
    ((w.setFuture f (some ⟨some h, w.value f⟩)).goto .ready).Inv := by
  have hsync : w.AtPC (.setSync f h) := hp ▸ hi.here
  have hsync' : ∀ x, ((w.setFuture f (some ⟨some h, w.value f⟩)).goto .ready).sync x =
      if x = f then some h else w.sync x := sync_setFuture _ _ _
  have hvalue' : ((w.setFuture f (some ⟨some h, w.value f⟩)).goto .ready).value = w.value := by
    funext x
    refine (value_setFuture _ _ _ x).trans ?_
    split
    · next hx => rw [hx]; rfl
    · rfl
  refine ⟨hi.clean, hi.own.congr rfl hvalue' (fun x k => ?_) rfl rfl rfl (fun _ => rfl)
    (fun _ => id), ⟨hi.counted.counters, hi.counted.taken, hi.counted.count, hi.counted.queued⟩,
    ⟨hi.recorded.completed, hi.recorded.waited, hi.recorded.released, hi.recorded.written,
      hi.recorded.got⟩, trivial⟩
  have hsubmit : w.pc.submitting = some (x, k) ↔ f = x ∧ h = k := by
    rw [hp]
    simp [PC.submitting]
  rw [holds_iff_of_ready rfl, hsync']
  unfold Holds
  rw [hsubmit]
  have hf : w.sync f = none := hsync
  by_cases hx : x = f
  · subst hx
    simp [hf]
  · simp [hx, Ne.symm hx]

/-! ## The tasks -/

/-- `*result_ptr = fun()` -/
theorem store (hi : w.Inv) {v : T} {w' : World T} (hs : w.store n v = some w') : w'.Inv := by
  unfold World.store at hs
  cases ht : w.tasks n with
  | none =>
      rw [ht] at hs
      cases hs
  | some t =>
  cases hv : (w.hist.record n).stored with
  | some v' =>
      rw [ht, hv] at hs
      cases hs
  | none =>
  cases ha : w.cells t.cell with
  | none => exact absurd ha (hi.task_cell ht)
  | some v' =>
  rw [ht, hv] at hs
  simp only [ha] at hs
  obtain rfl := Option.some.inj hs
  obtain ⟨hcell, hpending, -⟩ := hi.counted.queued n t ht
  obtain ⟨g, -, -, -, hg⟩ := hi.owner_of_live (hi.live_of_task ht)
  set u : World T := { w with cells := w.cells.set t.cell (some v) } with hu
  set r : Record T := { w.hist.record n with stored := some v } with hr
  have hcells' : ∀ m, ((u.setRecord n r).hist.record m).cell = (w.hist.record m).cell :=
    setRecord_field (w := u) Record.cell rfl
  have hcompleted' : ∀ m, ((u.setRecord n r).hist.record m).completed =
      (w.hist.record m).completed := setRecord_field (w := u) Record.completed rfl
  have hwaited' : ∀ m, ((u.setRecord n r).hist.record m).waited = (w.hist.record m).waited :=
    setRecord_field (w := u) Record.waited rfl
  have hreleased' : ∀ m, ((u.setRecord n r).hist.record m).released =
      (w.hist.record m).released := setRecord_field (w := u) Record.released rfl
  have hstored' : ∀ m, ((u.setRecord n r).hist.record m).stored =
      if m = n then some v else (w.hist.record m).stored := by
    intro m
    rw [record_setRecord]
    split <;> rfl
  refine ⟨hi.clean, hi.own.congr rfl rfl (fun _ _ => Iff.rfl) rfl rfl rfl hcells' ?_,
    ⟨hi.counted.counters, hi.counted.taken, hi.counted.count, ?_⟩, ⟨?_, ?_, ?_, ?_, ?_⟩, ?_⟩
  · intro b hb
    show (w.cells.set t.cell (some v)) b ≠ none
    rw [Table.get_set]
    split
    · exact Option.some_ne_none v
    · exact hb
  · intro m t' ht'
    rw [hcells', hcompleted']
    exact hi.counted.queued m t' ht'
  · intro m hm
    rw [hcompleted', hstored']
    intro hdone
    obtain ⟨hnone, hstored⟩ := hi.recorded.completed m hm hdone
    refine ⟨hnone, ?_⟩
    split
    · exact Option.some_ne_none v
    · exact hstored
  · intro m hm
    rw [hcompleted', hwaited']
    exact hi.recorded.waited m hm
  · intro m hm
    rw [hreleased', hwaited']
    exact hi.recorded.released m hm
  · intro x m v' hx
    rw [hcells', hstored']
    show _ → (w.cells.set t.cell (some v)) _ = some v'
    by_cases hm : m = n
    · rw [if_pos hm, hm, ← hcell, Table.get_set_self]
      exact id
    · rw [if_neg hm, Table.get_set_ne _ _ (hcell ▸ hi.own.cell_ne hg hx hm)]
      exact hi.recorded.written x m v' hx
  · intro m v' hm
    obtain ⟨hlt, hstored⟩ := hi.recorded.got m v' hm
    rw [hstored', if_neg]
    · exact ⟨hlt, hstored⟩
    · rintro rfl
      rw [hv] at hstored
      cases hstored
  · have hhere := hi.here
    show (u.setRecord n r).AtPC w.pc
    cases hp : w.pc with
    | submitTasks f a h =>
        rw [hp] at hhere
        obtain ⟨hsync, hcell, hnone, hpending⟩ := hhere
        exact ⟨hsync, (hcells' _).trans hcell, hnone, (hcompleted' _).trans hpending⟩
    | release f h k =>
        rw [hp] at hhere
        obtain ⟨hsync, hwaited, hk⟩ := hhere
        exact ⟨hsync, (hwaited' _).trans hwaited, hk⟩
    | _ =>
        rw [hp] at hhere
        exact hhere

/-- `counterIncrement(counter, -1)` -/
theorem complete (hi : w.Inv) {w' : World T} (hs : w.complete n = some w') : w'.Inv := by
  unfold World.complete at hs
  cases ht : w.tasks n with
  | none =>
      rw [ht] at hs
      cases hs
  | some t =>
  cases hv : (w.hist.record n).stored with
  | none =>
      rw [ht, hv] at hs
      cases hs
  | some v =>
  rw [ht, hv] at hs
  obtain rfl := Option.some.inj hs
  obtain ⟨-, -, h, hh, hn⟩ := hi.counted.queued n t ht
  set u : World T := { w with
    counts := w.counts.set t.counter (w.counts t.counter - 1)
    tasks := w.tasks.set n none } with hu
  set r : Record T := { w.hist.record n with completed := true } with hr
  have hcells' : ∀ m, ((u.setRecord n r).hist.record m).cell = (w.hist.record m).cell :=
    setRecord_field (w := u) Record.cell rfl
  have hstored' : ∀ m, ((u.setRecord n r).hist.record m).stored =
      (w.hist.record m).stored := setRecord_field (w := u) Record.stored rfl
  have hwaited' : ∀ m, ((u.setRecord n r).hist.record m).waited = (w.hist.record m).waited :=
    setRecord_field (w := u) Record.waited rfl
  have hreleased' : ∀ m, ((u.setRecord n r).hist.record m).released =
      (w.hist.record m).released := setRecord_field (w := u) Record.released rfl
  have hcompleted' : ∀ m, ((u.setRecord n r).hist.record m).completed =
      if m = n then true else (w.hist.record m).completed := by
    intro m
    rw [record_setRecord]
    split <;> rfl
  have htasks' : ∀ m, (u.setRecord n r).tasks m = if m = n then none else w.tasks m :=
    fun _ => Table.get_set _ _ _ _
  have hcounts' : ∀ c, (u.setRecord n r).counts c =
      if c = t.counter then w.counts t.counter - 1 else w.counts c := fun _ => Table.get_set _ _ _ _
  refine ⟨hi.clean, hi.own.congr rfl rfl (fun _ _ => Iff.rfl) rfl rfl rfl hcells' (fun _ => id),
    ⟨hi.counted.counters, hi.counted.taken, ?_, ?_⟩, ⟨?_, ?_, ?_, ?_, ?_⟩, ?_⟩
  · intro k c hk
    rw [hcounts', htasks']
    show _ = if (if w.hist.issued k = n then none else w.tasks (w.hist.issued k)).isSome then
      (1 : Int) else 0
    have hcount : w.counts t.counter = 1 := hi.counted.count_one hh (hn ▸ ht)
    by_cases hkh : k = h
    · subst hkh
      rw [if_pos (Option.some.inj ((Eq.symm hk).trans hh)), hcount, if_pos hn]
      rfl
    · have hc : c ≠ t.counter := by
        rintro rfl
        exact hkh (hi.counted.counters k h _ hk hh)
      have hne : w.hist.issued k ≠ n := by
        intro heq
        refine hkh (hi.handle_unique ?_ ?_ (heq.trans hn.symm))
        · rw [show w.handles k = some c from hk]
          exact Option.some_ne_none _
        · rw [hh]
          exact Option.some_ne_none _
      rw [if_neg hc, if_neg hne]
      exact hi.counted.count k c hk
  · intro m t' ht'
    rw [htasks'] at ht'
    by_cases hm : m = n
    · rw [if_pos hm] at ht'
      cases ht'
    · rw [if_neg hm] at ht'
      rw [hcells', hcompleted', if_neg hm]
      exact hi.counted.queued m t' ht'
  · intro m hm
    rw [hcompleted', hstored', htasks']
    by_cases hmn : m = n
    · rw [if_pos hmn, if_pos hmn, hmn, hv]
      exact fun _ => ⟨rfl, Option.some_ne_none v⟩
    · rw [if_neg hmn, if_neg hmn]
      exact hi.recorded.completed m hm
  · intro m hm
    rw [hcompleted', hwaited']
    intro hwaited
    split
    · rfl
    · exact hi.recorded.waited m hm hwaited
  · intro m hm
    rw [hreleased', hwaited']
    exact hi.recorded.released m hm
  · intro x m v' hx
    rw [hcells', hstored']
    exact hi.recorded.written x m v' hx
  · intro m v' hm
    rw [hstored']
    exact hi.recorded.got m v' hm
  · have hhere := hi.here
    show (u.setRecord n r).AtPC w.pc
    cases hp : w.pc with
    | submitTasks f a h =>
        rw [hp] at hhere
        obtain ⟨hsync, hcell, hnone, hpending⟩ := hhere
        have hne : w.hist.issued h ≠ n := by
          rintro rfl
          rw [ht] at hnone
          cases hnone
        refine ⟨hsync, (hcells' _).trans hcell, ?_, ?_⟩
        · exact (htasks' _).trans ((if_neg hne).trans hnone)
        · exact (hcompleted' _).trans ((if_neg hne).trans hpending)
    | release f h k =>
        rw [hp] at hhere
        obtain ⟨hsync, hwaited, hk⟩ := hhere
        exact ⟨hsync, (hwaited' _).trans hwaited, hk⟩
    | _ =>
        rw [hp] at hhere
        exact hhere

/-! ## Waiting -/

/-- `Scheduler::wait` returns after the task has completed. -/
theorem waitReturns (hi : w.Inv) {k : After} (hp : w.pc = .wait f k) (hf : w.sync f = some h)
    (hdone : (w.hist.record (w.hist.issued h)).completed = true) :
    ((w.waitReturns h).goto (.release f h k)).Inv := by
  have hk : w.AtPC (.wait f k) := hp ▸ hi.here
  have hcells' : ∀ m, (((w.waitReturns h).goto (.release f h k)).hist.record m).cell =
      (w.hist.record m).cell := setRecord_field Record.cell rfl
  have hstored' : ∀ m, (((w.waitReturns h).goto (.release f h k)).hist.record m).stored =
      (w.hist.record m).stored := setRecord_field Record.stored rfl
  have hcompleted' : ∀ m, (((w.waitReturns h).goto (.release f h k)).hist.record m).completed =
      (w.hist.record m).completed := setRecord_field Record.completed rfl
  have hreleased' : ∀ m, (((w.waitReturns h).goto (.release f h k)).hist.record m).released =
      (w.hist.record m).released := setRecord_field Record.released rfl
  have hwaited' : ∀ m, (((w.waitReturns h).goto (.release f h k)).hist.record m).waited =
      if m = w.hist.issued h then true else (w.hist.record m).waited := by
    intro m
    refine (congrArg Record.waited (record_setRecord w _ _ m)).trans ?_
    split <;> rfl
  refine ⟨hi.clean, hi.own.congr rfl rfl (fun x k' => ?_) rfl rfl rfl hcells' (fun _ => id),
    ⟨hi.counted.counters, hi.counted.taken, hi.counted.count, ?_⟩, ⟨?_, ?_, ?_, ?_, ?_⟩, hf, ?_, hk⟩
  · rw [holds_iff_of_ready rfl, holds_iff_of_ready (by rw [hp]; rfl)]
    rfl
  · intro m t ht
    rw [hcells', hcompleted']
    exact hi.counted.queued m t ht
  · intro m hm
    rw [hcompleted', hstored']
    exact hi.recorded.completed m hm
  · intro m hm
    rw [hcompleted', hwaited']
    split
    · next heq => exact fun _ => heq ▸ hdone
    · exact hi.recorded.waited m hm
  · intro m hm
    rw [hreleased', hwaited']
    rcases hi.recorded.released m hm with hlive | ⟨hone, hwaited, hdead⟩
    · exact Or.inl hlive
    · refine Or.inr ⟨hone, ?_, hdead⟩
      split
      · rfl
      · exact hwaited
  · intro x m v hx
    rw [hcells', hstored']
    exact hi.recorded.written x m v hx
  · intro m v hm
    rw [hstored']
    exact hi.recorded.got m v hm
  · rw [hwaited']
    exact if_pos rfl

/-- After the wait the counter is on target. -/
theorem on_target (hi : w.Inv) (hh : w.handles h = some c)
    (hwaited : (w.hist.record (w.hist.issued h)).waited = true) : w.counts c = 0 := by
  have hlt := hi.own.issued_lt (h := h) (by rw [hh]; exact Option.some_ne_none _)
  have hdone := hi.recorded.waited _ hlt hwaited
  exact hi.counted.count_zero hh (hi.recorded.completed _ hlt hdone).1

section Release

variable (hi : w.Inv) {k : After} (hp : w.pc = .release f h k) (hh : w.handles h = some c)

/-- The world after `releaseCounterIfOnTarget` on target, with the sync marked as uninitialized. -/
def released (w : World T) (f h c : Nat) : World T :=
  (w.releaseHandle h c).setFuture f (some ⟨none, w.value f⟩)

theorem released_sync (w : World T) (f h c x : Nat) :
    (released w f h c).sync x = if x = f then none else w.sync x := sync_setFuture _ _ _ _

theorem released_value (w : World T) (f h c : Nat) : (released w f h c).value = w.value := by
  funext x
  refine (value_setFuture _ _ _ x).trans ?_
  split
  · next hx => rw [hx]; rfl
  · rfl

theorem released_handles (w : World T) (f h c j : Nat) :
    (released w f h c).handles j = if j = h then none else w.handles j := Table.get_set _ _ _ _

/-- Only the number of releases changes in the records. -/
theorem released_field {β : Type} (φ : Record T → β) (hφ : ∀ (r : Record T) m,
    φ { r with released := m } = φ r) (f c m : Nat) :
    φ ((released w f h c).hist.record m) = φ (w.hist.record m) :=
  setRecord_field φ (hφ _ _) m

theorem released_released (w : World T) (f h c m : Nat) :
    ((released w f h c).hist.record m).released =
      if m = w.hist.issued h then (w.hist.record m).released + 1 else (w.hist.record m).released := by
  refine (congrArg Record.released (record_setRecord _ _ _ m)).trans ?_
  split
  · next hm => rw [hm]
  · rfl

include hi hh in
theorem live_released {m : Nat} :
    (released w f h c).Live m ↔ m ≠ w.hist.issued h ∧ w.Live m := by
  constructor
  · rintro ⟨j, hj, rfl⟩
    rw [released_handles] at hj
    have hjh : j ≠ h := fun heq => hj (if_pos heq)
    rw [if_neg hjh] at hj
    have halive : w.handles h ≠ none := by
      rw [hh]
      exact Option.some_ne_none _
    exact ⟨fun heq => hjh (hi.handle_unique hj halive heq), j, hj, rfl⟩
  · rintro ⟨hm, j, hj, rfl⟩
    refine ⟨j, ?_, rfl⟩
    rw [released_handles, if_neg]
    · exact hj
    · rintro rfl
      exact hm rfl

include hi hp in
theorem owned_released : ((released w f h c).goto (.finish f k)).Owned := by
  obtain ⟨hf, -, -⟩ : w.AtPC (.release f h k) := hp ▸ hi.here
  have hholds : ∀ x j, ((released w f h c).goto (.finish f k)).Holds x j ↔
      x ≠ f ∧ w.sync x = some j := by
    intro x j
    rw [holds_iff_of_ready rfl]
    show (released w f h c).sync x = some j ↔ _
    rw [released_sync]
    by_cases hx : x = f <;> simp [hx]
  refine ⟨hi.own.linear, ?_, ?_, ?_, ?_, ?_⟩
  · show Linear (released w f h c).value
    rw [released_value]
    exact hi.own.cells
  · intro x j hx
    obtain ⟨hxf, hj⟩ := (hholds x j).1 hx
    obtain ⟨howner, halive⟩ := hi.own.held x j (Or.inl hj)
    refine ⟨howner, ?_⟩
    show (released w f h c).handles j ≠ none
    rw [released_handles, if_neg]
    · exact halive
    · rintro rfl
      exact hxf (hi.own.holder_unique (Or.inl hj) (Or.inl hf))
  · intro j hj
    replace hj : (released w f h c).handles j ≠ none := hj
    rw [released_handles] at hj
    have hjh : j ≠ h := fun heq => hj (if_pos heq)
    rw [if_neg hjh] at hj
    obtain ⟨x, hx⟩ := hi.own.covered j hj
    rw [holds_iff_of_ready (by rw [hp]; rfl)] at hx
    refine ⟨x, (hholds x j).2 ⟨?_, hx⟩⟩
    rintro rfl
    exact hjh (Option.some.inj (hx.symm.trans hf))
  · intro x m hx
    show m < w.hist.next ∧ (released w f h c).value x =
      some ((released w f h c).hist.record m).cell
    rw [released_value, released_field Record.cell (fun _ _ => rfl)]
    exact hi.own.owned x m hx
  · intro x b hx
    replace hx : (released w f h c).value x = some b := hx
    rw [released_value] at hx
    exact hi.own.allocated x b hx

include hi hp hh in
theorem counted_released : (released w f h c).Counted := by
  obtain ⟨-, hwaited, -⟩ : w.AtPC (.release f h k) := hp ▸ hi.here
  have hlt := hi.own.issued_lt (h := h) (by rw [hh]; exact Option.some_ne_none _)
  have hback : ∀ j c', (released w f h c).handles j = some c' → j ≠ h ∧ w.handles j = some c' := by
    intro j c' hj
    rw [released_handles] at hj
    split at hj
    · cases hj
    · next hjh => exact ⟨hjh, hj⟩
  refine ⟨hi.counted.counters.mono fun j c' hj => (hback j c' hj).2, ?_, ?_, ?_⟩
  · intro j c' hj
    obtain ⟨hjh, hold⟩ := hback j c' hj
    show (w.free.set c true) c' = false
    rw [Table.get_set_ne]
    · exact hi.counted.taken j c' hold
    · rintro rfl
      exact hjh (hi.counted.counters j h _ hold hh)
  · exact fun j c' hj => hi.counted.count j c' (hback j c' hj).2
  · intro m t ht
    rw [released_field Record.cell (fun _ _ => rfl), released_field Record.completed (fun _ _ => rfl)]
    obtain ⟨hcell, hpending, j, hj, hm⟩ := hi.counted.queued m t ht
    refine ⟨hcell, hpending, j, ?_, hm⟩
    rw [released_handles, if_neg]
    · exact hj
    · rintro rfl
      rw [← hm, hi.recorded.waited _ hlt hwaited] at hpending
      cases hpending

include hi hp hh in
theorem recorded_released : (released w f h c).Recorded := by
  obtain ⟨-, hwaited, -⟩ : w.AtPC (.release f h k) := hp ▸ hi.here
  have halive : w.handles h ≠ none := by
    rw [hh]
    exact Option.some_ne_none _
  refine ⟨?_, ?_, ?_, ?_, ?_⟩
  · intro m hm
    rw [released_field Record.completed (fun _ _ => rfl), released_field Record.stored (fun _ _ => rfl)]
    exact hi.recorded.completed m hm
  · intro m hm
    rw [released_field Record.completed (fun _ _ => rfl), released_field Record.waited (fun _ _ => rfl)]
    exact hi.recorded.waited m hm
  · intro m hm
    rw [released_released, released_field Record.waited (fun _ _ => rfl), hi.live_released hh]
    by_cases hmh : m = w.hist.issued h
    · rw [if_pos hmh]
      refine Or.inr ⟨?_, hmh ▸ hwaited, fun hl => hl.1 hmh⟩
      rcases hi.recorded.released m hm with ⟨hzero, -⟩ | ⟨-, -, hdead⟩
      · rw [hzero]
      · exact absurd ⟨h, halive, hmh.symm⟩ hdead
    · rw [if_neg hmh]
      rcases hi.recorded.released m hm with ⟨hzero, hlive⟩ | ⟨hone, hw, hdead⟩
      · exact Or.inl ⟨hzero, hmh, hlive⟩
      · exact Or.inr ⟨hone, hw, fun hl => hdead hl.2⟩
  · intro x m v hx
    rw [released_field Record.cell (fun _ _ => rfl), released_field Record.stored (fun _ _ => rfl)]
    exact hi.recorded.written x m v hx
  · intro m v hm
    rw [released_field Record.stored (fun _ _ => rfl)]
    exact hi.recorded.got m v hm

include hi hp hh in
theorem release : ((released w f h c).goto (.finish f k)).Inv := by
  obtain ⟨-, -, hk⟩ : w.AtPC (.release f h k) := hp ▸ hi.here
  have hcounted := hi.counted_released hp hh
  have hrecorded := hi.recorded_released hp hh
  exact ⟨hi.clean, hi.owned_released hp,
    ⟨hcounted.counters, hcounted.taken, hcounted.count, hcounted.queued⟩,
    ⟨hrecorded.completed, hrecorded.waited, hrecorded.released, hrecorded.written, hrecorded.got⟩,
    (released_sync w f h c f).trans (if_pos rfl), hk⟩

end Release

/-! ## Moving and destroying -/

theorem moveInto (hi : w.Inv) {rhs : Nat} (hp : w.pc.submitting = none) (hne : f ≠ rhs)
    (hsync : w.sync f = none) (hvalue : w.value f = none) (howner : w.owner f = none) :
    ((w.moveInto f rhs).goto .ready).Inv := by
  have hs : Moved w.sync ((w.moveInto f rhs).goto .ready).sync rhs f :=
    (w.moveInto_sync f rhs).symm ▸ moved_of_swap hne hsync
  have hv : Moved w.value ((w.moveInto f rhs).goto .ready).value rhs f :=
    (w.moveInto_value f rhs).symm ▸ moved_of_swap hne hvalue
  have ho : Moved w.owner ((w.moveInto f rhs).goto .ready).owner rhs f :=
    (w.moveInto_owner f rhs).symm ▸ moved_of_swap hne howner
  refine ⟨hi.clean, ⟨ho.linear hi.own.linear, hv.linear hi.own.cells, ?_, ?_, ?_, ?_⟩,
    ⟨hi.counted.counters, hi.counted.taken, hi.counted.count, hi.counted.queued⟩,
    ⟨hi.recorded.completed, hi.recorded.waited, hi.recorded.released, ?_, hi.recorded.got⟩, trivial⟩
  · intro x h hx
    rw [holds_iff_of_ready rfl] at hx
    rcases hs.source hx with ⟨hxf, hr⟩ | ⟨hxr, hxf, hr⟩
    · rw [hxf, ho.here]
      exact hi.own.held rhs h (Or.inl hr)
    · rw [ho.other x hxr hxf]
      exact hi.own.held x h (Or.inl hr)
  · intro h hh
    have htotal : Total (fun h => w.handles h ≠ none) w.sync := by
      intro k hk
      obtain ⟨x, hx⟩ := hi.own.covered k hk
      exact ⟨x, (holds_iff_of_ready hp).1 hx⟩
    obtain ⟨x, hx⟩ := hs.total htotal h hh
    exact ⟨x, Or.inl hx⟩
  · intro x n hx
    rcases ho.source hx with ⟨hxf, hr⟩ | ⟨hxr, hxf, hr⟩
    · rw [hxf, hv.here]
      exact hi.own.owned rhs n hr
    · rw [hv.other x hxr hxf]
      exact hi.own.owned x n hr
  · intro x b hx
    rcases hv.source hx with ⟨-, hr⟩ | ⟨-, -, hr⟩
    · exact hi.own.allocated rhs b hr
    · exact hi.own.allocated x b hr
  · intro x n v hx
    rcases ho.source hx with ⟨-, hr⟩ | ⟨-, -, hr⟩
    · exact hi.recorded.written rhs n v hr
    · exact hi.recorded.written x n v hr

/-- The cell that a future without a handle deletes is not needed any more. -/
theorem deleteValue (hi : w.Inv) (hp : w.pc.submitting = none) (hsync : w.sync f = none) :
    ((w.deleteValue f).goto .ready).Inv ∧ (w.deleteValue f).sync = w.sync ∧
      (w.deleteValue f).value f = none ∧ (w.deleteValue f).owner f = none := by
  set u : World T := (w.setFuture f (some ⟨w.sync f, none⟩)).setOwner f none with hu
  obtain ⟨cells', hdelete, hkept⟩ : ∃ cells', w.deleteValue f = { u with cells := cells' } ∧
      ∀ b, w.value f ≠ some b → cells' b = w.cells b := by
    unfold World.deleteValue
    cases hv : w.value f with
    | none => exact ⟨w.cells, rfl, fun _ _ => rfl⟩
    | some a =>
        cases ha : w.cells a with
        | none => exact absurd ha (hi.own.allocated f a hv)
        | some v =>
            refine ⟨w.cells.set a none, ?_, fun b hb => Table.get_set_ne _ _ ?_⟩
            · simp only [ha]
              rfl
            · rintro rfl
              exact hb rfl
  rw [hdelete]
  set w' : World T := ({ u with cells := cells' } : World T).goto .ready with hw'
  have hsync' : w'.sync = w.sync := by
    funext x
    refine (sync_setFuture w f _ x).trans ?_
    split
    · next hx => rw [hx]; rfl
    · rfl
  have hvalue' : ∀ x, w'.value x =
      if x = f then none else w.value x := value_setFuture w f _
  have howner' : ∀ x, w'.owner x =
      if x = f then none else w.owner x := owner_setOwner _ f none
  refine ⟨⟨hi.clean, ⟨?_, ?_, ?_, ?_, ?_, ?_⟩,
    ⟨hi.counted.counters, hi.counted.taken, hi.counted.count, hi.counted.queued⟩,
    ⟨hi.recorded.completed, hi.recorded.waited, hi.recorded.released, ?_, hi.recorded.got⟩, trivial⟩,
    hsync', (hvalue' f).trans (if_pos rfl), (howner' f).trans (if_pos rfl)⟩
  · apply hi.own.linear.mono
    intro x n hx
    rw [howner'] at hx
    split at hx
    · cases hx
    · exact hx
  · apply hi.own.cells.mono
    intro x b hx
    rw [hvalue'] at hx
    split at hx
    · cases hx
    · exact hx
  · intro x h hx
    rw [holds_iff_of_ready rfl] at hx
    have hx' : w.sync x = some h := hsync' ▸ hx
    rw [howner', if_neg]
    · exact hi.own.held x h (Or.inl hx')
    · rintro rfl
      rw [hsync] at hx'
      cases hx'
  · intro h hh
    obtain ⟨x, hx⟩ := hi.own.covered h hh
    refine ⟨x, Or.inl ?_⟩
    rw [hsync']
    exact (holds_iff_of_ready hp).1 hx
  · intro x n hx
    rw [howner'] at hx
    split at hx
    · cases hx
    next hxf =>
    rw [hvalue', if_neg hxf]
    exact hi.own.owned x n hx
  · intro x b hx
    rw [hvalue'] at hx
    split at hx
    · cases hx
    next hxf =>
    show cells' b ≠ none
    rw [hkept b]
    · exact hi.own.allocated x b hx
    · exact fun hf => hxf (hi.own.cells x f b hx hf)
  · intro x n v hx hv
    rw [howner'] at hx
    split at hx
    · cases hx
    next hxf =>
    show cells' (w.hist.record n).cell = some v
    rw [hkept]
    · exact hi.recorded.written x n v hx hv
    · exact fun hf => hxf (hi.own.cells x f _ (hi.own.owned x n hx).2 hf)

/-- The end of the life of a future that holds nothing. -/
theorem endLife (hi : w.Inv) (hp : w.pc = .ready) (hsync : w.sync f = none)
    (hvalue : w.value f = none) : (w.setFuture f none).Inv := by
  have hsync' : (w.setFuture f none).sync = w.sync := by
    funext x
    rw [sync_setFuture]
    split
    · next hx => rw [hx, hsync]; rfl
    · rfl
  have hvalue' : (w.setFuture f none).value = w.value := by
    funext x
    rw [value_setFuture]
    split
    · next hx => rw [hx, hvalue]; rfl
    · rfl
  refine ⟨hi.clean, hi.own.congr rfl hvalue' (fun x k => ?_) rfl rfl rfl (fun _ => rfl)
    (fun _ => id), ⟨hi.counted.counters, hi.counted.taken, hi.counted.count, hi.counted.queued⟩,
    ⟨hi.recorded.completed, hi.recorded.waited, hi.recorded.released, hi.recorded.written,
      hi.recorded.got⟩, ?_⟩
  · unfold Holds
    rw [hsync']
    rfl
  · show World.AtPC _ w.pc
    rw [hp]
    trivial

/-- A future without a handle has the value of the submission it owns. -/
theorem deref_stored (hi : w.Inv) (hp : w.pc.submitting = none) (hsync : w.sync f = none)
    (ho : w.owner f = some n) :
    ∃ v, (w.hist.record n).stored = some v ∧ w.deref f = some v := by
  obtain ⟨hn, hvalue⟩ := hi.own.owned f n ho
  have hdead : ¬ w.Live n := by
    intro hlive
    obtain ⟨g, h, hg, -, hgn⟩ := hi.owner_of_live hlive
    obtain rfl := hi.own.linear f g n ho hgn
    rw [holds_iff_of_ready hp, hsync] at hg
    cases hg
  have hwaited : (w.hist.record n).waited = true := by
    rcases hi.recorded.released n hn with ⟨-, hlive⟩ | ⟨-, hwaited, -⟩
    · exact absurd hlive hdead
    · exact hwaited
  have hstored := (hi.recorded.completed n hn (hi.recorded.waited n hn hwaited)).2
  obtain ⟨v, hv⟩ := Option.ne_none_iff_exists'.1 hstored
  refine ⟨v, hv, ?_⟩
  unfold deref
  rw [hvalue]
  exact hi.recorded.written f n v ho hv

/-! ## Steps -/

theorem got (hi : w.Inv) (hp : w.pc.submitting = none) {f : Nat} {v : T} (hsync : w.sync f = none)
    (hv : w.deref f = some v) :
    ({ w with hist := { w.hist with got := (w.owner f, v) :: w.hist.got } }.goto .ready).Inv := by
  refine ⟨hi.clean, hi.own.congr rfl rfl (fun x k => ?_) rfl rfl rfl (fun _ => rfl) (fun _ => id),
    ⟨hi.counted.counters, hi.counted.taken, hi.counted.count, hi.counted.queued⟩,
    ⟨hi.recorded.completed, hi.recorded.waited, hi.recorded.released, hi.recorded.written, ?_⟩,
    trivial⟩
  · rw [holds_iff_of_ready rfl, holds_iff_of_ready hp]
    rfl
  · intro n v' hmem
    rcases List.mem_cons.1 hmem with heq | hmem
    · obtain ⟨ho, rfl⟩ := Prod.mk.inj heq
      obtain ⟨v'', hstored, hderef⟩ := hi.deref_stored hp hsync ho.symm
      rw [hv] at hderef
      exact ⟨(hi.own.owned f n ho.symm).1, hderef ▸ hstored⟩
    · exact hi.recorded.got n v' hmem

theorem finish (hi : w.Inv) {k : After} (hp : w.pc = .finish f k) {w' : World T}
    (hs : w.finish f k = some w') : w'.Inv := by
  obtain ⟨hsync, hk⟩ : w.AtPC (.finish f k) := hp ▸ hi.here
  have hready : w.pc.submitting = none := by
    rw [hp]
    rfl
  cases k with
  | get =>
      obtain ⟨a, ha, rfl⟩ := Option.map_eq_some_iff.1 hs
      cases hv : w.cells a with
      | none => exact absurd hv (hi.own.allocated f a ha)
      | some v =>
          refine hi.got hready hsync ?_
          unfold deref
          rw [ha]
          exact hv
  | assign rhs =>
      obtain rfl := Option.some.inj hs
      obtain ⟨hd, hdsync, hdvalue, hdowner⟩ := hi.deleteValue hready hsync
      exact hd.moveInto rfl (hk rhs rfl) ((congrFun hdsync f).trans hsync) hdvalue hdowner
  | destroy =>
      obtain rfl := Option.some.inj hs
      obtain ⟨hd, hdsync, hdvalue, -⟩ := hi.deleteValue hready hsync
      exact hd.endLife rfl ((congrFun hdsync f).trans hsync) hdvalue

theorem advance (hi : w.Inv) (hg : WaitsForTask w .go) {w' : World T}
    (hs : w.advance = some w') : w'.Inv := by
  have hhere := hi.here
  unfold World.advance at hs
  cases hp : w.pc with
  | submitTasks f a h =>
      rw [hp] at hs
      have hheld := (hi.own.held f h (Or.inr (by rw [hp]; rfl))).2
      cases hh : w.handles h with
      | none => exact absurd hh hheld
      | some c =>
          simp only [hh] at hs
          obtain rfl := Option.some.inj hs
          exact hi.submitTasks hp hh
  | setSync f h =>
      rw [hp] at hs
      obtain rfl := Option.some.inj hs
      exact hi.setSync hp
  | wait f k =>
      rw [hp] at hs hhere
      cases hf : w.sync f with
      | none =>
          simp only [hf] at hs
          obtain rfl := Option.some.inj hs
          exact hi.goto (by rw [hp]; rfl) ⟨hf, hhere⟩
      | some h =>
          cases hh : w.handles h with
          | none => exact absurd hh (hi.own.held f h (Or.inl hf)).2
          | some c =>
              simp only [hf, hh] at hs
              obtain rfl := Option.some.inj hs
              exact hi.waitReturns hp hf (hg f k h hp rfl hf)
  | release f h k =>
      rw [hp] at hs hhere
      cases hh : w.handles h with
      | none => exact absurd hh (hi.own.held f h (Or.inl hhere.1)).2
      | some c =>
          simp only [hh, if_pos (hi.on_target hh hhere.2.1)] at hs
          obtain rfl := Option.some.inj hs
          exact hi.release hp hh
  | finish f k =>
      rw [hp] at hs
      exact hi.finish hp hs
  | _ =>
      rw [hp] at hs
      cases hs

theorem live_of_sync (hi : w.Inv) (hf : w.futures f = none) :
    w.sync f = none ∧ w.value f = none ∧ w.owner f = none := by
  have hvalue : w.value f = none := by
    unfold value
    rw [hf]
    rfl
  refine ⟨by unfold sync; rw [hf]; rfl, hvalue, ?_⟩
  cases ho : w.owner f with
  | none => rfl
  | some n =>
      rw [(hi.own.owned f n ho).2] at hvalue
      cases hvalue

theorem call (hi : w.Inv) (hp : w.pc = .ready) {o : Op} {w' : World T}
    (hs : w.call o = some w') : w'.Inv := by
  have hready : w.pc.submitting = none := by
    rw [hp]
    rfl
  have hwait : ∀ f k, (∀ rhs, k = .assign rhs → f ≠ rhs) → (w.goto (.wait f k)).Inv :=
    fun f k hk => hi.goto (by rw [hp]; rfl) hk
  unfold World.call at hs
  cases o with
  | submit f =>
      cases hf : w.futures f with
      | none =>
          simp only [hf] at hs
          obtain rfl := Option.some.inj hs
          exact hi.goto (by rw [hp]; rfl) (hi.live_of_sync hf)
      | some F =>
          simp only [hf] at hs
          cases hs
  | moveConstruct f rhs =>
      cases hf : w.futures f with
      | some F =>
          simp only [hf] at hs
          cases hs
      | none =>
      cases hr : w.futures rhs with
      | none =>
          simp only [hf, hr] at hs
          cases hs
      | some R =>
          simp only [hf, hr] at hs
          obtain rfl := Option.some.inj hs
          obtain ⟨hsync, hvalue, howner⟩ := hi.live_of_sync hf
          have hne : f ≠ rhs := by
            rintro rfl
            rw [hf] at hr
            cases hr
          have hmoved := hi.moveInto hready hne hsync hvalue howner
          have hgoto : (w.moveInto f rhs).goto .ready = w.moveInto f rhs := by
            unfold World.goto
            rw [← hp]
            rfl
          rwa [hgoto] at hmoved
  | moveAssign f rhs =>
      cases hf : w.futures f with
      | none =>
          simp only [hf] at hs
          cases hs
      | some F =>
      cases hr : w.futures rhs with
      | none =>
          simp only [hf, hr] at hs
          cases hs
      | some R =>
          simp only [hf, hr] at hs
          split at hs
          · obtain rfl := Option.some.inj hs
            exact hi
          next hne =>
            obtain rfl := Option.some.inj hs
            refine hwait f _ fun rhs' heq => ?_
            cases heq
            exact hne
  | get f =>
      obtain ⟨F, -, rfl⟩ := Option.map_eq_some_iff.1 hs
      refine hwait f _ fun rhs heq => ?_
      cases heq
  | getUnpinned f =>
      obtain ⟨F, -, rfl⟩ := Option.map_eq_some_iff.1 hs
      refine hwait f _ fun rhs heq => ?_
      cases heq
  | destroy f =>
      obtain ⟨F, -, rfl⟩ := Option.map_eq_some_iff.1 hs
      refine hwait f _ fun rhs heq => ?_
      cases heq

theorem step [Inhabited T] (hi : w.Inv) {l : Label T} (hg : WaitsForTask w l) {w' : World T}
    (hs : w.step l = some w') : w'.Inv := by
  unfold World.step at hs
  rw [hi.clean] at hs
  cases l with
  | call o =>
      cases hp : w.pc with
      | ready =>
          simp only [hp] at hs
          exact hi.call hp hs
      | _ =>
          simp only [hp] at hs
          cases hs
  | go => exact hi.advance hg hs
  | cell a =>
      simp only [World.cell] at hs
      split at hs
      · next f hp ha =>
          obtain rfl := Option.some.inj hs
          exact hi.construct hp ha
      · cases hs
  | handle h c =>
      simp only [World.handle] at hs
      split at hs
      · next f a hp hh hc =>
          obtain rfl := Option.some.inj hs
          exact hi.acquire hp hh hc
      · cases hs
  | store n v => exact hi.store hs
  | complete n => exact hi.complete hs

theorem start [Inhabited T] : (World.start : World T).Inv where
  clean := rfl
  own := {
    linear := fun f g n hf => by cases hf
    cells := fun f g a hf => by cases hf
    held := by
      rintro f h (hf | hf)
      · cases hf
      · cases hf
    covered := fun h hh => absurd rfl hh
    owned := fun f n hf => by cases hf
    allocated := fun f a hf => by cases hf }
  counted := {
    counters := fun h k c hh => by cases hh
    taken := fun h c hh => by cases hh
    count := fun h c hh => by cases hh
    queued := fun n t ht => by cases ht }
  recorded := {
    completed := fun n hn => absurd hn (Nat.not_lt_zero n)
    waited := fun n hn => absurd hn (Nat.not_lt_zero n)
    released := fun n hn => absurd hn (Nat.not_lt_zero n)
    written := fun f n v hf => by cases hf
    got := fun n v hv => by cases hv }
  here := trivial

end Inv

/-! ## Linear ownership -/

end World

open World

end TaskDispatcher.Submit.Futures
