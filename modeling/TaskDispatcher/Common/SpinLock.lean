import TaskDispatcher.Library.Atomic

/-!
# `SpinLock`

The test-and-test-and-set lock, one access at a time.  A thread that calls `unlock` holds
the lock, as the destructor of a `LockGuard` does.
-/

namespace TaskDispatcher.Common.SpinLock

open TaskDispatcher.Library

/-- The accesses of `lock`. -/
inductive LockPC where
  | exchange
  | spin                    -- the load of the inner loop
  deriving DecidableEq, Repr

/-- The accesses of `try_lock`. -/
inductive TryPC where
  | load
  | exchange
  deriving DecidableEq, Repr

inductive Caller where
  | idle
  | lock (pc : LockPC)
  | tryLock (pc : TryPC)
  | unlock
  deriving DecidableEq, Repr

/-- One access of `lock`; `none` where it returns. -/
def lockStep (isLocked : Bool) : LockPC → Bool × Option LockPC
  | .exchange => (true, if isLocked = false then none else some .spin)
  | .spin => (isLocked, if isLocked then some .spin else some .exchange)

/-- One access of `try_lock`. -/
def tryStep (isLocked : Bool) : TryPC → Bool × (TryPC ⊕ Bool)
  | .load => (isLocked, if isLocked then .inr false else .inl .exchange)
  | .exchange => (true, .inr (!isLocked))

inductive LockOp where
  | lock
  | tryLock
  | unlock
  deriving DecidableEq, Repr

inductive LockRes where
  | locked
  | tried (b : Bool)
  | unlocked
  deriving DecidableEq, Repr

/-- A lock and the threads `A` that use it. -/
structure System (A : Type) where
  isLocked : Bool
  caller : A → Caller
  -- history
  owner : Option A

/-- A thread begins a call or makes the next access of the one it is in. -/
inductive Action (A : Type) where
  | lock (a : A)
  | tryLock (a : A)
  | unlock (a : A)
  | access (a : A)
  deriving DecidableEq, Repr

variable {A : Type}

def start : System A where
  isLocked := false
  caller := fun _ => .idle
  owner := none

/-! ## The atomic lock -/

/-- A lock that belongs to one thread at most. -/
inductive LockEffect (a : A) : Option A → LockOp → Option A → LockRes → Prop where
  | lock : LockEffect a none .lock (some a) .locked
  | taken : LockEffect a none .tryLock (some a) (.tried true)
  | busy {b : A} : LockEffect a (some b) .tryLock (some b) (.tried false)
  | unlock : LockEffect a (some a) .unlock none .unlocked

/-- The steps of the atomic lock: what the other threads are doing does not matter. -/
abbrev Spec [DecidableEq A] :
    Atomic (Option A) A LockOp LockRes → Option (Visible A LockOp LockRes) →
      Atomic (Option A) A LockOp LockRes → Prop :=
  Atomic.Step fun _ => LockEffect

/-- What an event says about thread `a` holding the lock. -/
def holdsAfter [DecidableEq A] (a : A) (held : Bool) : Visible A LockOp LockRes → Bool
  | .ret b .locked => if b = a then true else held
  | .ret b (.tried true) => if b = a then true else held
  | .invoke b .unlock => if b = a then false else held
  | _ => held

/-- Thread `a` has returned from `lock`, or from `try_lock` with true, and not called
`unlock` since. -/
def holds [DecidableEq A] (a : A) (es : List (Visible A LockOp LockRes)) : Bool :=
  es.foldl (holdsAfter a) false

/-- The operation that gives the lock back. -/
def Unlocking : Status LockOp LockRes → Prop
  | .pending .unlock => True
  | .decided .unlock _ => True
  | _ => False

/-- The answers of an operation that has taken the lock. -/
def Takes (r : LockRes) : Prop := r = .locked ∨ r = .tried true

/-- An operation that has taken the lock and not returned. -/
def Won : Status LockOp LockRes → Prop
  | .decided _ r => Takes r
  | _ => False

/-- Only the thread that owns the lock changes its value. -/
theorem LockEffect.value_of_ne {a b : A} (hab : a ≠ b) {v : Option A} {o : LockOp} {v' : Option A}
    {r : LockRes} (h : LockEffect b v o v' r) (hv : v = some a) : v' = some a := by
  cases h with
  | lock => cases hv
  | taken => cases hv
  | busy => exact hv
  | unlock => exact absurd (Option.some.inj hv).symm hab

section Exclusive

variable [DecidableEq A] {es : List (Visible A LockOp LockRes)}
  {t u : Atomic (Option A) A LockOp LockRes} {a b : A}

theorem holds_append (a : A) (es : List (Visible A LockOp LockRes))
    (e : Visible A LockOp LockRes) : holds a (es ++ [e]) = holdsAfter a (holds a es) e := by
  unfold holds
  rw [List.foldl_append, List.foldl_cons, List.foldl_nil]

theorem holds_of_invoke {o : LockOp} (h : holds a (es ++ [.invoke b o]) = true) :
    holds a es = true ∧ (a = b → o ≠ .unlock) := by
  rw [holds_append] at h
  cases o with
  | lock => exact ⟨h, fun _ heq => nomatch heq⟩
  | tryLock => exact ⟨h, fun _ heq => nomatch heq⟩
  | unlock =>
      simp only [holdsAfter] at h
      by_cases hba : b = a
      · rw [if_pos hba] at h
        cases h
      · rw [if_neg hba] at h
        exact ⟨h, fun hab => absurd hab.symm hba⟩

theorem holds_of_ret {r : LockRes} (h : holds a (es ++ [.ret b r]) = true) :
    holds a es = true ∨ a = b ∧ Takes r := by
  rw [holds_append] at h
  by_cases hba : b = a
  · match r, h with
    | .locked, _ => exact Or.inr ⟨hba.symm, Or.inl rfl⟩
    | .tried true, _ => exact Or.inr ⟨hba.symm, Or.inr rfl⟩
    | .tried false, h => exact Or.inl h
    | .unlocked, h => exact Or.inl h
  · left
    match r, h with
    | .locked, h => simpa only [holdsAfter, if_neg hba] using h
    | .tried true, h => simpa only [holdsAfter, if_neg hba] using h
    | .tried false, h => exact h
    | .unlocked, h => exact h

/-- What the atomic lock knows of the threads that hold it by the events. -/
structure Owns (es : List (Visible A LockOp LockRes)) (t : Atomic (Option A) A LockOp LockRes) :
    Prop where
  value : ∀ a, holds a es = true → t.value = some a
  keeps : ∀ a, holds a es = true → ¬ Unlocking (t.status a)
  won : ∀ a, Won (t.status a) → t.value = some a

/-- A thread that does not hold the lock by the events so far has a new status. -/
theorem Owns.update (h : Owns es t) {x : Status LockOp LockRes} {v : Option A}
    (hother : ∀ a, a ≠ b → t.value = some a → v = some a)
    (hholds : holds b es = true → v = some b ∧ ¬ Unlocking x) (hwon : Won x → v = some b) :
    Owns es { value := v, status := Function.update t.status b x } := by
  constructor
  · intro a ha
    by_cases hab : a = b
    · subst hab
      exact (hholds ha).1
    · exact hother a hab (h.value a ha)
  · intro a ha
    show ¬ Unlocking (Function.update t.status b x a)
    by_cases hab : a = b
    · subst hab
      rw [Function.update_self]
      exact (hholds ha).2
    · rw [Function.update_of_ne hab]
      exact h.keeps a ha
  · intro a ha
    change Won (Function.update t.status b x a) at ha
    by_cases hab : a = b
    · subst hab
      rw [Function.update_self] at ha
      exact hwon ha
    · rw [Function.update_of_ne hab] at ha
      exact hother a hab (h.won a ha)

theorem Owns.invoke (h : Owns es t) (o : LockOp) :
    Owns (es ++ [.invoke b o]) { t with status := Function.update t.status b (.pending o) } := by
  have hes : Owns (es ++ [.invoke b o]) t := by
    refine ⟨fun a ha => h.value a (holds_of_invoke ha).1, fun a ha => ?_, h.won⟩
    exact h.keeps a (holds_of_invoke ha).1
  apply hes.update
  · intro a _ hvalue
    exact hvalue
  · intro hholds
    refine ⟨hes.value b hholds, ?_⟩
    have hne := (holds_of_invoke hholds).2 rfl
    cases o with
    | lock => exact id
    | tryLock => exact id
    | unlock => exact absurd rfl hne
  · intro hwon
    cases hwon

theorem Owns.commit (h : Owns es t) {o : LockOp} {v : Option A} {r : LockRes}
    (hpending : t.status b = .pending o) (heffect : LockEffect b t.value o v r) :
    Owns es { value := v, status := Function.update t.status b (.decided o r) } := by
  apply h.update
  · intro a hab hvalue
    exact heffect.value_of_ne hab hvalue
  · intro hholds
    have hkeeps := h.keeps b hholds
    have hvalue := h.value b hholds
    rw [hpending] at hkeeps
    rw [hvalue] at heffect
    cases heffect with
    | busy => exact ⟨rfl, id⟩
    | unlock => exact absurd trivial hkeeps
  · intro hwon
    generalize t.value = w at heffect
    cases heffect with
    | lock => rfl
    | taken => rfl
    | busy => rcases hwon with hwon | hwon <;> cases hwon
    | unlock => rcases hwon with hwon | hwon <;> cases hwon

theorem Owns.ret (h : Owns es t) {o : LockOp} {r : LockRes} (hdecided : t.status b = .decided o r) :
    Owns (es ++ [.ret b r]) { t with status := Function.update t.status b .idle } := by
  have hidle : Owns es { t with status := Function.update t.status b .idle } := by
    apply h.update
    · intro a _ hvalue
      exact hvalue
    · intro hholds
      exact ⟨h.value b hholds, id⟩
    · intro hwon
      cases hwon
  have hnew : ∀ a, a = b → Takes r → t.value = some a := by
    intro a hab htakes
    subst hab
    apply h.won a
    rwa [hdecided]
  refine ⟨fun a ha => ?_, fun a ha => ?_, hidle.won⟩
  · rcases holds_of_ret ha with hheld | ⟨hab, htakes⟩
    · exact hidle.value a hheld
    · exact hnew a hab htakes
  · rcases holds_of_ret ha with hheld | ⟨hab, -⟩
    · exact hidle.keeps a hheld
    · subst hab
      show ¬ Unlocking (Function.update t.status a .idle a)
      rw [Function.update_self]
      exact id

theorem Owns.step {o : Option (Visible A LockOp LockRes)} (h : Owns es t) (hs : Spec t o u) :
    Owns (es ++ o.toList) u := by
  cases hs with
  | invoke op hidle => exact h.invoke op
  | commit hpending heffect =>
      rw [Option.toList_none, List.append_nil]
      exact h.commit hpending heffect
  | ret hdecided => exact h.ret hdecided

/-- What the atomic lock shows leaves it to one thread at most. -/
theorem Owns.of_path (h : Path Spec (Atomic.new none) es t) : Owns es t := by
  have hnew : Owns [] (Atomic.new none : Atomic (Option A) A LockOp LockRes) := by
    constructor
    · intro a ha
      cases ha
    · intro a ha
      cases ha
    · intro a ha
      cases ha
  exact h.recorded hnew fun _ _ _ _ h hs => h.step hs

theorem Owns.unique (h : Owns es t) (ha : holds a es = true) (hb : holds b es = true) : a = b := by
  have hvalue := h.value a ha
  rw [h.value b hb] at hvalue
  exact (Option.some.inj hvalue).symm

end Exclusive

/-! ## The lock of the code -/

section Step

variable [DecidableEq A]

/-- A thread that is in no call begins one. -/
def System.begin (s : System A) (a : A) (l : Caller) : Option (System A) :=
  match s.caller a with
  | .idle => some { s with caller := Function.update s.caller a l }
  | _ => none

/-- The next access of thread `a`. -/
def System.access (s : System A) (a : A) : Option (System A) :=
  match s.caller a with
  | .idle => none
  | .lock pc =>
      let r := lockStep s.isLocked pc
      some
        { isLocked := r.1
          caller := Function.update s.caller a (match r.2 with | some pc => .lock pc | none => .idle)
          owner := if r.2 = none then some a else s.owner }
  | .tryLock pc =>
      let r := tryStep s.isLocked pc
      some
        { isLocked := r.1
          caller := Function.update s.caller a (match r.2 with | .inl pc => .tryLock pc | .inr _ => .idle)
          owner := if r.2 = .inr true then some a else s.owner }
  | .unlock => some { isLocked := false, caller := Function.update s.caller a .idle, owner := none }

def step (s : System A) : Action A → Option (System A)
  | .lock a => s.begin a (.lock .exchange)
  | .tryLock a => s.begin a (.tryLock .load)
  | .unlock a => if s.owner = some a then s.begin a .unlock else none
  | .access a => s.access a

/-- What an action shows of the calls. -/
def shows (s : System A) : Action A → List (Visible A LockOp LockRes)
  | .lock a => [.invoke a .lock]
  | .tryLock a => [.invoke a .tryLock]
  | .unlock a => [.invoke a .unlock]
  | .access a =>
      match s.caller a with
      | .idle => []
      | .lock pc => if (lockStep s.isLocked pc).2 = none then [.ret a .locked] else []
      | .tryLock pc =>
          match (tryStep s.isLocked pc).2 with
          | .inl _ => []
          | .inr b => [.ret a (.tried b)]
      | .unlock => [.ret a .unlocked]

end Step

def Caller.status : Caller → Status LockOp LockRes
  | .idle => .idle
  | .lock _ => .pending .lock
  | .tryLock _ => .pending .tryLock
  | .unlock => .pending .unlock

/-- The atomic lock that a system stands for. -/
def System.view (s : System A) : Atomic (Option A) A LockOp LockRes where
  value := s.owner
  status := fun a => (s.caller a).status

/-- The flag says whether the lock has an owner, and only the owner unlocks. -/
structure Inv (s : System A) : Prop where
  isLocked : s.isLocked = s.owner.isSome
  unlock : ∀ a, s.caller a = .unlock → s.owner = some a

section Runs

variable [DecidableEq A] {s s' : System A} {a : A}

theorem view_update (s : System A) (a : A) (l : Caller) (b : Bool) (o : Option A) :
    System.view { isLocked := b, caller := Function.update s.caller a l, owner := o } =
      { value := o, status := Function.update s.view.status a l.status } := by
  unfold System.view
  congr 1
  funext c
  show (Function.update s.caller a l c).status = Function.update s.view.status a l.status c
  by_cases hc : c = a
  · subst hc
    rw [Function.update_self, Function.update_self]
  · rw [Function.update_of_ne hc, Function.update_of_ne hc]
    rfl

theorem Inv.update (h : Inv s) {l : Caller} {b : Bool} {o : Option A} (hb : b = o.isSome)
    (hl : l = .unlock → o = some a) (hother : ∀ c, c ≠ a → s.owner = some c → o = some c) :
    Inv { isLocked := b, caller := Function.update s.caller a l, owner := o } := by
  refine ⟨hb, fun c hc => ?_⟩
  change Function.update s.caller a l c = .unlock at hc
  by_cases hca : c = a
  · subst hca
    rw [Function.update_self] at hc
    exact hl hc
  · rw [Function.update_of_ne hca] at hc
    exact hother c hca (h.unlock c hc)

/-- What the atomic lock answers to an action. -/
def Answered (s : System A) (act : Action A) (s' : System A) : Prop :=
  Path Spec s.view (shows s act) s'.view ∧ Inv s'

theorem answer_begin (h : Inv s) {l : Caller} {o : LockOp} (hl : l.status = .pending o)
    (hunlock : l = .unlock → s.owner = some a) (hs : s.begin a l = some s') :
    Path Spec s.view [.invoke a o] s'.view ∧ Inv s' := by
  unfold System.begin at hs
  split at hs
  · rename_i hidle
    cases hs
    have hstatus : s.view.status a = .idle := by
      show (s.caller a).status = _
      rw [hidle]
      rfl
    have hstep : Spec s.view (some (.invoke a o)) _ := .invoke o hstatus
    refine ⟨?_, h.update h.isLocked hunlock fun c _ hc => hc⟩
    rw [view_update, hl]
    exact .one hstep
  · cases hs

theorem answer_lock (h : Inv s) {pc : LockPC} (ha : s.caller a = .lock pc)
    (hs : s.access a = some s') : Answered s (.access a) s' := by
  have hstatus : s.view.status a = .pending .lock := by
    show (s.caller a).status = _
    rw [ha]
    rfl
  have hsame : Function.update s.view.status a (.pending .lock) = s.view.status := by
    rw [← hstatus]
    exact Function.update_eq_self a _
  have hlocked := h.isLocked
  unfold Answered
  simp only [System.access, ha, Option.some.injEq] at hs
  simp only [shows, ha]
  subst hs
  rw [view_update]
  cases pc with
  | exchange =>
      cases howner : s.owner with
      | none =>
          rw [howner, Option.isSome_none] at hlocked
          simp only [lockStep, hlocked, if_true]
          refine ⟨Atomic.answers hstatus ?_, h.update rfl ?_ ?_⟩
          · show LockEffect a s.owner .lock (some a) .locked
            rw [howner]
            exact .lock
          · intro heq
            cases heq
          · intro c _ hc
            rw [howner] at hc
            cases hc
      | some b =>
          rw [howner, Option.isSome_some] at hlocked
          simp only [lockStep, hlocked, Bool.true_eq_false, if_false, reduceCtorEq]
          refine ⟨?_, h.update rfl (fun heq => nomatch heq) ?_⟩
          · rw [show Caller.status (.lock .spin) = .pending .lock from rfl, hsame, ← howner]
            exact .refl _
          · intro c _ hc
            rwa [howner] at hc
  | spin =>
      have hstays : (lockStep s.isLocked .spin).2 ≠ none := by
        unfold lockStep
        cases s.isLocked <;> simp
      obtain ⟨pc', hpc'⟩ := Option.ne_none_iff_exists'.1 hstays
      simp only [hpc', reduceCtorEq, if_false]
      refine ⟨?_, h.update hlocked (fun heq => nomatch heq) fun c _ hc => hc⟩
      rw [show Caller.status (.lock pc') = .pending .lock from rfl, hsame]
      exact .refl _

theorem answer_tryLock (h : Inv s) {pc : TryPC} (ha : s.caller a = .tryLock pc)
    (hs : s.access a = some s') : Answered s (.access a) s' := by
  have hstatus : s.view.status a = .pending .tryLock := by
    show (s.caller a).status = _
    rw [ha]
    rfl
  have hsame : Function.update s.view.status a (.pending .tryLock) = s.view.status := by
    rw [← hstatus]
    exact Function.update_eq_self a _
  have hlocked := h.isLocked
  -- a lock that has an owner is busy, whichever access finds out
  have hbusy : ∀ b, s.owner = some b →
      LockEffect a s.view.value .tryLock s.owner (.tried false) := by
    intro b howner
    show LockEffect a s.owner .tryLock s.owner (.tried false)
    rw [howner]
    exact .busy
  unfold Answered
  simp only [System.access, ha, Option.some.injEq] at hs
  simp only [shows, ha]
  subst hs
  rw [view_update]
  cases howner : s.owner with
  | none =>
      rw [howner, Option.isSome_none] at hlocked
      cases pc with
      | load =>
          simp only [tryStep, hlocked, Bool.false_eq_true, if_false, reduceCtorEq]
          refine ⟨?_, h.update rfl (fun heq => nomatch heq) ?_⟩
          · rw [show Caller.status (.tryLock .exchange) = .pending .tryLock from rfl, hsame, ← howner]
            exact .refl _
          · intro c _ hc
            rwa [howner] at hc
      | exchange =>
          simp only [tryStep, hlocked, Bool.not_false, if_true]
          refine ⟨Atomic.answers hstatus ?_, h.update rfl (fun heq => nomatch heq) ?_⟩
          · show LockEffect a s.owner .tryLock (some a) (.tried true)
            rw [howner]
            exact .taken
          · intro c _ hc
            rw [howner] at hc
            cases hc
  | some b =>
      rw [howner, Option.isSome_some] at hlocked
      have heffect := hbusy b howner
      rw [howner] at heffect
      cases pc with
      | load =>
          simp only [tryStep, hlocked, if_true, Sum.inr.injEq, Bool.false_eq_true, if_false]
          refine ⟨Atomic.answers hstatus heffect, h.update rfl (fun heq => nomatch heq) ?_⟩
          intro c _ hc
          rwa [howner] at hc
      | exchange =>
          simp only [tryStep, hlocked, Bool.not_true, Sum.inr.injEq, Bool.false_eq_true, if_false]
          refine ⟨Atomic.answers hstatus heffect, h.update rfl (fun heq => nomatch heq) ?_⟩
          intro c _ hc
          rwa [howner] at hc

theorem answer_unlock (h : Inv s) (ha : s.caller a = .unlock) (hs : s.access a = some s') :
    Answered s (.access a) s' := by
  have howner := h.unlock a ha
  have hstatus : s.view.status a = .pending .unlock := by
    show (s.caller a).status = _
    rw [ha]
    rfl
  unfold Answered
  simp only [System.access, ha, Option.some.injEq] at hs
  simp only [shows, ha]
  subst hs
  rw [view_update]
  refine ⟨Atomic.answers hstatus ?_, h.update rfl (fun heq => nomatch heq) ?_⟩
  · show LockEffect a s.owner .unlock none .unlocked
    rw [howner]
    exact .unlock
  · intro c hca hc
    rw [howner] at hc
    exact absurd (Option.some.inj hc).symm hca

/-- Every action is answered by the atomic lock. -/
theorem simulates : Simulates (step : System A → Action A → Option (System A)) shows Spec
    (fun s t => Inv s ∧ t = s.view) (fun _ _ => True) := by
  constructor
  rintro s act s' _ ⟨h, rfl⟩ - hs
  suffices hanswer : Answered s act s' from ⟨s'.view, hanswer.1, hanswer.2, rfl⟩
  cases act with
  | lock a => exact answer_begin (l := .lock .exchange) h rfl (fun heq => nomatch heq) hs
  | tryLock a => exact answer_begin (l := .tryLock .load) h rfl (fun heq => nomatch heq) hs
  | unlock a =>
      simp only [step] at hs
      split at hs
      · rename_i howner
        exact answer_begin h rfl (fun _ => howner) hs
      · cases hs
  | access a =>
      cases ha : s.caller a with
      | idle =>
          simp only [step, System.access, ha] at hs
          cases hs
      | lock pc => exact answer_lock h ha hs
      | tryLock pc => exact answer_tryLock h ha hs
      | unlock => exact answer_unlock h ha hs

omit [DecidableEq A] in
theorem Inv.start : Inv (start : System A) := ⟨rfl, fun _ ha => nomatch ha⟩

/-- What a client sees of the lock. -/
structure Correct (es : List (Visible A LockOp LockRes))
    (t : Atomic (Option A) A LockOp LockRes) : Prop where
  atomic : Path Spec (Atomic.new none) es t
  exclusive : ∀ a b, holds a es = true → holds b es = true → a = b

/-- Every run shows the events of an atomic lock, and no two threads hold it at once. -/
theorem correct_of_run {σ : Nat → System A} {ℓ : Nat → Action A} {n : Nat}
    (hrun : Run step start σ ℓ n) : Correct (shown shows σ ℓ n) (σ n).view := by
  have hstart : Inv (start : System A) ∧ Atomic.new none = (start : System A).view :=
    ⟨Inv.start, rfl⟩
  obtain ⟨_, hpath, -, rfl⟩ := simulates.run hrun hstart fun _ _ => trivial
  refine ⟨hpath, ?_⟩
  intro a b ha hb
  exact (Owns.of_path hpath).unique ha hb

/-- One thread fails to take the lock that the other holds, and takes it after that. -/
def handOver : List (Action Bool) :=
  [.lock false, .access false, .tryLock true, .access true, .lock true, .access true, .access true,
    .unlock false, .access false, .access true, .access true]

theorem correct_handOver :
    Correct (shown shows (trace step (start : System Bool) handOver)
      (fun k => handOver.getD k (.lock false)) 11) (trace step (start : System Bool) handOver 11).view := by
  have hfollows : follows step (fun _ _ => true) (start : System Bool) handOver = true := by
    decide
  exact correct_of_run (Run.of_follows (.lock false) hfollows)

/-! ## A lock that is free is taken -/

/-- The accesses that thread `a` makes in the `n` steps from `j` on. -/
def accesses (a : A) (ℓ : Nat → Action A) (j : Nat) : Nat → Nat
  | 0 => 0
  | n + 1 => accesses a ℓ j n + if ℓ (j + n) = .access a then 1 else 0

/-- How many accesses of `lock` are left while the lock is free. -/
def LockPC.rank : LockPC → Nat
  | .exchange => 1
  | .spin => 2

/-- Thread `a` is in `lock` after `n` of its accesses. -/
def Trying (a : A) (n : Nat) (s : System A) : Prop :=
  ∃ pc, s.caller a = .lock pc ∧ n + pc.rank ≤ 2

theorem Trying.step {n : Nat} (h : Trying a n s) (hinv : Inv s) {act : Action A}
    (hs : step s act = some s') (hfree : s.owner = none) (hfree' : s'.owner = none) :
    Trying a (n + if act = .access a then 1 else 0) s' := by
  obtain ⟨pc, ha, hrank⟩ := h
  have hlocked := hinv.isLocked
  rw [hfree, Option.isSome_none] at hlocked
  -- what another thread does leaves the call of `a`
  have hother : ∀ b l, b ≠ a → Function.update s.caller b l a = .lock pc := by
    intro b l hba
    rw [Function.update_of_ne (Ne.symm hba)]
    exact ha
  have hbegin : ∀ b l, s.begin b l = some s' → Trying a (n + 0) s' := by
    intro b l hb
    unfold System.begin at hb
    split at hb
    · rename_i hidle
      cases hb
      refine ⟨pc, hother b l ?_, hrank⟩
      rintro rfl
      rw [ha] at hidle
      cases hidle
    · cases hb
  cases act with
  | lock b =>
      rw [if_neg (fun heq => nomatch heq)]
      exact hbegin b _ hs
  | tryLock b =>
      rw [if_neg (fun heq => nomatch heq)]
      exact hbegin b _ hs
  | unlock b =>
      simp only [SpinLock.step, hfree] at hs
      cases hs
  | access b =>
      change s.access b = some s' at hs
      by_cases hba : b = a
      · subst hba
        rw [if_pos rfl]
        simp only [System.access, ha, Option.some.injEq] at hs
        subst hs
        cases pc with
        | exchange =>
            -- the exchange takes the lock
            simp only [lockStep, hlocked, if_true] at hfree'
            cases hfree'
        | spin =>
            refine ⟨.exchange, ?_, by simp only [LockPC.rank] at hrank ⊢; omega⟩
            simp only [lockStep, hlocked, Bool.false_eq_true, if_false]
            exact Function.update_self _ _ _
      · have hne : (Action.access b) ≠ .access a := fun heq => hba (Action.access.inj heq)
        rw [if_neg hne]
        cases hb : s.caller b with
        | idle =>
            simp only [System.access, hb] at hs
            cases hs
        | lock pc' =>
            simp only [System.access, hb, Option.some.injEq] at hs
            subst hs
            exact ⟨pc, hother b _ hba, hrank⟩
        | tryLock pc' =>
            simp only [System.access, hb, Option.some.injEq] at hs
            subst hs
            exact ⟨pc, hother b _ hba, hrank⟩
        | unlock =>
            simp only [System.access, hb, Option.some.injEq] at hs
            subst hs
            exact ⟨pc, hother b _ hba, hrank⟩

/-- In every run, a thread that is in `lock` and makes two accesses finds that the lock is
taken, by another thread or by itself. -/
theorem taken_of_run {σ : Nat → System A} {ℓ : Nat → Action A} {n : Nat}
    (hrun : Run step start σ ℓ n) {j m : Nat} (hjm : j + m ≤ n) {pc : LockPC}
    (ha : (σ j).caller a = .lock pc) (htwo : 2 ≤ accesses a ℓ j m) :
    ∃ i, i ≤ m ∧ (σ (j + i)).owner ≠ none := by
  have hinv : ∀ i, i ≤ n → Inv (σ i) := by
    apply hrun.invariant Inv.start
    intro s act s' h hs
    obtain ⟨_, -, h', -⟩ := simulates.answer s act s' s.view ⟨h, rfl⟩ trivial hs
    exact h'
  by_contra hnone
  have hfree : ∀ i, i ≤ m → (σ (j + i)).owner = none := by
    intro i hi
    by_contra hne
    exact hnone ⟨i, hi, hne⟩
  have htrying : ∀ i, i ≤ m → Trying a (accesses a ℓ j i) (σ (j + i)) := by
    intro i
    induction i with
    | zero =>
        intro _
        refine ⟨pc, ha, ?_⟩
        show 0 + pc.rank ≤ 2
        cases pc <;> decide
    | succ i ih =>
        intro hi
        exact (ih (by omega)).step (hinv (j + i) (by omega)) (hrun.next (j + i) (by omega))
          (hfree i (by omega)) (hfree (i + 1) hi)
  obtain ⟨pc', -, hrank⟩ := htrying m (Nat.le_refl m)
  cases pc' <;> simp only [LockPC.rank] at hrank <;> omega

/-- The second thread waits for the lock. -/
theorem taken_handOver :
    ∃ i, i ≤ 2 ∧ (trace step (start : System Bool) handOver (9 + i)).owner ≠ none := by
  have hfollows : follows step (fun _ _ => true) (start : System Bool) handOver = true := by
    decide
  have hspins : (trace step (start : System Bool) handOver 9).caller true = .lock .spin := by decide
  exact taken_of_run (Run.of_follows (.lock false) hfollows) (by decide) hspins (by decide)

end Runs

end TaskDispatcher.Common.SpinLock
