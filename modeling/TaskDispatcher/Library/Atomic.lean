import TaskDispatcher.Library.Simulation
import Mathlib.Data.Set.Finite.Basic
import Mathlib.Logic.Function.Basic

/-!
# The atomic object

Threads invoke operations on one object and return from them.  Between the two an
operation takes effect at one silent step, so that a machine that refines the object is
linearizable: the effects are the linearization points.
-/

namespace TaskDispatcher.Library

variable {V A Op Res : Type}

/-- What a thread does with the object. -/
inductive Status (Op Res : Type) where
  | idle
  | pending (o : Op)
  | decided (o : Op) (r : Res)

/-- The object, and the operations in progress. -/
structure Atomic (V A Op Res : Type) where
  value : V
  status : A → Status Op Res

/-- What can be seen of an operation from outside. -/
inductive Visible (A Op Res : Type) where
  | invoke (a : A) (o : Op)
  | ret (a : A) (r : Res)
  deriving DecidableEq, Repr

namespace Atomic

/-- Nobody has invoked an operation. -/
def new (v : V) : Atomic V A Op Res where
  value := v
  status := fun _ => .idle

variable [DecidableEq A]

/-- `effect` says what an operation may do to the value and answer, given what the other
threads are doing. -/
inductive Step (effect : (A → Status Op Res) → A → V → Op → V → Res → Prop) :
    Atomic V A Op Res → Option (Visible A Op Res) → Atomic V A Op Res → Prop where
  | invoke {s : Atomic V A Op Res} {a : A} (o : Op) : s.status a = .idle →
      Step effect s (some (.invoke a o))
        { s with status := Function.update s.status a (.pending o) }
  | commit {s : Atomic V A Op Res} {a : A} {o : Op} {v : V} {r : Res} :
      s.status a = .pending o → effect s.status a s.value o v r →
      Step effect s none { value := v, status := Function.update s.status a (.decided o r) }
  | ret {s : Atomic V A Op Res} {a : A} {o : Op} {r : Res} : s.status a = .decided o r →
      Step effect s (some (.ret a r)) { s with status := Function.update s.status a .idle }

variable {effect : (A → Status Op Res) → A → V → Op → V → Res → Prop}

/-- An operation that takes effect as it returns. -/
theorem answers {s : Atomic V A Op Res} {a : A} {o : Op} {v : V} {r : Res}
    (hpending : s.status a = .pending o) (heffect : effect s.status a s.value o v r) :
    Path (Step effect) s [.ret a r] { value := v, status := Function.update s.status a .idle } := by
  have hcommit : Step effect s none
      { value := v, status := Function.update s.status a (.decided o r) } := .commit hpending heffect
  have hret : Step effect { value := v, status := Function.update s.status a (.decided o r) }
      (some (.ret a r)) _ := .ret (Function.update_self a _ s.status)
  rw [show Function.update (Function.update s.status a (.decided o r)) a .idle =
    Function.update s.status a .idle from Function.update_idem _ _ _] at hret
  exact .silent hcommit (.one hret)

/-- Finitely many threads take effect one after the other, each with the same answer and
none of them changing the value. -/
theorem commits {s s' : Atomic V A Op Res} {o : Op} {r : Res} {D : Set A} (hD : D.Finite)
    (hvalue : s'.value = s.value) (hpending : ∀ a ∈ D, s.status a = .pending o)
    (hdecided : ∀ a ∈ D, s'.status a = .decided o r) (hothers : ∀ a, a ∉ D → s'.status a = s.status a)
    (heffect : ∀ status : A → Status Op Res, (∀ b, b ∉ D → status b = s.status b) →
      ∀ a ∈ D, effect status a s.value o s.value r) : Path (Step effect) s [] s' := by
  induction D, hD using Set.Finite.induction_on generalizing s with
  | empty =>
      have hsame : s' = s := by
        obtain ⟨v, f⟩ := s
        obtain ⟨v', f'⟩ := s'
        have hf : f' = f := funext fun a => hothers a (Set.notMem_empty a)
        rw [show v' = v from hvalue, hf]
      rw [hsame]
      exact .refl s
  | @insert a D hnot _ ih =>
      have hother : ∀ b, b ≠ a →
          Function.update s.status a (.decided o r) b = s.status b := fun b hb =>
        Function.update_of_ne hb _ _
      have hcommit : Step effect s none
          { value := s.value, status := Function.update s.status a (.decided o r) } := by
        apply Step.commit (hpending a (Set.mem_insert a D))
        exact heffect s.status (fun _ _ => rfl) a (Set.mem_insert a D)
      refine .silent hcommit (ih hvalue ?_ ?_ ?_ ?_)
      · intro b hb
        have hne : b ≠ a := fun heq => hnot (heq ▸ hb)
        exact (hother b hne).trans (hpending b (Set.mem_insert_of_mem a hb))
      · intro b hb
        exact hdecided b (Set.mem_insert_of_mem a hb)
      · intro b hb
        by_cases hba : b = a
        · subst hba
          show s'.status b = Function.update s.status b (.decided o r) b
          rw [Function.update_self]
          exact hdecided b (Set.mem_insert b D)
        · refine (hothers b ?_).trans (hother b hba).symm
          intro hmem
          rcases Set.mem_insert_iff.1 hmem with heq | hin
          · exact hba heq
          · exact hb hin
      · intro status hstatus b hb
        refine heffect status ?_ b (Set.mem_insert_of_mem a hb)
        intro c hc
        have hc' : c ≠ a ∧ c ∉ D := by
          rwa [Set.mem_insert_iff, not_or] at hc
        exact (hstatus c hc'.2).trans (hother c hc'.1)

end Atomic

end TaskDispatcher.Library
