import TaskDispatcher.Library.Transition
import Mathlib.Data.List.Basic

/-!
# Forward simulation

A specification is a relation whose steps show an event or stay silent.  A machine
refines it when every step of the machine is answered by a path of the specification
that shows the same events.
-/

namespace TaskDispatcher.Library

variable {S L T E : Type}

/-- The specification leads from `t` to `v`, and shows the events `es` on the way. -/
inductive Path (spec : T → Option E → T → Prop) : T → List E → T → Prop where
  | refl (t : T) : Path spec t [] t
  | silent {t u v : T} {es : List E} : spec t none u → Path spec u es v → Path spec t es v
  | shown {t u v : T} {e : E} {es : List E} : spec t (some e) u → Path spec u es v →
      Path spec t (e :: es) v

namespace Path

variable {spec : T → Option E → T → Prop} {t u v : T} {es fs : List E}

theorem one {e : E} (h : spec t (some e) u) : Path spec t [e] u := .shown h (.refl u)

theorem hidden (h : spec t none u) : Path spec t [] u := .silent h (.refl u)

theorem trans (h : Path spec t es u) (h' : Path spec u fs v) : Path spec t (es ++ fs) v := by
  induction h with
  | refl t => exact h'
  | silent hstep _ ih => exact .silent hstep (ih h')
  | shown hstep _ ih => exact .shown hstep (ih h')

/-- What every step preserves of the events so far and the state holds at the end of a
path. -/
theorem recorded {I : List E → T → Prop} (h : Path spec t es u) {d : List E} (h₀ : I d t)
    (hstep : ∀ d t o u, I d t → spec t o u → I (d ++ o.toList) u) : I (d ++ es) u := by
  induction h generalizing d with
  | refl t =>
      rw [List.append_nil]
      exact h₀
  | silent hs _ ih =>
      have hnext := hstep _ _ _ _ h₀ hs
      rw [Option.toList_none, List.append_nil] at hnext
      exact ih hnext
  | shown hs _ ih =>
      have hnext := ih (hstep _ _ _ _ h₀ hs)
      rwa [Option.toList_some, List.append_assoc, List.singleton_append] at hnext

end Path

/-- The rest of a run is a run. -/
theorem Run.drop {step : S → L → Option S} {s₀ : S} {σ : Nat → S} {ℓ : Nat → L} {n k : Nat}
    (h : Run step s₀ σ ℓ n) (hk : k ≤ n) :
    Run step (σ k) (fun i => σ (k + i)) (fun i => ℓ (k + i)) (n - k) where
  start := rfl
  next i hi := h.next (k + i) (by omega)

/-- The events of the first `n` steps. -/
def shown (shows : S → L → List E) (σ : Nat → S) (ℓ : Nat → L) : Nat → List E
  | 0 => []
  | n + 1 => shown shows σ ℓ n ++ shows (σ n) (ℓ n)

/-- Steps that `G` allows are answered by the specification. -/
structure Simulates (step : S → L → Option S) (shows : S → L → List E)
    (spec : T → Option E → T → Prop) (R : S → T → Prop) (G : S → L → Prop) : Prop where
  answer : ∀ s l s' t, R s t → G s l → step s l = some s' →
    ∃ t', Path spec t (shows s l) t' ∧ R s' t'

/-- A run whose steps are all allowed is answered by a path that shows the same events. -/
theorem Simulates.run {step : S → L → Option S} {shows : S → L → List E}
    {spec : T → Option E → T → Prop} {R : S → T → Prop} {G : S → L → Prop}
    (h : Simulates step shows spec R G) {s₀ : S} {t₀ : T} {σ : Nat → S} {ℓ : Nat → L} {n : Nat}
    (hrun : Run step s₀ σ ℓ n) (h₀ : R s₀ t₀) (hG : ∀ k, k < n → G (σ k) (ℓ k)) :
    ∃ t, Path spec t₀ (shown shows σ ℓ n) t ∧ R (σ n) t := by
  induction n with
  | zero =>
      refine ⟨t₀, .refl t₀, ?_⟩
      rw [hrun.start]
      exact h₀
  | succ n ih =>
      obtain ⟨t, hpath, hR⟩ := ih (hrun.take (Nat.le_succ n)) fun k hk => hG k (by omega)
      obtain ⟨t', hnext, hR'⟩ := h.answer _ _ _ t hR (hG n (by omega)) (hrun.next n (by omega))
      exact ⟨t', hpath.trans hnext, hR'⟩

end TaskDispatcher.Library
