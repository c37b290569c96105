import Mathlib.Logic.Function.Basic

/-!
# Runs of a labelled step function

A machine is a partial step function: the label fixes every choice the step
leaves open, and `none` means that it is not enabled.  A run is a sequence of
states, so that a property of a run can speak about the states in between.
-/

namespace TaskDispatcher.Library

variable {S L : Type}

/-- `σ` follows the labels `ℓ` for `n` steps from `s₀`. -/
structure Run (step : S → L → Option S) (s₀ : S) (σ : Nat → S) (ℓ : Nat → L) (n : Nat) : Prop where
  start : σ 0 = s₀
  next : ∀ k, k < n → step (σ k) (ℓ k) = some (σ (k + 1))

namespace Run

variable {step : S → L → Option S} {s₀ : S} {σ : Nat → S} {ℓ : Nat → L} {n : Nat}

theorem take {m : Nat} (h : Run step s₀ σ ℓ n) (hm : m ≤ n) : Run step s₀ σ ℓ m where
  start := h.start
  next k hk := h.next k (Nat.lt_of_lt_of_le hk hm)

/-- A property that every step allowed by `G` preserves holds along every run
whose steps are all allowed. -/
theorem guarded {I : S → Prop} {G : S → L → Prop} (h : Run step s₀ σ ℓ n) (h₀ : I s₀)
    (hstep : ∀ s l s', I s → G s l → step s l = some s' → I s')
    (hG : ∀ k, k < n → G (σ k) (ℓ k)) : ∀ k, k ≤ n → I (σ k) := by
  intro k
  induction k with
  | zero =>
      intro _
      rw [h.start]
      exact h₀
  | succ k ih =>
      intro hk
      exact hstep _ _ _ (ih (by omega)) (hG k hk) (h.next k hk)

/-- An inductive invariant holds in every state of a run. -/
theorem invariant {I : S → Prop} (h : Run step s₀ σ ℓ n) (h₀ : I s₀)
    (hstep : ∀ s l s', I s → step s l = some s' → I s') : ∀ k, k ≤ n → I (σ k) :=
  h.guarded (G := fun _ _ => True) h₀ (fun s l s' hI _ hs => hstep s l s' hI hs)
    fun _ _ => trivial

/-- What every step leads through a transitive relation holds between any two
states of a run. -/
theorem related {R : S → S → Prop} (h : Run step s₀ σ ℓ n) (hrefl : ∀ s, R s s)
    (htrans : ∀ s t u, R s t → R t u → R s u) (hstep : ∀ s l s', step s l = some s' → R s s')
    {j k : Nat} (hjk : j ≤ k) (hk : k ≤ n) : R (σ j) (σ k) := by
  induction k with
  | zero =>
      obtain rfl : j = 0 := by omega
      exact hrefl _
  | succ k ih =>
      rcases Nat.lt_or_ge k j with hlt | hge
      · obtain rfl : j = k + 1 := by omega
        exact hrefl _
      · exact htrans _ _ _ (ih hge (by omega)) (hstep _ _ _ (h.next k hk))

/-- A run can be continued by any step that is enabled where it ends. -/
theorem extend (h : Run step s₀ σ ℓ n) {l : L} {s' : S} (hs : step (σ n) l = some s') :
    ∃ σ' ℓ', Run step s₀ σ' ℓ' (n + 1) ∧ (∀ k, k ≤ n → σ' k = σ k) ∧ σ' (n + 1) = s' ∧ ℓ' n = l := by
  refine ⟨fun k => if k ≤ n then σ k else s', fun k => if k < n then ℓ k else l, ⟨?_, ?_⟩, ?_, ?_, ?_⟩
  · rw [if_pos (Nat.zero_le n)]
    exact h.start
  · intro k hk
    rcases Nat.lt_or_ge k n with hlt | hge
    · rw [if_pos (by omega), if_pos hlt, if_pos (by omega)]
      exact h.next k hlt
    · obtain rfl : k = n := by omega
      rw [if_pos (Nat.le_refl _), if_neg (by omega), if_neg (by omega)]
      exact hs
  · intro k hk
    exact if_pos hk
  · exact if_neg (by omega)
  · exact if_neg (by omega)

end Run

/-! ## Concrete runs -/

/-- Whether a list of labels can be followed with every step passing the test `G`. -/
def follows (step : S → L → Option S) (G : S → L → Bool) : S → List L → Bool
  | _, [] => true
  | s, l :: ls =>
      match step s l with
      | some s' => G s l && follows step G s' ls
      | none => false

/-- The state after `k` of the labels. -/
def trace (step : S → L → Option S) : S → List L → Nat → S
  | s, [], _ => s
  | s, _ :: _, 0 => s
  | s, l :: ls, k + 1 =>
      match step s l with
      | some s' => trace step s' ls k
      | none => s

theorem trace_zero (step : S → L → Option S) (s : S) (ls : List L) : trace step s ls 0 = s := by
  cases ls <;> rfl

theorem trace_next {step : S → L → Option S} {G : S → L → Bool} {s : S} {ls : List L} (l₀ : L)
    (h : follows step G s ls = true) {k : Nat} (hk : k < ls.length) :
    step (trace step s ls k) (ls.getD k l₀) = some (trace step s ls (k + 1)) ∧
      G (trace step s ls k) (ls.getD k l₀) = true := by
  induction ls generalizing s k with
  | nil => simp at hk
  | cons l ls ih =>
      simp only [follows] at h
      cases hs : step s l with
      | none => simp [hs] at h
      | some s' =>
          simp only [hs, Bool.and_eq_true] at h
          cases k with
          | zero => simpa [trace, hs, trace_zero] using h.1
          | succ k => simpa [trace, hs] using ih h.2 (by simpa using hk)

/-- A list of labels that can be followed is a run. -/
theorem Run.of_follows {step : S → L → Option S} {G : S → L → Bool} {s : S} {ls : List L}
    (l₀ : L) (h : follows step G s ls = true) :
    Run step s (trace step s ls) (fun k => ls.getD k l₀) ls.length where
  start := trace_zero step s ls
  next _ hk := (trace_next l₀ h hk).1

theorem trace_ok {step : S → L → Option S} {G : S → L → Bool} {s : S} {ls : List L} (l₀ : L)
    (h : follows step G s ls = true) :
    ∀ k, k < ls.length → G (trace step s ls k) (ls.getD k l₀) = true :=
  fun _ hk => (trace_next l₀ h hk).2

end TaskDispatcher.Library
