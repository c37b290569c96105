import Mathlib.Data.Finset.Card

/-!
# Linear tokens

A token map says which resource each place holds.  It is linear when no
resource is in two places; moving, dropping and creating tokens keep it so.
`AtMost` bounds the number of places that hold a token of one kind.
-/

namespace TaskDispatcher.Library

variable {P R : Type} {tok tok' : P → Option R}

/-- No resource is in two places. -/
def Linear (tok : P → Option R) : Prop :=
  ∀ p q r, tok p = some r → tok q = some r → p = q

namespace Linear

/-- The tokens of `tok'` come from distinct places of `tok`. -/
theorem of_source (h : Linear tok) (src : P → P)
    (hsrc : ∀ p r, tok' p = some r → tok (src p) = some r)
    (hinj : ∀ p q r, tok' p = some r → tok' q = some r → src p = src q → p = q) : Linear tok' :=
  fun p q r hp hq => hinj p q r hp hq (h _ _ r (hsrc p r hp) (hsrc q r hq))

/-- Tokens may disappear. -/
theorem mono (h : Linear tok) (hsub : ∀ p r, tok' p = some r → tok p = some r) : Linear tok' :=
  h.of_source id hsub fun _ _ _ _ _ heq => heq

/-- The token at `p` moves to `q`. -/
theorem move (h : Linear tok) {p q : P} (hp : ∀ r, tok' p = some r → p = q)
    (hq : ∀ r, tok' q = some r → tok p = some r)
    (hother : ∀ x, x ≠ p → x ≠ q → ∀ r, tok' x = some r → tok x = some r) : Linear tok' := by
  classical
  refine h.of_source (fun x => if x = q then p else x) ?_ ?_
  · intro x r hx
    by_cases hxq : x = q
    · rw [if_pos hxq]
      exact hq r (hxq ▸ hx)
    · rw [if_neg hxq]
      refine hother x ?_ hxq r hx
      rintro rfl
      exact hxq (hp r hx)
  · intro x y r hx hy
    by_cases hxq : x = q <;> by_cases hyq : y = q
    · intro _
      rw [hxq, hyq]
    · rw [if_pos hxq, if_neg hyq]
      rintro rfl
      exact absurd (hp r hy) hyq
    · rw [if_neg hxq, if_pos hyq]
      rintro rfl
      exact absurd (hp r hx) hxq
    · rw [if_neg hxq, if_neg hyq]
      exact id

/-- A resource that is nowhere may appear at `q`. -/
theorem create (h : Linear tok) {q : P} (hq : ∀ r, tok' q = some r → ∀ x, tok x ≠ some r)
    (hother : ∀ x, x ≠ q → ∀ r, tok' x = some r → tok x = some r) : Linear tok' := by
  intro x y r hx hy
  by_cases hxq : x = q <;> by_cases hyq : y = q
  · rw [hxq, hyq]
  · exact absurd (hother y hyq r hy) (hq r (hxq ▸ hx) y)
  · exact absurd (hother x hxq r hx) (hq r (hyq ▸ hy) x)
  · exact h x y r (hother x hxq r hx) (hother y hyq r hy)

end Linear

/-- Every resource that satisfies `d` is somewhere. -/
def Total (d : R → Prop) (tok : P → Option R) : Prop := ∀ r, d r → ∃ p, tok p = some r

theorem Total.congr {d : R → Prop} (ht : Total d tok) (h : tok' = tok) : Total d tok' := by
  rw [h]
  exact ht

/-- The token at `p` has gone to `q`, and nothing else has changed. -/
structure Moved (tok tok' : P → Option R) (p q : P) : Prop where
  gone : tok' p = none
  here : tok' q = tok p
  free : tok q = none
  other : ∀ x, x ≠ p → x ≠ q → tok' x = tok x

namespace Moved

variable {p q : P}

theorem linear (h : Moved tok tok' p q) (hlin : Linear tok) : Linear tok' := by
  refine hlin.move (p := p) (q := q) ?_ ?_ ?_
  · intro r hr
    rw [h.gone] at hr
    cases hr
  · intro r hr
    rwa [h.here] at hr
  · intro x hxp hxq r hr
    rwa [h.other x hxp hxq] at hr

/-- Where a token was before the move. -/
theorem source (h : Moved tok tok' p q) {x : P} {r : R} (hx : tok' x = some r) :
    x = q ∧ tok p = some r ∨ x ≠ p ∧ x ≠ q ∧ tok x = some r := by
  by_cases hxq : x = q
  · rw [hxq, h.here] at hx
    exact Or.inl ⟨hxq, hx⟩
  · by_cases hxp : x = p
    · rw [hxp, h.gone] at hx
      cases hx
    · rw [h.other x hxp hxq] at hx
      exact Or.inr ⟨hxp, hxq, hx⟩

theorem total {d : R → Prop} (h : Moved tok tok' p q) (htot : Total d tok) : Total d tok' := by
  intro r hr
  obtain ⟨x, hx⟩ := htot r hr
  by_cases hxp : x = p
  · exact ⟨q, by rw [h.here, ← hxp, hx]⟩
  · have hxq : x ≠ q := by
      rintro rfl
      rw [h.free] at hx
      cases hx
    exact ⟨x, by rw [h.other x hxp hxq, hx]⟩

end Moved

/-! ## Counting places -/

/-- At most `n` places satisfy `p`. -/
def AtMost (n : Nat) (p : P → Prop) : Prop :=
  ∀ F : Finset P, (∀ x ∈ F, p x) → F.card ≤ n

namespace AtMost

variable {n : Nat} {p p' : P → Prop}

theorem of_source (h : AtMost n p) (src : P → P) (hsrc : ∀ x, p' x → p (src x))
    (hinj : ∀ x y, p' x → p' y → src x = src y → x = y) : AtMost n p' := by
  classical
  intro F hF
  have hcard : (F.image src).card = F.card :=
    Finset.card_image_of_injOn fun x hx y hy => hinj x y (hF x hx) (hF y hy)
  rw [← hcard]
  refine h _ fun x hx => ?_
  obtain ⟨y, hy, rfl⟩ := Finset.mem_image.1 hx
  exact hsrc y (hF y hy)

theorem mono (h : AtMost n p) (hsub : ∀ x, p' x → p x) : AtMost n p' :=
  h.of_source id hsub fun _ _ _ _ heq => heq

/-- One place is left and another one taken. -/
theorem move (h : AtMost n p) {a b : P} (ha : p' a → a = b) (hb : p' b → p a)
    (hother : ∀ x, x ≠ a → x ≠ b → p' x → p x) : AtMost n p' := by
  classical
  refine h.of_source (fun x => if x = b then a else x) ?_ ?_
  · intro x hx
    by_cases hxb : x = b
    · rw [if_pos hxb]
      exact hb (hxb ▸ hx)
    · rw [if_neg hxb]
      refine hother x ?_ hxb hx
      rintro rfl
      exact hxb (ha hx)
  · intro x y hx hy
    by_cases hxb : x = b <;> by_cases hyb : y = b
    · intro _
      rw [hxb, hyb]
    · rw [if_pos hxb, if_neg hyb]
      rintro rfl
      exact absurd (ha hy) hyb
    · rw [if_neg hxb, if_pos hyb]
      rintro rfl
      exact absurd (ha hx) hxb
    · rw [if_neg hxb, if_neg hyb]
      exact id

/-- One place is added. -/
theorem add (h : AtMost n p) {b : P} (hother : ∀ x, x ≠ b → p' x → p x) : AtMost (n + 1) p' := by
  classical
  intro F hF
  have herase : (F.erase b).card ≤ n := by
    refine h _ fun x hx => ?_
    exact hother x (Finset.ne_of_mem_erase hx) (hF x (Finset.mem_of_mem_erase hx))
  have hpred := Finset.pred_card_le_card_erase (a := b) (s := F)
  omega

/-- Distinct tokens below `n` leave room for at most `n` places. -/
theorem of_linear {tok : P → Option Nat} (h : Linear tok) (hn : ∀ x r, tok x = some r → r < n) :
    AtMost n (fun x => ∃ r, tok x = some r) := by
  intro F hF
  have hmaps : ∀ x ∈ F, (tok x).getD 0 ∈ Finset.range n := by
    intro x hx
    obtain ⟨r, hr⟩ := hF x hx
    rw [hr]
    exact Finset.mem_range.2 (hn x r hr)
  have hinj : ∀ x ∈ F, ∀ y ∈ F, (tok x).getD 0 = (tok y).getD 0 → x = y := by
    intro x hx y hy hxy
    obtain ⟨r, hr⟩ := hF x hx
    obtain ⟨u, hu⟩ := hF y hy
    rw [hr, hu] at hxy
    obtain rfl : r = u := hxy
    exact h x y r hr hu
  have hcard := Finset.card_le_card_of_injOn (fun x => (tok x).getD 0) hmaps hinj
  rwa [Finset.card_range] at hcard

/-- `n` places in a row and one more are too many. -/
theorem not_of_succ {f : Nat → P} (hf : Function.Injective f) (hp : ∀ k, k < n → p (f k)) {x : P}
    (hx : p x) (hne : ∀ k, f k ≠ x) : ¬ AtMost n p := by
  classical
  intro h
  have hnot : x ∉ (Finset.range n).image f := by
    intro hmem
    obtain ⟨k, -, hk⟩ := Finset.mem_image.1 hmem
    exact hne k hk
  have hcard := h (insert x ((Finset.range n).image f)) fun y hy => by
    rcases Finset.mem_insert.1 hy with rfl | hmem
    · exact hx
    · obtain ⟨k, hk, rfl⟩ := Finset.mem_image.1 hmem
      exact hp k (Finset.mem_range.1 hk)
  rw [Finset.card_insert_of_notMem hnot, Finset.card_image_of_injective _ hf,
    Finset.card_range] at hcard
  omega

end AtMost

end TaskDispatcher.Library
