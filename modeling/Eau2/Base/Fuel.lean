import Mathlib

/-!
# Loops with a bound

A loop that may go on for ever is a function of the number of rounds it is given,
`none` where they do not suffice.

* `Settles f a`: from some number of rounds on, `f` gives `a`; it does so for one `a`
  only.
* `Spins f`: no number of rounds suffices.
-/

namespace Eau2

variable {α : Type*} {f : ℕ → Option α} {a b : α}

def Settles (f : ℕ → Option α) (a : α) : Prop := ∃ n, ∀ fuel, n ≤ fuel → f fuel = some a

def Spins (f : ℕ → Option α) : Prop := ∀ fuel, f fuel = none

theorem Settles.unique (h : Settles f a) (h' : Settles f b) : a = b := by
  obtain ⟨n, hn⟩ := h
  obtain ⟨n', hn'⟩ := h'
  have ha := hn (max n n') (Nat.le_max_left n n')
  have hb := hn' (max n n') (Nat.le_max_right n n')
  exact Option.some.inj (ha.symm.trans hb)

theorem settles_of_succ {n : ℕ} (h : ∀ fuel, n ≤ fuel → f (fuel + 1) = some a) : Settles f a := by
  refine ⟨n + 1, ?_⟩
  intro fuel hfuel
  obtain ⟨fuel, rfl⟩ : ∃ fuel', fuel = fuel' + 1 := ⟨fuel - 1, by omega⟩
  exact h fuel (Nat.le_of_succ_le_succ hfuel)

theorem not_settles_of_none {n : ℕ} (h : ∀ fuel, n ≤ fuel → f fuel = none) : ¬ Settles f a := by
  intro hs
  obtain ⟨n', hn'⟩ := hs
  have ha := hn' (max n n') (Nat.le_max_right n n')
  rw [h _ (Nat.le_max_left n n')] at ha
  cases ha

end Eau2
