import Mathlib

/-!
# Arrays in memory

An array is the list of all its cells.  `blit` copies into one and `slice` copies out of
one; an access outside the array is `none`.

* `take_blit`: a copy to place `i` leaves the cells below `i` alone and puts its own
  behind them.
-/

namespace Eau2

variable {α : Type}

/-- `memcpy(dst + i, src, src.length)` -/
def blit (dst : List α) (i : Nat) (src : List α) : Option (List α) :=
  if i + src.length ≤ dst.length then some (dst.take i ++ (src ++ dst.drop (i + src.length)))
  else none

/-- `memcpy(out, src + i, n)`; no byte is none outside. -/
def slice (src : List α) (i n : Nat) : Option (List α) :=
  if n ≤ src.length - i then some ((src.drop i).take n) else none

theorem blit_of_le {dst src : List α} {i : Nat} (h : i + src.length ≤ dst.length) :
    blit dst i src = some (dst.take i ++ (src ++ dst.drop (i + src.length))) := if_pos h

theorem le_of_blit {dst src d : List α} {i : Nat} (h : blit dst i src = some d) :
    i + src.length ≤ dst.length := by
  rw [blit] at h
  split at h
  · assumption
  · cases h

theorem eq_of_blit {dst src d : List α} {i : Nat} (h : blit dst i src = some d) :
    d = dst.take i ++ (src ++ dst.drop (i + src.length)) := by
  rw [blit_of_le (le_of_blit h)] at h
  exact (Option.some.inj h).symm

theorem length_blit {dst src d : List α} {i : Nat} (h : blit dst i src = some d) :
    d.length = dst.length := by
  have hle := le_of_blit h
  rw [eq_of_blit h, List.length_append, List.length_append, List.length_take, List.length_drop]
  omega

/-- **The copy stands behind what was below it.** -/
theorem take_blit {dst src d : List α} {i : Nat} (h : blit dst i src = some d) :
    d.take (i + src.length) = dst.take i ++ src := by
  have hle := le_of_blit h
  have hlen : (dst.take i).length = i := by
    rw [List.length_take]
    omega
  rw [eq_of_blit h, ← List.append_assoc]
  refine List.take_left' ?_
  rw [List.length_append, hlen]

theorem exists_blit {dst src : List α} {i : Nat} (h : i + src.length ≤ dst.length) :
    ∃ d, blit dst i src = some d := ⟨_, blit_of_le h⟩

theorem slice_of_le {src : List α} {i n : Nat} (h : n ≤ src.length - i) :
    slice src i n = some ((src.drop i).take n) := if_pos h

theorem slice_of_isPrefix {src out : List α} {i : Nat} (h : out <+: src.drop i) :
    slice src i out.length = some out := by
  have hlen := h.length_le
  rw [List.length_drop] at hlen
  rw [slice_of_le hlen, ← List.prefix_iff_eq_take.mp h]

end Eau2
