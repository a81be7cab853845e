import Mathlib

/-!
# Reading a growing history

The values of a register, one after the other, are a list that grows at its end.
What a reader has seen *ascends* through it (`Ascends`): it is found at indices none
of which is below the one before.

* `Ascends.mono`: the history may grow.
* `Ascends.last`: what the register holds now may always be read next.
-/

namespace Eau2

variable {α : Type*}

/-- `reads` are values of `history` at indices that never go down. -/
def Ascends (history reads : List α) : Prop :=
  ∃ is : List Nat, is.Pairwise (· ≤ ·) ∧ reads.map some = is.map fun i => history[i]?

theorem Ascends.nil (history : List α) : Ascends history [] := ⟨[], .nil, rfl⟩

theorem lt_length_of_reads {history reads : List α} {is : List Nat}
    (h : reads.map some = is.map fun i => history[i]?) : ∀ i ∈ is, i < history.length := by
  intro i hi
  have hmem : history[i]? ∈ reads.map some := by
    rw [h]
    exact List.mem_map_of_mem hi
  obtain ⟨a, -, ha⟩ := List.mem_map.mp hmem
  exact (List.getElem?_eq_some_iff.mp ha.symm).1

theorem Ascends.mono {history history' reads : List α} (h : Ascends history reads)
    (hp : history <+: history') : Ascends history' reads := by
  obtain ⟨is, hle, hat⟩ := h
  obtain ⟨tail, rfl⟩ := hp
  refine ⟨is, hle, hat.trans (List.map_congr_left fun i hi => ?_)⟩
  exact (List.getElem?_append_left (lt_length_of_reads hat i hi)).symm

/-- **What is there now may be read next.** -/
theorem Ascends.last {history reads : List α} (h : Ascends history reads) {a : α}
    (ha : history.getLast? = some a) : Ascends history (reads ++ [a]) := by
  obtain ⟨is, hle, hat⟩ := h
  refine ⟨is ++ [history.length - 1], ?_, ?_⟩
  · rw [List.pairwise_append]
    refine ⟨hle, List.pairwise_singleton _ _, ?_⟩
    intro i hi j hj
    have hlt := lt_length_of_reads hat i hi
    rw [List.mem_singleton.mp hj]
    omega
  · rw [List.map_append, List.map_append, hat]
    congr 1
    show [some a] = [history[history.length - 1]?]
    rw [← List.getLast?_eq_getElem?, ha]

end Eau2
