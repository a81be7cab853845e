import Mathlib

/-!
# First in, first out

A store of at most `cap` items that keeps a queue of them.  An access to an item that
is not there inserts it at the back; if the store is full, the front goes.

* `length_access_le`: an access keeps the queue within `cap`.
* `resident_eq_rtake`: the queue is the last `cap` insertions, in the order of insertion.
-/

namespace Eau2

namespace Fifo

variable {α : Type*} [DecidableEq α] (cap : ℕ)

/-- The queue after an access to `a`. -/
def access (q : List α) (a : α) : List α :=
  if a ∈ q then q else (if cap ≤ q.length then q.tail else q) ++ [a]

def resident (as : List α) : List α := as.foldl (access cap) []

def insertions (q : List α) : List α → List α
  | [] => []
  | a :: as => (if a ∈ q then [] else [a]) ++ insertions (access cap q a) as

variable {cap} {q : List α}

theorem access_hit {a : α} (h : a ∈ q) : access cap q a = q := if_pos h

theorem access_room {a : α} (h : a ∉ q) (hroom : q.length < cap) : access cap q a = q ++ [a] := by
  rw [access, if_neg h, if_neg (Nat.not_le.mpr hroom)]

theorem access_full {a : α} (h : a ∉ q) (hfull : cap ≤ q.length) :
    access cap q a = q.tail ++ [a] := by
  rw [access, if_neg h, if_pos hfull]

theorem length_access_le (hcap : 0 < cap) (h : q.length ≤ cap) (a : α) :
    (access cap q a).length ≤ cap := by
  by_cases ha : a ∈ q
  · rwa [access_hit ha]
  · by_cases hroom : q.length < cap
    · rw [access_room ha hroom, List.length_append, List.length_singleton]
      exact hroom
    · rw [access_full ha (by omega), List.length_append, List.length_tail, List.length_singleton]
      omega

theorem rtake_cons {β : Type*} {b : β} {l : List β} (h : cap ≤ l.length) :
    (b :: l).rtake cap = l.rtake cap := by
  rw [List.rtake, List.rtake, List.length_cons, Nat.sub_add_comm h, List.drop_succ_cons]

theorem rtake_of_length_le {β : Type*} {l : List β} (h : l.length ≤ cap) : l.rtake cap = l := by
  rw [List.rtake, Nat.sub_eq_zero_of_le h, List.drop_zero]

theorem foldl_access_eq_rtake (h : q.length ≤ cap) (hcap : 0 < cap) (as : List α) :
    as.foldl (access cap) q = (q ++ insertions cap q as).rtake cap := by
  induction as generalizing q with
  | nil =>
    rw [insertions, List.append_nil, rtake_of_length_le h]
    rfl
  | cons a as ih =>
    rw [List.foldl_cons, ih (length_access_le hcap h a), insertions]
    by_cases ha : a ∈ q
    · rw [if_pos ha, access_hit ha, List.nil_append]
    · rw [if_neg ha]
      by_cases hroom : q.length < cap
      · rw [access_room ha hroom, List.append_assoc]
      · -- the front of the full queue is the one insertion that falls out of the last `cap`
        rw [access_full ha (by omega)]
        cases q with
        | nil =>
          rw [List.length_nil] at hroom
          omega
        | cons b q =>
          rw [List.length_cons] at hroom
          rw [List.tail_cons, List.cons_append, rtake_cons, List.append_assoc]
          simp only [List.length_append, List.length_singleton]
          omega

/-- **The resident items are the last `cap` insertions, the oldest in front.** -/
theorem resident_eq_rtake (hcap : 0 < cap) (as : List α) :
    resident cap as = (insertions cap [] as).rtake cap :=
  foldl_access_eq_rtake (q := []) (Nat.zero_le cap) hcap as

end Fifo

end Eau2
