import Mathlib

/-!
# Arrays that fill up

An array is the list of its cells, of which `none` is one that was never written.  An
access outside of it, and a read of such a cell, is `undefined`.

* `filled`: an array whose first cells hold a list; what the loops over the list read and
  write is in `load_filled`, `store_filled`, `store_filled_next` and `copy_filled`.
-/

namespace Eau2

/-- How a call does not return. -/
inductive Halt
  | exit
  | undefined
  deriving DecidableEq, Repr

abbrev Slots (α : Type*) := List (Option α)

namespace Slots

variable {α : Type*}

def load (cells : Slots α) (i : Nat) : Except Halt α :=
  match cells[i]?.join with
  | some a => .ok a
  | none => .error .undefined

def store (cells : Slots α) (i : Nat) (a : α) : Except Halt (Slots α) :=
  if i < cells.length then .ok (cells.set i (some a)) else .error .undefined

/-- `for (i = 0; i < n; i++) dst[i] = src[i]` -/
def copy (src : Slots α) (n : Nat) (dst : Slots α) : Except Halt (Slots α) :=
  (List.range n).foldlM (fun dst i => do
    let a ← load src i
    store dst i a) dst

/-- The elements of `as`, and the cells `rest` behind them. -/
def filled (as : List α) (rest : Slots α) : Slots α := as.map some ++ rest

@[simp] theorem length_filled (as : List α) (rest : Slots α) :
    (filled as rest).length = as.length + rest.length := by simp [filled]

@[simp] theorem filled_nil (rest : Slots α) : filled [] rest = rest := rfl

theorem filled_append (as bs : List α) (rest : Slots α) :
    filled (as ++ bs) rest = filled as (filled bs rest) := by simp [filled]

theorem load_filled {as : List α} {i : Nat} (h : i < as.length) (rest : Slots α) :
    load (filled as rest) i = .ok as[i] := by
  have hcell : (filled as rest)[i]? = some (some as[i]) := by
    simp [filled, List.getElem?_append_left, h]
  rw [load, hcell]
  rfl

theorem store_filled {as : List α} {i : Nat} (h : i < as.length) (rest : Slots α) (a : α) :
    store (filled as rest) i a = .ok (filled (as.set i a) rest) := by
  have hset : (filled as rest).set i (some a) = filled (as.set i a) rest := by
    rw [filled, filled, List.map_set, List.set_append_left _ _ (by rwa [List.length_map])]
  have hlt : i < (filled as rest).length := by
    rw [length_filled]
    omega
  rw [store, if_pos hlt, hset]

theorem store_filled_next (as : List α) (cell : Option α) (rest : Slots α) (a : α) :
    store (filled as (cell :: rest)) as.length a = .ok (filled (as ++ [a]) rest) := by
  have hset : (filled as (cell :: rest)).set as.length (some a) = filled (as ++ [a]) rest := by
    simp [filled]
  rw [store, if_pos (by simp), hset]

/-- **The loop that copies an array into one with room for its elements.** -/
theorem copy_filled (as : List α) (rest : Slots α) {dst : Slots α} (h : as.length ≤ dst.length) :
    copy (filled as rest) as.length dst = .ok (filled as (dst.drop as.length)) := by
  have hall : ∀ n ≤ as.length,
      copy (filled as rest) n dst = .ok (filled (as.take n) (dst.drop n)) := by
    intro n
    induction n with
    | zero => intro _; rfl
    | succ n ih =>
      intro hn
      have hstore := store_filled_next (as.take n) dst[n] (dst.drop (n + 1)) as[n]
      rw [List.length_take_of_le (by omega), List.take_append_getElem,
        ← List.drop_eq_getElem_cons] at hstore
      rw [copy, List.range_succ, List.foldlM_append]
      show (copy (filled as rest) n dst).bind _ = _
      rw [ih (by omega)]
      show ((load (filled as rest) n).bind _).bind _ = _
      rw [load_filled (by omega)]
      show (store (filled (as.take n) (dst.drop n)) n as[n]).bind _ = _
      rw [hstore]
      rfl
  rw [hall as.length le_rfl, List.take_length]

end Slots

end Eau2
