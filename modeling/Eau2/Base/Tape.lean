import Mathlib

/-!
# Writing to and reading from a tape

A format is two programs over one byte tape: one appends, the other consumes.
`Writes m bs` says that `m` appends exactly `bs`; `Reads m bs a` says that `m`,
standing before `bs`, returns `a` and consumes exactly `bs`.  Both hold on every
tape that is `Ready`, whatever it holds before and after, so they compose:

* `Writes.bind`, `Reads.bind`: one field after another;
* `Writes.forM`, `Reads.readTimes`, `Reads.mapM`: a run of fields.

A round trip is then one `Writes` and one `Reads` about the same bytes.
-/

namespace Eau2

/-- A state with a byte tape in it: what has been written so far and what of it
is still unread. -/
class Tape (σ : Type) where
  written : σ → List UInt8
  unread : σ → List UInt8
  /-- The tape can be appended to. -/
  Ready : σ → Prop

open Tape

variable {σ α β : Type} [Tape σ]

/-- `m` appends exactly `bs`. -/
def Writes (m : StateT σ Option Unit) (bs : List UInt8) : Prop :=
  ∀ s, Ready s → ∃ s', m s = some ((), s') ∧ Ready s' ∧
    written s' = written s ++ bs ∧ unread s' = unread s ++ bs

/-- Standing before `bs`, `m` returns `a` and consumes exactly `bs`. -/
def Reads (m : StateT σ Option α) (bs : List UInt8) (a : α) : Prop :=
  ∀ s rest, unread s = bs ++ rest → ∃ s', m s = some (a, s') ∧ (Ready s → Ready s') ∧
    written s' = written s ∧ unread s' = rest

/-! ### Writing -/

theorem Writes.pure : Writes (pure () : StateT σ Option Unit) [] := by
  intro s hs
  exact ⟨s, rfl, hs, by simp, by simp⟩

theorem Writes.bind {m k : StateT σ Option Unit} {as bs : List UInt8} (hm : Writes m as)
    (hk : Writes k bs) : Writes (m >>= fun _ => k) (as ++ bs) := by
  intro s hs
  obtain ⟨s1, e1, r1, w1, u1⟩ := hm s hs
  obtain ⟨s2, e2, r2, w2, u2⟩ := hk s1 r1
  refine ⟨s2, ?_, r2, ?_, ?_⟩
  · show (m s).bind (fun p => k p.2) = _
    rw [e1]
    exact e2
  · rw [w2, w1, List.append_assoc]
  · rw [u2, u1, List.append_assoc]

theorem Writes.forM {f : α → StateT σ Option Unit} {enc : α → List UInt8} (xs : List α)
    (h : ∀ x ∈ xs, Writes (f x) (enc x)) : Writes (xs.forM f) (xs.flatMap enc) := by
  induction xs with
  | nil => exact Writes.pure
  | cons x xs ih =>
    rw [List.flatMap_cons]
    show Writes (f x >>= fun _ => xs.forM f) _
    exact (h x List.mem_cons_self).bind (ih fun y hy => h y (List.mem_cons_of_mem x hy))

/-! ### Reading -/

theorem Reads.pure (a : α) : Reads (pure a : StateT σ Option α) [] a := by
  intro s rest h
  exact ⟨s, rfl, id, rfl, h⟩

theorem Reads.bind {m : StateT σ Option α} {k : α → StateT σ Option β} {as bs : List UInt8}
    {a : α} {b : β} (hm : Reads m as a) (hk : Reads (k a) bs b) : Reads (m >>= k) (as ++ bs) b := by
  intro s rest h
  obtain ⟨s1, e1, r1, w1, u1⟩ := hm s (bs ++ rest) (by rw [h, List.append_assoc])
  obtain ⟨s2, e2, r2, w2, u2⟩ := hk s1 rest u1
  refine ⟨s2, ?_, fun hs => r2 (r1 hs), w2.trans w1, u2⟩
  show (m s).bind (fun p => k p.1 p.2) = _
  rw [e1]
  exact e2

theorem Reads.map {m : StateT σ Option α} {k : α → StateT σ Option β} {as : List UInt8}
    {a : α} {b : β} (hm : Reads m as a) (hk : Reads (k a) [] b) : Reads (m >>= k) as b := by
  have := hm.bind hk
  rwa [List.append_nil] at this

def readTimes (m : StateT σ Option α) : Nat → StateT σ Option (List α)
  | 0 => Pure.pure []
  | n + 1 => do
    let a ← m
    let as ← readTimes m n
    Pure.pure (a :: as)

/-- **A counted run of fields reads back element by element.** -/
theorem Reads.readTimes {m : StateT σ Option α} (enc : β → List UInt8) {g : β → α} (xs : List β)
    (h : ∀ x ∈ xs, Reads m (enc x) (g x)) :
    Reads (readTimes m xs.length) (xs.flatMap enc) (xs.map g) := by
  induction xs with
  | nil => exact Reads.pure []
  | cons x xs ih =>
    rw [List.flatMap_cons]
    exact (h x List.mem_cons_self).bind
      ((ih fun y hy => h y (List.mem_cons_of_mem x hy)).map (Reads.pure _))

/-- **Fields of several kinds read back one after the other.** -/
theorem Reads.mapM {κ : Type} {read : κ → StateT σ Option α} {kind : α → κ} {enc : α → List UInt8}
    (xs : List α) (h : ∀ x ∈ xs, Reads (read (kind x)) (enc x) x) :
    Reads ((xs.map kind).mapM read) (xs.flatMap enc) xs := by
  induction xs with
  | nil => exact Reads.pure []
  | cons x xs ih =>
    rw [List.map_cons, List.mapM_cons, List.flatMap_cons]
    exact (h x List.mem_cons_self).bind
      ((ih fun y hy => h y (List.mem_cons_of_mem x hy)).map (Reads.pure _))

end Eau2
