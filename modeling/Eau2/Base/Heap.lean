import Eau2.Base.Memory

/-!
# Arrays on the heap

What `new[]` has handed out, by address.  A new array holds what memory holds there, and
no address is handed out twice, so that an access through a pointer to a deleted array is
`none`.

* `KeepsBut`: what an operation that owns one array leaves alone.
-/

namespace Eau2

/-- The arrays by address; a deleted one is `none`. -/
abbrev Heap (α : Type) := List (Option (List α))

/-- What `new α[n]` finds at an address. -/
abbrev Junk (α : Type) := Nat → (n : Nat) → Vector α n

namespace Heap

variable {α : Type}

def get (h : Heap α) (a : Nat) : Option (List α) := h[a]?.join

/-- `new α[n]` -/
def alloc (mem : Junk α) (n : Nat) (h : Heap α) : Nat × Heap α :=
  (h.length, h ++ [some (mem h.length n).toList])

/-- `delete[]` -/
def free (a : Nat) (h : Heap α) : Option (Heap α) := do
  let _ ← h.get a
  some (h.set a none)

/-- `memcpy(p + i, src, n)` -/
def copyTo (a i : Nat) (src : List α) (h : Heap α) : Option (Heap α) := do
  let cells ← h.get a
  let cells ← blit cells i src
  some (h.set a (some cells))

/-- `memcpy(out, p + i, n)` -/
def copyFrom (a i n : Nat) (h : Heap α) : Option (List α) := do
  let cells ← h.get a
  slice cells i n

/-! ### What is where -/

theorem lt_of_get {h : Heap α} {a : Nat} {cells : List α} (ha : h.get a = some cells) :
    a < h.length := by
  by_contra hge
  rw [get, List.getElem?_eq_none (Nat.le_of_not_lt hge)] at ha
  cases ha

theorem get_length (h : Heap α) : h.get h.length = none := by
  rw [get, List.getElem?_eq_none le_rfl]
  rfl

theorem get_alloc (mem : Junk α) (n : Nat) (h : Heap α) :
    (h.alloc mem n).2.get h.length = some (mem h.length n).toList := by
  show ((h ++ [some (mem h.length n).toList])[h.length]?).join = _
  rw [List.getElem?_concat_length]
  rfl

theorem get_set {h : Heap α} {a : Nat} {cells : List α} (ha : h.get a = some cells)
    (o : Option (List α)) : get (h.set a o) a = o := by
  rw [get, List.getElem?_set_self (lt_of_get ha)]
  rfl

theorem get_set_ne {h : Heap α} {a b : Nat} (hne : a ≠ b) (o : Option (List α)) :
    get (h.set a o) b = h.get b := by
  rw [get, List.getElem?_set_ne hne]
  rfl

/-! ### What stays -/

def Keeps (h h' : Heap α) : Prop := ∀ a cells, h.get a = some cells → h'.get a = some cells

/-- Every array but the one at `b` is as it was. -/
def KeepsBut (b : Nat) (h h' : Heap α) : Prop :=
  ∀ a cells, a ≠ b → h.get a = some cells → h'.get a = some cells

theorem Keeps.but {h h' : Heap α} (hk : Keeps h h') (b : Nat) : KeepsBut b h h' :=
  fun a cells _ ha => hk a cells ha

theorem KeepsBut.refl (b : Nat) (h : Heap α) : KeepsBut b h h := fun _ _ _ ha => ha

theorem KeepsBut.trans {b b' : Nat} {h h₁ h₂ : Heap α} (h₁₂ : KeepsBut b h h₁)
    (hb : b' = b ∨ h.get b' = none) (h₂₃ : KeepsBut b' h₁ h₂) : KeepsBut b h h₂ := by
  intro a cells hne ha
  refine h₂₃ a cells ?_ (h₁₂ a cells hne ha)
  rintro rfl
  rcases hb with rfl | hb
  · exact hne rfl
  · rw [ha] at hb
    cases hb

theorem keeps_alloc (mem : Junk α) (n : Nat) (h : Heap α) : Keeps h (h.alloc mem n).2 := by
  intro a cells ha
  show ((h ++ [some (mem h.length n).toList])[a]?).join = some cells
  rw [List.getElem?_append_left (lt_of_get ha)]
  exact ha

theorem keepsBut_set (b : Nat) (h : Heap α) (o : Option (List α)) : KeepsBut b h (h.set b o) := by
  intro a cells hne ha
  rw [get_set_ne hne.symm]
  exact ha

theorem copyTo_eq {h : Heap α} {a i : Nat} {cells src d : List α} (ha : h.get a = some cells)
    (hd : blit cells i src = some d) : h.copyTo a i src = some (h.set a (some d)) := by
  rw [copyTo, ha, Option.bind_eq_bind, Option.bind_some, hd]
  rfl

theorem copyTo_alloc (mem : Junk α) {n : Nat} {src : List α} (hn : src.length ≤ n) (h : Heap α) :
    ∃ h' junk, (h.alloc mem n).2.copyTo h.length 0 src = some h' ∧
      h'.get h.length = some (src ++ junk) ∧ (src ++ junk).length = n ∧ Keeps h h' := by
  have hnew := get_alloc mem n h
  have hroom : 0 + src.length ≤ (mem h.length n).toList.length := by
    rw [Vector.length_toList]
    omega
  refine ⟨_, (mem h.length n).toList.drop (0 + src.length), copyTo_eq hnew (blit_of_le hroom),
    ?_, ?_, ?_⟩
  · rw [List.take_zero, List.nil_append, get_set hnew]
  · rw [List.length_append, List.length_drop, Vector.length_toList]
    omega
  · intro a cells ha
    rw [get_set_ne]
    · exact keeps_alloc mem n h a cells ha
    · rintro rfl
      rw [get_length] at ha
      cases ha

theorem copyTo_same {h : Heap α} {a i : Nat} {cells src : List α} (ha : h.get a = some cells)
    (hlen : i + src.length ≤ cells.length) (hsrc : src <+: cells.drop i) :
    h.copyTo a i src = some h := by
  have hblit : blit cells i src = some cells := by
    obtain ⟨rest, hrest⟩ := hsrc
    rw [blit_of_le hlen, ← List.drop_drop, ← hrest, List.drop_left, hrest, List.take_append_drop]
  have hset : h.set a (some cells) = h := by
    refine List.ext_getElem? fun b => ?_
    by_cases hb : b = a
    · subst hb
      rw [List.getElem?_set_self (lt_of_get ha)]
      have hjoin : h[b]?.join = some cells := ha
      cases hget : h[b]? with
      | none =>
        rw [hget] at hjoin
        cases hjoin
      | some o =>
        rw [hget] at hjoin
        exact congrArg some hjoin.symm
    · rw [List.getElem?_set_ne (Ne.symm hb)]
  rw [copyTo, ha, Option.bind_eq_bind, Option.bind_some, hblit, Option.bind_some, hset]

end Heap

end Eau2
