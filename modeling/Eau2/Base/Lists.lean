import Mathlib

/-!
# Lists in chunks, and traversals that may fail

A list is cut every `n` elements.  `chunk n l i` is the `i`-th piece, which may be
short at the end, and `chunkCount n m` the number of pieces that `m` elements fill.
Element `i` of the list is element `i % n` of chunk `i / n` (`getElem?_chunk`); behind
a list that fills its chunks, another list is cut on its own (`chunk_append_right`,
`count_add`).

A traversal `mapM` in `Option` that succeeds is a list that matches the first one element
by element (`mapM_eq_some_iff`).  In any monad, a traversal with places whose steps are
pure is pure (`mapM_zipIdx_eq_pure`).

Lists of prefixes are joined to the same list only as the same lists
(`flatMap_eq_iff_of_isPrefix`).
-/

namespace Eau2

variable {α : Type}

def chunk (n : Nat) (l : List α) (i : Nat) : List α := (l.drop (i * n)).take n

/-- How many pieces of `n` it takes to hold `m` elements. -/
def chunkCount (n m : Nat) : Nat := (m + n - 1) / n

namespace Chunk

theorem length_le (n : Nat) (l : List α) (i : Nat) : (chunk n l i).length ≤ n := by
  rw [chunk, List.length_take]
  exact Nat.min_le_left _ _

theorem mem_of_mem {n : Nat} {l : List α} {i : Nat} {a : α} (h : a ∈ chunk n l i) : a ∈ l :=
  List.mem_of_mem_drop (List.mem_of_mem_take h)

/-- **Element `i` is element `i % n` of chunk `i / n`.** -/
theorem getElem?_chunk {n : Nat} (hn : 0 < n) (l : List α) (i : Nat) :
    (chunk n l (i / n))[i % n]? = l[i]? := by
  rw [chunk, List.getElem?_take_of_lt (Nat.mod_lt i hn), List.getElem?_drop, Nat.div_add_mod']

theorem chunk_append_left {n : Nat} {l : List α} {i : Nat} (h : (i + 1) * n ≤ l.length)
    (m : List α) : chunk n (l ++ m) i = chunk n l i := by
  rw [Nat.succ_mul] at h
  rw [chunk, chunk, List.drop_append_of_le_length (by omega),
    List.take_append_of_le_length (by rw [List.length_drop]; omega)]

theorem chunk_append_right {n k : Nat} {l : List α} (h : l.length = k * n) (m : List α)
    (i : Nat) : chunk n (l ++ m) (k + i) = chunk n m i := by
  rw [chunk, chunk, Nat.add_mul, ← h, List.drop_append,
    List.drop_eq_nil_of_le (Nat.le_add_right _ _), List.nil_append, Nat.add_sub_cancel_left]

theorem count_zero {n : Nat} (hn : 0 < n) : chunkCount n 0 = 0 := by
  rw [chunkCount, Nat.zero_add]
  exact Nat.div_eq_of_lt (by omega)

theorem count_add {n : Nat} (hn : 0 < n) (k m : Nat) :
    chunkCount n (k * n + m) = k + chunkCount n m := by
  rw [chunkCount, chunkCount, show k * n + m + n - 1 = m + n - 1 + k * n by omega,
    Nat.add_mul_div_right _ _ hn, Nat.add_comm]

theorem count_mul {n : Nat} (hn : 0 < n) (k : Nat) : chunkCount n (k * n) = k := by
  have := count_add hn k 0
  rwa [count_zero hn, Nat.add_zero, Nat.add_zero] at this

theorem div_lt_count {n m i : Nat} (hn : 0 < n) (h : i < m) : i / n < chunkCount n m := by
  rw [chunkCount, Nat.lt_iff_add_one_le, Nat.le_div_iff_mul_le hn, Nat.succ_mul]
  have := Nat.div_mul_le_self i n
  omega

theorem mul_lt_of_lt_count {n m j : Nat} (h : j < chunkCount n m) : j * n < m := by
  rcases Nat.eq_zero_or_pos n with rfl | hn
  · rw [chunkCount, Nat.div_zero] at h
    omega
  · rw [chunkCount, Nat.lt_iff_add_one_le, Nat.le_div_iff_mul_le hn, Nat.succ_mul] at h
    omega

theorem count_le (n m : Nat) : chunkCount n m ≤ m := by
  by_contra h
  have h1 := mul_lt_of_lt_count (show m < chunkCount n m by omega)
  rcases Nat.eq_zero_or_pos n with rfl | hn
  · rw [chunkCount, Nat.div_zero] at h
    omega
  · have := Nat.le_mul_of_pos_right m hn
    omega

end Chunk

/-! ### Traversals that may fail -/

variable {β γ : Type}

/-- **A traversal succeeds with what it found for each element.** -/
theorem mapM_eq_some_iff {f : α → Option β} {l : List α} {l' : List β} :
    l.mapM f = some l' ↔ List.Forall₂ (fun a b => f a = some b) l l' := by
  induction l generalizing l' with
  | nil =>
    rw [List.mapM_nil, List.forall₂_nil_left_iff]
    constructor
    · intro h
      cases h
      rfl
    · rintro rfl
      rfl
  | cons a l ih =>
    rw [List.mapM_cons, List.forall₂_cons_left_iff]
    constructor
    · intro h
      obtain ⟨b, hb, h⟩ := Option.bind_eq_some_iff.mp h
      obtain ⟨bs, hbs, h⟩ := Option.bind_eq_some_iff.mp h
      cases h
      exact ⟨b, bs, hb, ih.mp hbs, rfl⟩
    · rintro ⟨b, bs, hb, hbs, rfl⟩
      rw [hb, ih.mpr hbs]
      rfl

theorem length_of_mapM {f : α → Option β} {l : List α} {l' : List β} (h : l.mapM f = some l') :
    l.length = l'.length := (mapM_eq_some_iff.mp h).length_eq

theorem mem_of_mapM {f : α → Option β} {l : List α} {l' : List β} (h : l.mapM f = some l')
    {b : β} (hb : b ∈ l') : ∃ a ∈ l, f a = some b := by
  induction mapM_eq_some_iff.mp h with
  | nil => cases hb
  | @cons a b' l bs hab hrest ih =>
    rcases List.mem_cons.mp hb with rfl | hb
    · exact ⟨a, List.mem_cons_self, hab⟩
    · obtain ⟨a', ha', hf⟩ := ih (mapM_eq_some_iff.mpr hrest) hb
      exact ⟨a', List.mem_cons_of_mem a ha', hf⟩

theorem isSome_of_mapM {f : α → Option β} {l : List α} {l' : List β} (h : l.mapM f = some l')
    {a : α} (ha : a ∈ l) : (f a).isSome := by
  induction mapM_eq_some_iff.mp h with
  | nil => cases ha
  | @cons a' b l bs hab hrest ih =>
    rcases List.mem_cons.mp ha with rfl | ha
    · rw [hab]
      rfl
    · exact ih (mapM_eq_some_iff.mpr hrest) ha

theorem filterMap_of_mapM {f : α → Option β} {l : List α} {l' : List β}
    (h : l.mapM f = some l') : l.filterMap f = l' := by
  induction mapM_eq_some_iff.mp h with
  | nil => rfl
  | @cons a b l bs hab hrest ih =>
    rw [List.filterMap_cons_some hab, ih (mapM_eq_some_iff.mpr hrest)]

theorem foldlM_of_mapM {f : α → Option β} {l : List α} {l' : List β} (h : l.mapM f = some l')
    (g : γ → β → Option γ) (c : γ) :
    l.foldlM (fun c a => (f a).bind (g c)) c = l'.foldlM g c := by
  induction mapM_eq_some_iff.mp h generalizing c with
  | nil => rfl
  | @cons a b l bs hab hrest ih =>
    rw [List.foldlM_cons, List.foldlM_cons, hab, Option.bind_some]
    exact congrArg _ (funext fun c' => ih (mapM_eq_some_iff.mpr hrest) c')

theorem mapM_zipIdx_eq_pure {m : Type → Type} [Monad m] [LawfulMonad m] {f : α × ℕ → m β}
    {P : ℕ → β → Prop} {l : List α} {k : ℕ}
    (h : ∀ i a, l[i]? = some a → ∃ b, f (a, k + i) = pure b ∧ P (k + i) b) :
    ∃ l', (l.zipIdx k).mapM f = pure l' ∧ l'.length = l.length ∧
      ∀ i b, l'[i]? = some b → P (k + i) b := by
  induction l generalizing k with
  | nil =>
    refine ⟨[], List.mapM_nil, rfl, ?_⟩
    intro i b hb
    cases hb
  | cons a l ih =>
    obtain ⟨b, hb, hP⟩ := h 0 a rfl
    obtain ⟨l', hl', hlen, hP'⟩ := ih (k := k + 1) fun i a' ha' => by
      have hnext := h (i + 1) a' ha'
      rwa [Nat.add_comm i 1, ← Nat.add_assoc] at hnext
    refine ⟨b :: l', ?_, ?_, ?_⟩
    · rw [List.zipIdx_cons, List.mapM_cons, ← Nat.add_zero k, hb, pure_bind, Nat.add_zero, hl',
        pure_bind]
    · rw [List.length_cons, hlen, List.length_cons]
    · intro i b' hb'
      cases i with
      | zero =>
        cases hb'
        exact hP
      | succ i =>
        have hnext := hP' i b' hb'
        rwa [Nat.add_assoc, Nat.add_comm 1 i] at hnext

/-! ### Lists of prefixes -/

theorem length_flatMap_le {f g : α → List β} {l : List α} (h : ∀ a ∈ l, f a <+: g a) :
    (l.flatMap f).length ≤ (l.flatMap g).length := by
  induction l with
  | nil => exact le_rfl
  | cons a l ih =>
    have hhead := (h a List.mem_cons_self).length_le
    have htail := ih fun a' ha' => h a' (List.mem_cons_of_mem a ha')
    rw [List.flatMap_cons, List.flatMap_cons, List.length_append, List.length_append]
    omega

/-- **Prefixes that come to the whole are the whole.** -/
theorem flatMap_eq_iff_of_isPrefix {f g : α → List β} {l : List α} (h : ∀ a ∈ l, f a <+: g a) :
    l.flatMap f = l.flatMap g ↔ ∀ a ∈ l, f a = g a := by
  induction l with
  | nil => simp
  | cons a l ih =>
    have hhead := h a List.mem_cons_self
    have htail : ∀ a' ∈ l, f a' <+: g a' := fun a' ha' => h a' (List.mem_cons_of_mem a ha')
    rw [List.flatMap_cons, List.flatMap_cons, List.forall_mem_cons, ← ih htail]
    constructor
    · intro heq
      have hlen := congrArg List.length heq
      rw [List.length_append, List.length_append] at hlen
      have hle := length_flatMap_le htail
      have hle' := hhead.length_le
      have hfirst : f a = g a := hhead.eq_of_length (by omega)
      rw [hfirst] at heq
      exact ⟨hfirst, List.append_cancel_left heq⟩
    · rintro ⟨hfirst, hrest⟩
      rw [hfirst, hrest]

end Eau2
