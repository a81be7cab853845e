import Eau2.Base.Lists

/-!
# Reading through blocks

A list that is kept as a list of blocks, of at most `n` elements each, and is read as
if every block were full: element `i` is looked for at `i % n` of block `i / n`.

* `readAt_iff`: that finds every element exactly when all blocks but the last are full.
* `cut`: the blocks of a list that is cut on its own.
* `fullButLast_cuts`: lists that are cut one after the other are full up to the last
  block exactly when they are `Aligned`, that is when each list with a non-empty one
  behind it fills its blocks.
-/

namespace Eau2

variable {α : Type}

def readAt (n : Nat) (bs : List (List α)) (i : Nat) : Option α :=
  bs[i / n]?.bind fun b => b[i % n]?

def FullButLast (n : Nat) : List (List α) → Prop
  | [] => True
  | b :: bs => (bs = [] ∨ b.length = n) ∧ FullButLast n bs

theorem readAt_lt {n : Nat} {b : List α} (bs : List (List α)) {i : Nat} (h : i < n) :
    readAt n (b :: bs) i = b[i]? := by
  rw [readAt, Nat.div_eq_of_lt h, Nat.mod_eq_of_lt h]
  rfl

theorem readAt_add {n : Nat} (hn : 0 < n) (b : List α) (bs : List (List α)) (i : Nat) :
    readAt n (b :: bs) (n + i) = readAt n bs i := by
  rw [readAt, Nat.add_div_left i hn, Nat.add_mod_left, readAt]
  rfl

/-- **Reading by division finds every element exactly when the blocks before the last
are full.** -/
theorem readAt_iff {n : Nat} (hn : 0 < n) {bs : List (List α)}
    (hbs : ∀ b ∈ bs, b ≠ [] ∧ b.length ≤ n) :
    (∀ i, i < bs.flatten.length → readAt n bs i = bs.flatten[i]?) ↔ FullButLast n bs := by
  induction bs with
  | nil => exact ⟨fun _ => trivial, fun _ i hi => absurd hi (Nat.not_lt_zero i)⟩
  | cons b bs ih =>
    have hb := hbs b List.mem_cons_self
    have hrest := ih fun b' hb' => hbs b' (List.mem_cons_of_mem b hb')
    unfold FullButLast
    rw [← hrest, List.flatten_cons, List.length_append]
    constructor
    · intro hread
      have hfull : bs = [] ∨ b.length = n := by
        by_contra hc
        obtain ⟨hne, hlen⟩ := not_or.mp hc
        -- the first element behind a short block is looked for in it
        have hpos : 0 < bs.flatten.length := by
          rw [List.length_pos_iff]
          intro hnil
          cases bs with
          | nil => exact hne rfl
          | cons b' bs =>
            have hb' := (hbs b' (List.mem_cons_of_mem b List.mem_cons_self)).1
            exact hb' (List.append_eq_nil_iff.mp hnil).1
        have hat := hread b.length (by omega)
        rw [readAt_lt bs (by omega), List.getElem?_eq_none (Nat.le_refl _),
          List.getElem?_append_right (Nat.le_refl _), Nat.sub_self] at hat
        rw [List.getElem?_eq_getElem hpos] at hat
        cases hat
      refine ⟨hfull, ?_⟩
      intro i hi
      rcases hfull with rfl | hlen
      · exact absurd hi (Nat.not_lt_zero i)
      · have hat := hread (n + i) (by omega)
        rwa [readAt_add hn, List.getElem?_append_right (by omega), hlen,
          Nat.add_sub_cancel_left] at hat
    · intro hall i hi
      obtain ⟨hfull, hread⟩ := hall
      by_cases hin : i < b.length
      · rw [readAt_lt bs (by omega), List.getElem?_append_left hin]
      · rcases hfull with rfl | hlen
        · rw [List.flatten_nil, List.length_nil] at hi
          omega
        · obtain ⟨j, rfl⟩ : ∃ j, i = n + j := ⟨i - n, by omega⟩
          rw [readAt_add hn, hread j (by omega), List.getElem?_append_right (by omega), hlen,
            Nat.add_sub_cancel_left]

theorem div_lt_length {n : Nat} {bs : List (List α)} (hbs : ∀ b ∈ bs, b.length ≤ n) {i : Nat}
    (h : i < bs.flatten.length) : i / n < bs.length := by
  have hle : bs.flatten.length ≤ n * bs.length := by
    clear h
    induction bs with
    | nil => exact Nat.zero_le _
    | cons b bs ih =>
      have hb := hbs b List.mem_cons_self
      have hrest := ih fun b' hb' => hbs b' (List.mem_cons_of_mem b hb')
      rw [List.flatten_cons, List.length_append, List.length_cons, Nat.mul_succ]
      omega
  exact Nat.div_lt_of_lt_mul (Nat.lt_of_lt_of_le h hle)

theorem fullButLast_append {n : Nat} {bs cs : List (List α)} (hcs : cs ≠ []) :
    FullButLast n (bs ++ cs) ↔ (∀ b ∈ bs, b.length = n) ∧ FullButLast n cs := by
  induction bs with
  | nil => simp
  | cons b bs ih =>
    rw [List.cons_append, FullButLast, ih, List.forall_mem_cons, and_assoc,
      or_iff_right (fun h => hcs (List.append_eq_nil_iff.mp h).2)]

/-! ### Lists that are cut on their own -/

def cut (n : Nat) (l : List α) : List (List α) :=
  (List.range (chunkCount n l.length)).map (chunk n l)

theorem cut_of_le {n : Nat} (hn : 0 < n) {l : List α} (hne : l ≠ []) (hle : l.length ≤ n) :
    cut n l = [l] := by
  have hpos := List.length_pos_of_ne_nil hne
  have hcount : chunkCount n l.length = 1 := by
    rw [chunkCount, Nat.div_eq_iff hn]
    omega
  rw [cut, hcount, List.range_one, List.map_singleton, chunk, Nat.zero_mul, List.drop_zero,
    List.take_of_length_le hle]

theorem cut_append {n : Nat} (hn : 0 < n) {l : List α} (h : l.length = n) (m : List α) :
    cut n (l ++ m) = l :: cut n m := by
  have hcount : chunkCount n (l ++ m).length = 1 + chunkCount n m.length := by
    rw [List.length_append, h]
    have := Chunk.count_add hn 1 m.length
    rwa [Nat.one_mul] at this
  have hfirst : chunk n (l ++ m) 0 = l := by
    rw [chunk, Nat.zero_mul, List.drop_zero, ← h, List.take_left]
  rw [cut, hcount, List.range_add, List.map_append, List.range_one, List.map_singleton, hfirst,
    List.map_map, cut]
  show l :: _ = l :: _
  congr 1
  refine List.map_congr_left fun i _ => ?_
  have h1 : l.length = 1 * n := by rw [h, Nat.one_mul]
  exact Chunk.chunk_append_right h1 m i

/-- **Every list is cut into full pieces and one that may be short.** -/
theorem cut_induction {n : Nat} (hn : 0 < n) {P : List α → Prop} (nil : P [])
    (short : ∀ l, l ≠ [] → l.length ≤ n → P l)
    (full : ∀ l m, l.length = n → m ≠ [] → P m → P (l ++ m)) (l : List α) : P l := by
  induction hlen : l.length using Nat.strong_induction_on generalizing l with
  | _ k ih =>
    subst hlen
    by_cases hnil : l = []
    · rw [hnil]
      exact nil
    · by_cases hle : l.length ≤ n
      · exact short l hnil hle
      · have htake : (l.take n).length = n := by
          rw [List.length_take]
          omega
        have hdrop : l.drop n ≠ [] := by
          intro hc
          have := congrArg List.length hc
          rw [List.length_drop, List.length_nil] at this
          omega
        have hrec := ih (l.drop n).length (by rw [List.length_drop]; omega) (l.drop n) rfl
        have hP := full _ _ htake hdrop hrec
        rwa [List.take_append_drop] at hP

theorem cut_nil {n : Nat} (hn : 0 < n) : cut n ([] : List α) = [] := by
  rw [cut, List.length_nil, Chunk.count_zero hn]
  rfl

theorem cut_ne_nil {n : Nat} (hn : 0 < n) {l : List α} (h : l ≠ []) : cut n l ≠ [] := by
  induction l using cut_induction hn with
  | nil => exact absurd rfl h
  | short l hne hle =>
    rw [cut_of_le hn hne hle]
    exact List.cons_ne_nil _ _
  | full l m hl _ _ =>
    rw [cut_append hn hl]
    exact List.cons_ne_nil _ _

theorem flatten_cut {n : Nat} (hn : 0 < n) (l : List α) : (cut n l).flatten = l := by
  induction l using cut_induction hn with
  | nil => rw [cut_nil hn, List.flatten_nil]
  | short l hne hle => rw [cut_of_le hn hne hle, List.flatten_singleton]
  | full l m hl _ ih => rw [cut_append hn hl, List.flatten_cons, ih]

theorem of_mem_cut {n : Nat} (hn : 0 < n) {l b : List α} (h : b ∈ cut n l) :
    b ≠ [] ∧ b.length ≤ n := by
  obtain ⟨i, hi, rfl⟩ := List.mem_map.mp h
  refine ⟨?_, Chunk.length_le n l i⟩
  have hlt := Chunk.mul_lt_of_lt_count (List.mem_range.mp hi)
  rw [← List.length_pos_iff, chunk, List.length_take, List.length_drop]
  omega

theorem fullButLast_cut {n : Nat} (hn : 0 < n) (l : List α) : FullButLast n (cut n l) := by
  induction l using cut_induction hn with
  | nil =>
    rw [cut_nil hn]
    trivial
  | short l hne hle =>
    rw [cut_of_le hn hne hle]
    exact ⟨Or.inl rfl, trivial⟩
  | full l m hl _ ih =>
    rw [cut_append hn hl]
    exact ⟨Or.inr hl, ih⟩

theorem full_cut_iff {n : Nat} (hn : 0 < n) (l : List α) :
    (∀ b ∈ cut n l, b.length = n) ↔ n ∣ l.length := by
  induction l using cut_induction hn with
  | nil =>
    rw [cut_nil hn]
    simp
  | short l hne hle =>
    rw [cut_of_le hn hne hle, List.forall_mem_singleton]
    constructor
    · intro h
      exact ⟨1, by rw [h, Nat.mul_one]⟩
    · intro h
      exact Nat.le_antisymm hle (Nat.le_of_dvd (List.length_pos_of_ne_nil hne) h)
  | full l m hl _ ih =>
    rw [cut_append hn hl, List.forall_mem_cons, ih, List.length_append, hl,
      Nat.dvd_add_right (Nat.dvd_refl n)]
    exact and_iff_right rfl

/-- Every list with a non-empty one behind it has a length that is a multiple of `n`. -/
def Aligned (n : Nat) : List (List α) → Prop
  | [] => True
  | l :: ls => (ls.flatten = [] ∨ n ∣ l.length) ∧ Aligned n ls

theorem flatMap_cut_eq_nil {n : Nat} (hn : 0 < n) {ls : List (List α)} :
    ls.flatMap (cut n) = [] ↔ ls.flatten = [] := by
  rw [List.flatMap_eq_nil_iff, List.flatten_eq_nil_iff]
  refine forall₂_congr fun l _ => ?_
  constructor
  · intro h
    by_contra hne
    exact cut_ne_nil hn hne h
  · rintro rfl
    exact cut_nil hn

theorem flatten_flatMap_cut {n : Nat} (hn : 0 < n) (ls : List (List α)) :
    (ls.flatMap (cut n)).flatten = ls.flatten := by
  induction ls with
  | nil => rfl
  | cons l ls ih =>
    rw [List.flatMap_cons, List.flatten_append, flatten_cut hn, ih, List.flatten_cons]

/-- **Lists that are cut one after the other leave no short block in between exactly when
they are aligned.** -/
theorem fullButLast_cuts {n : Nat} (hn : 0 < n) (ls : List (List α)) :
    FullButLast n (ls.flatMap (cut n)) ↔ Aligned n ls := by
  induction ls with
  | nil => exact Iff.rfl
  | cons l ls ih =>
    rw [List.flatMap_cons, Aligned]
    by_cases hnil : ls.flatMap (cut n) = []
    · have hflat := (flatMap_cut_eq_nil hn).mp hnil
      rw [← ih, hnil, List.append_nil]
      exact ⟨fun _ => ⟨Or.inl hflat, trivial⟩, fun _ => fullButLast_cut hn l⟩
    · rw [fullButLast_append hnil, full_cut_iff hn, ih,
        or_iff_right (fun h => hnil ((flatMap_cut_eq_nil hn).mpr h))]

end Eau2
