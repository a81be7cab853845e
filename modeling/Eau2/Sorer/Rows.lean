import Eau2.Sorer.Parse

/-!
# Rows of a sor file

What a row is, in one pass over its bytes: `rowAt file start` has the positions of the
`<` and `>` of its fields, and how it ends.

* `scanRow_eq`: the scanning loops find the fields of `rowAt` and end as it says.
* `of_mem_rowAt`, `le_of_rowAt`: where fields and ends lie.
-/

namespace Eau2

/-- A mapped file with a NUL behind its last byte. -/
def Mapped.Terminated (m : Mapped) : Prop := m.readable m.bytes.length = true

/-- Nothing behind that NUL may be read. -/
def Mapped.Strict (m : Mapped) : Prop := ∀ i, m.bytes.length < i → m.readable i = false

namespace Sorer

open Scan

/-- How a row ends. -/
inductive RowEnd
  /-- At a byte that ends rows, or behind the last byte of the file. -/
  | at (e : Nat)
  /-- In a field that a newline breaks off. -/
  | assertion
  /-- In a field that nothing closes. -/
  | overrun
  deriving DecidableEq

/-- The fields of the row from byte `i` on, and its end; `some s` stands for a field that
is open since byte `s`. -/
def rowFrom : Option Nat → Nat → Str → List (Nat × Nat) × RowEnd
  | none, i, [] => ([], .at i)
  | none, i, b :: bs =>
    if endsRow b then ([], .at i)
    else if b = opening then rowFrom (some i) (i + 1) bs
    else rowFrom none (i + 1) bs
  | some _, _, [] => ([], .overrun)
  | some s, i, b :: bs =>
    if b = closing then ((s, i) :: (rowFrom none (i + 1) bs).1, (rowFrom none (i + 1) bs).2)
    else if b = newline then ([], .assertion)
    else rowFrom (some s) (i + 1) bs

/-- The row that starts at byte `start`. -/
def rowAt (file : Str) (start : Nat) : List (Nat × Nat) × RowEnd :=
  rowFrom none start (file.drop start)

/-! ### Where things are -/

theorem of_mem_rowFrom (o : Option Nat) (i : Nat) (bs : Str) (ho : ∀ s ∈ o, s < i)
    {f : Nat × Nat} (hf : f ∈ (rowFrom o i bs).1) :
    (f.1 ∈ o ∨ i ≤ f.1) ∧ f.1 < f.2 ∧ f.2 < i + bs.length := by
  induction o, i, bs using rowFrom.induct with
  | case1 i => cases hf
  | case2 i b bs hend =>
    rw [rowFrom, if_pos hend] at hf
    cases hf
  | case3 i bs hend ih =>
    rw [rowFrom, if_neg hend, if_pos rfl] at hf
    obtain ⟨h1, h2, h3⟩ := ih (by simp) hf
    rw [Option.mem_some_iff] at h1
    refine ⟨Or.inr (by omega), h2, by rw [List.length_cons]; omega⟩
  | case4 i b bs hend hopen ih =>
    rw [rowFrom, if_neg hend, if_neg hopen] at hf
    obtain ⟨h1, h2, h3⟩ := ih (by simp) hf
    refine ⟨Or.inr ?_, h2, by rw [List.length_cons]; omega⟩
    have := h1.resolve_left (Option.not_mem_none _)
    omega
  | case5 s i => cases hf
  | case6 s i bs ih =>
    rw [rowFrom, if_pos rfl] at hf
    rcases List.mem_cons.mp hf with rfl | hf
    · exact ⟨Or.inl rfl, ho s rfl, by rw [List.length_cons]; omega⟩
    · obtain ⟨h1, h2, h3⟩ := ih (by simp) hf
      refine ⟨Or.inr ?_, h2, by rw [List.length_cons]; omega⟩
      have := h1.resolve_left (Option.not_mem_none _)
      omega
  | case7 s i bs hclose =>
    rw [rowFrom, if_neg hclose, if_pos rfl] at hf
    cases hf
  | case8 s i b bs hclose hnl ih =>
    rw [rowFrom, if_neg hclose, if_neg hnl] at hf
    have hs := ho s rfl
    obtain ⟨h1, h2, h3⟩ := ih (by intro s' hs'; cases hs'; omega) hf
    exact ⟨h1.imp_right (by omega), h2, by rw [List.length_cons]; omega⟩

theorem end_rowFrom (o : Option Nat) (i : Nat) (bs : Str) {e : Nat}
    (h : (rowFrom o i bs).2 = .at e) :
    i ≤ e ∧ e ≤ i + bs.length ∧ ∀ b, bs[e - i]? = some b → endsRow b = true := by
  -- what holds behind the first byte holds with it
  have hnext : ∀ {i : Nat} {b : UInt8} {bs : Str}, (i + 1 ≤ e ∧ e ≤ i + 1 + bs.length ∧
      ∀ b', bs[e - (i + 1)]? = some b' → endsRow b' = true) →
      i ≤ e ∧ e ≤ i + (b :: bs).length ∧
        ∀ b', (b :: bs)[e - i]? = some b' → endsRow b' = true := by
    intro i b bs hrest
    obtain ⟨h1, h2, h3⟩ := hrest
    refine ⟨by omega, by rw [List.length_cons]; omega, ?_⟩
    have hsub : e - i = e - (i + 1) + 1 := by omega
    rwa [hsub, List.getElem?_cons_succ]
  induction o, i, bs using rowFrom.induct with
  | case1 i =>
    cases h
    simp
  | case2 i b bs hend =>
    rw [rowFrom, if_pos hend] at h
    cases h
    refine ⟨Nat.le_refl _, by omega, ?_⟩
    intro b' hb'
    rw [Nat.sub_self] at hb'
    cases hb'
    exact hend
  | case3 i bs hend ih =>
    rw [rowFrom, if_neg hend, if_pos rfl] at h
    exact hnext (ih h)
  | case4 i b bs hend hopen ih =>
    rw [rowFrom, if_neg hend, if_neg hopen] at h
    exact hnext (ih h)
  | case5 s i => cases h
  | case6 s i bs ih =>
    rw [rowFrom, if_pos rfl] at h
    exact hnext (ih h)
  | case7 s i bs hclose =>
    rw [rowFrom, if_neg hclose, if_pos rfl] at h
    cases h
  | case8 s i b bs hclose hnl ih =>
    rw [rowFrom, if_neg hclose, if_neg hnl] at h
    exact hnext (ih h)

/-- **The fields of a row lie in the file.** -/
theorem of_mem_rowAt {file : Str} {start : Nat} {f : Nat × Nat} (hs : start ≤ file.length)
    (h : f ∈ (rowAt file start).1) : start ≤ f.1 ∧ f.1 < f.2 ∧ f.2 < file.length := by
  obtain ⟨h1, h2, h3⟩ := of_mem_rowFrom none start (file.drop start) (by simp) h
  rw [List.length_drop] at h3
  exact ⟨h1.resolve_left (Option.not_mem_none _), h2, by omega⟩

theorem closing_of_mem_rowFrom (o : Option Nat) (i : Nat) (bs : Str) {f : Nat × Nat}
    (hf : f ∈ (rowFrom o i bs).1) : i ≤ f.2 ∧ bs[f.2 - i]? = some closing := by
  -- what holds behind the first byte holds with it
  have hnext : ∀ {i : Nat} {b : UInt8} {bs : Str},
      (i + 1 ≤ f.2 ∧ bs[f.2 - (i + 1)]? = some closing) →
      i ≤ f.2 ∧ (b :: bs)[f.2 - i]? = some closing := by
    intro i b bs hrest
    obtain ⟨hle, hget⟩ := hrest
    have hsub : f.2 - i = f.2 - (i + 1) + 1 := by omega
    refine ⟨by omega, ?_⟩
    rwa [hsub, List.getElem?_cons_succ]
  induction o, i, bs using rowFrom.induct with
  | case1 i => cases hf
  | case2 i b bs hend =>
    rw [rowFrom, if_pos hend] at hf
    cases hf
  | case3 i bs hend ih =>
    rw [rowFrom, if_neg hend, if_pos rfl] at hf
    exact hnext (ih hf)
  | case4 i b bs hend hopen ih =>
    rw [rowFrom, if_neg hend, if_neg hopen] at hf
    exact hnext (ih hf)
  | case5 s i => cases hf
  | case6 s i bs ih =>
    rw [rowFrom, if_pos rfl] at hf
    rcases List.mem_cons.mp hf with rfl | hf
    · rw [Nat.sub_self]
      exact ⟨Nat.le_refl i, rfl⟩
    · exact hnext (ih hf)
  | case7 s i bs hclose =>
    rw [rowFrom, if_neg hclose, if_pos rfl] at hf
    cases hf
  | case8 s i b bs hclose hnl ih =>
    rw [rowFrom, if_neg hclose, if_neg hnl] at hf
    exact hnext (ih hf)

theorem closing_of_mem_rowAt {file : Str} {start : Nat} {f : Nat × Nat}
    (h : f ∈ (rowAt file start).1) : file[f.2]? = some closing := by
  obtain ⟨hle, hget⟩ := closing_of_mem_rowFrom none start (file.drop start) h
  rwa [List.getElem?_drop, Nat.add_sub_cancel' hle] at hget

/-- **A row that ends does so at a byte that ends rows, or behind the file.** -/
theorem le_of_rowAt {file : Str} {start e : Nat} (hs : start ≤ file.length)
    (h : (rowAt file start).2 = .at e) :
    start ≤ e ∧ e ≤ file.length ∧ ∀ b, file[e]? = some b → endsRow b = true := by
  obtain ⟨h1, h2, h3⟩ := end_rowFrom none start (file.drop start) h
  rw [List.length_drop] at h2
  refine ⟨h1, by omega, ?_⟩
  intro b hb
  refine h3 b ?_
  rwa [List.getElem?_drop, Nat.add_sub_cancel' h1]

/-! ### The scanning loops -/

@[simp] theorem throw_bind {α β : Type} (e : Stop) (f : α → Scan β) :
    (throw e : Scan α) >>= f = throw e := rfl

theorem read_of_lt {m : Mapped} {i : Nat} {b : UInt8} {bs : Str} (h : m.bytes.drop i = b :: bs) :
    read m i = pure b := by
  have hlt : i < m.bytes.length := by
    by_contra hle
    rw [List.drop_eq_nil_of_le (Nat.le_of_not_lt hle)] at h
    cases h
  have hget : m.bytes[i]? = some b := by
    rw [← Nat.add_zero i, ← List.getElem?_drop, h, List.getElem?_cons_zero]
  rw [read, if_pos hlt, List.getD_eq_getElem?_getD, hget]
  rfl

theorem drop_succ_of_drop {bytes bs : Str} {i : Nat} {b : UInt8} (h : bytes.drop i = b :: bs) :
    i < bytes.length ∧ bytes.drop (i + 1) = bs := by
  constructor
  · by_contra hle
    rw [List.drop_eq_nil_of_le (Nat.le_of_not_lt hle)] at h
    cases h
  · rw [← List.drop_drop, h]
    rfl

theorem read_length {m : Mapped} (h : m.Terminated) : read m m.bytes.length = pure 0 := by
  rw [read, if_neg (Nat.lt_irrefl _)]
  exact if_pos h

theorem read_of_length_lt {m : Mapped} (h : m.Strict) {i : Nat} (hi : m.bytes.length < i) :
    read m i = throw .outside := by
  rw [read, if_neg (Nat.lt_asymm hi)]
  refine if_neg ?_
  rw [h i hi]
  decide

/-- The search for a `>` finds what `rowFrom` does. -/
theorem findEnd_cases {m : Mapped} (hm : m.Terminated) (s : Nat) {fuel i : Nat} {bs : Str}
    (hbs : m.bytes.drop i = bs) (hi : i ≤ m.bytes.length) (hfuel : bs.length + 2 ≤ fuel) :
    (∃ e, i ≤ e ∧ e < m.bytes.length ∧ findEnd m fuel i = pure e ∧
      rowFrom (some s) i bs =
        ((s, e) :: (rowAt m.bytes (e + 1)).1, (rowAt m.bytes (e + 1)).2)) ∨
    (findEnd m fuel i = throw .assertion ∧ rowFrom (some s) i bs = ([], .assertion)) ∨
    ((m.Strict → findEnd m fuel i = throw .outside) ∧ rowFrom (some s) i bs = ([], .overrun)) := by
  induction bs generalizing fuel i with
  | nil =>
    obtain ⟨fuel, rfl⟩ := Nat.exists_eq_add_of_le' hfuel
    have hlen : i = m.bytes.length := by
      have := congrArg List.length hbs
      rw [List.length_drop, List.length_nil] at this
      omega
    refine Or.inr (Or.inr ⟨?_, rfl⟩)
    intro hstrict
    -- the NUL behind the file is neither `>` nor a newline
    show findEnd m (fuel + 1 + 1) i = _
    rw [findEnd, hlen, read_length hm, pure_bind, if_neg (by decide), if_neg (by decide), findEnd,
      read_of_length_lt hstrict (Nat.lt_succ_self _), throw_bind]
  | cons b bs ih =>
    obtain ⟨fuel, rfl⟩ := Nat.exists_eq_add_of_le' (Nat.le_of_add_left_le hfuel)
    obtain ⟨hlt, hnext⟩ := drop_succ_of_drop hbs
    rw [List.length_cons] at hfuel
    rw [findEnd, read_of_lt hbs, pure_bind, rowFrom]
    by_cases hclose : b = closing
    · rw [if_pos hclose, if_pos hclose]
      refine Or.inl ⟨i, Nat.le_refl i, hlt, rfl, ?_⟩
      rw [rowAt, hnext]
    · rw [if_neg hclose, if_neg hclose]
      by_cases hnl : b = newline
      · rw [if_pos hnl, if_pos hnl]
        exact Or.inr (Or.inl ⟨rfl, rfl⟩)
      · rw [if_neg hnl, if_neg hnl]
        have hfuel' : bs.length + 2 ≤ fuel + 1 := by omega
        rcases ih hnext (by omega) hfuel' with ⟨e, hle, h⟩ | h
        · exact Or.inl ⟨e, by omega, h⟩
        · exact Or.inr h

variable {σ : Type}

/-- What a scanning loop returns at the end of a row. -/
def finish : RowEnd → σ → Scan (Nat × σ)
  | .at e, row => pure (e, row)
  | .assertion, _ => throw .assertion
  | .overrun, _ => throw .outside

/-- **The scanning loops do the fields of a row one after the other and end as it does.** -/
theorem scanRow_eq {m : Mapped} (hm : m.Terminated) (onField : σ → Nat → Nat → Scan σ)
    {fuel start : Nat} (hs : start ≤ m.bytes.length) (hfuel : m.bytes.length - start + 3 ≤ fuel)
    (hrun : (rowAt m.bytes start).2 = .overrun → m.Strict) (row : σ) :
    scanRow m onField fuel start row =
      (rowAt m.bytes start).1.foldlM (fun row f => onField row f.1 f.2) row >>=
        finish (rowAt m.bytes start).2 := by
  obtain ⟨n, hn⟩ : ∃ n, m.bytes.length - start = n := ⟨_, rfl⟩
  induction n using Nat.strongRecOn generalizing start fuel row with
  | _ n ih =>
    obtain ⟨fuel, rfl⟩ : ∃ fuel', fuel = fuel' + 1 := ⟨fuel - 1, by omega⟩
    rw [scanRow]
    rcases hbs : m.bytes.drop start with _ | ⟨b, bs⟩
    · have hlen : start = m.bytes.length := by
        have := congrArg List.length hbs
        rw [List.length_drop, List.length_nil] at this
        omega
      rw [rowAt, hbs, rowFrom, hlen, read_length hm, pure_bind]
      exact if_pos (by decide)
    · obtain ⟨hlt, hnext⟩ := drop_succ_of_drop hbs
      rw [read_of_lt hbs, pure_bind]
      rw [rowAt, hbs, rowFrom] at hrun ⊢
      by_cases hend : endsRow b
      · rw [if_pos hend, if_pos hend]
        rfl
      rw [if_neg hend] at hrun ⊢
      rw [if_neg hend]
      by_cases hopen : b = opening
      · rw [if_pos hopen] at hrun ⊢
        rw [if_pos hopen]
        have hbslen : bs.length = m.bytes.length - (start + 1) := by
          rw [← hnext, List.length_drop]
        have hfuel' : bs.length + 2 ≤ fuel := by omega
        rcases findEnd_cases hm start hnext hlt hfuel' with
          ⟨e, hle, hlt', hfind, hrow⟩ | ⟨hfind, hrow⟩ | ⟨hfind, hrow⟩
        · rw [hrow] at hrun ⊢
          rw [hfind, pure_bind, List.foldlM_cons, bind_assoc]
          refine bind_congr ?_
          intro row'
          exact ih (m.bytes.length - (e + 1)) (by omega) hlt' (by omega) hrun row' rfl
        · rw [hfind, hrow, throw_bind]
          rfl
        · rw [hrow] at hrun ⊢
          rw [hfind (hrun rfl), throw_bind]
          rfl
      · rw [if_neg hopen] at hrun ⊢
        rw [if_neg hopen]
        have hat : rowFrom none (start + 1) bs = rowAt m.bytes (start + 1) := by
          rw [rowAt, hnext]
        rw [hat] at hrun ⊢
        exact ih (m.bytes.length - (start + 1)) (by omega) hlt (by omega) hrun row rfl

end Sorer

end Eau2
