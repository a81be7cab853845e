import Eau2.Dataframe.SchemaCalls

/-!
# Comparing schemas

`Schema::equals` compares the capacities as well, and returns nothing behind its loop.

* `Shows.equals`: what it comes to on two schemas.
* `answers_iff`: **it says whether two schemas have the same columns and rows only where they
  do not**, or where its end and the capacities happen to be right.
-/

namespace Eau2.SchemaObj

def length (s : SchemaObj) : SizeT := s.numRows

/-- The loop of `equals` with `n` columns to go; behind it `off` comes of not returning. -/
def equalsCols (off : Except Halt Bool) (s t : SchemaObj) : Nat → Nat → Except Halt Bool
  | 0, _ => off
  | n + 1, i => do
    let typ ← load s.types i
    let typ' ← t.colType (UInt64.ofNat i)
    if typ ≠ typ' then .ok false else equalsCols off s t n (i + 1)

def equals (off : Except Halt Bool) (s t : SchemaObj) : Except Halt Bool :=
  if s.numCols ≠ t.numCols ∨ s.capCols ≠ t.capCols ∨ s.numRows ≠ t.numRows then .ok false
  else equalsCols off s t s.numCols.toNat 0

/-- As many columns, of the same types, and as many rows. -/
structure Same (s t : SchemaObj) : Prop where
  width : s.width = t.width
  colType : ∀ idx, idx < s.width → s.colType idx = t.colType idx
  length : s.length = t.length

/-- `equals` says whether two schemas are the same. -/
def Answers (off : Except Halt Bool) (s t : SchemaObj) : Prop :=
  (s.equals off t = .ok true ↔ Same s t) ∧ (s.equals off t = .ok false ↔ ¬ Same s t)

/-! ### Two schemas -/

theorem Shows.equalsCols {s t : SchemaObj} {a b : Schema} (hs : Shows s a) (ht : Shows t b)
    (off : Except Halt Bool) {n i : Nat} (ha : i + n = a.types.length)
    (hb : i + n = b.types.length) :
    SchemaObj.equalsCols off s t n i =
      if a.types.drop i = b.types.drop i then off else .ok false := by
  induction n generalizing i with
  | zero =>
    rw [List.drop_eq_nil_of_le (show a.types.length ≤ i by omega),
      List.drop_eq_nil_of_le (show b.types.length ≤ i by omega), if_pos rfl]
    rfl
  | succ n ih =>
    have hia : i < a.types.length := by omega
    have hib : i < b.types.length := by omega
    have hload : load s.types i = .ok a.types[i] := by
      rw [hs.types_eq]
      exact load_filled hia
    have hround : SchemaObj.equalsCols off s t (n + 1) i =
        if a.types[i] ≠ b.types[i] then .ok false else SchemaObj.equalsCols off s t n (i + 1) := by
      rw [SchemaObj.equalsCols, hload, ht.colType_ofNat hib]
      rfl
    rw [hround, ih (by omega) (by omega), List.drop_eq_getElem_cons hia,
      List.drop_eq_getElem_cons hib]
    by_cases hne : a.types[i] = b.types[i]
    · simp only [hne, ne_eq, not_true_eq_false, if_false, List.cons.injEq, true_and]
    · simp only [hne, ne_eq, not_false_eq_true, if_true, List.cons.injEq, false_and, if_false]

/-- **Only schemas that agree in capacity too are compared to the end.** -/
theorem Shows.equals {s t : SchemaObj} {a b : Schema} (hs : Shows s a) (ht : Shows t b)
    (off : Except Halt Bool) : s.equals off t =
      if a.types = b.types ∧ a.numRows = b.numRows ∧ a.capCols = b.capCols then off
      else .ok false := by
  have hwidth : s.numCols = t.numCols ↔ a.types.length = b.types.length := by
    rw [← UInt64.toNat_inj, hs.numCols_eq, ht.numCols_eq]
    rfl
  simp only [SchemaObj.equals, ne_eq, hwidth, hs.capCols_eq, ht.capCols_eq, hs.numRows_eq,
    ht.numRows_eq]
  by_cases hlen : a.types.length = b.types.length
  · have hnum : s.numCols.toNat = a.types.length := hs.numCols_eq
    have hloop := hs.equalsCols ht off (n := s.numCols.toNat) (i := 0) (by omega) (by omega)
    rw [List.drop_zero, List.drop_zero] at hloop
    rw [hloop]
    by_cases hcap : a.capCols = b.capCols
    · by_cases hrows : a.numRows = b.numRows
      · simp [hlen, hcap, hrows]
      · simp [hrows]
    · simp [hcap]
  · have htypes : a.types ≠ b.types := fun h => hlen (congrArg List.length h)
    simp [hlen, htypes]

theorem Shows.same_iff {s t : SchemaObj} {a b : Schema} (hs : Shows s a) (ht : Shows t b) :
    Same s t ↔ a.types = b.types ∧ a.numRows = b.numRows := by
  constructor
  · intro h
    have hlen : a.types.length = b.types.length := by
      show a.width = b.width
      rw [← hs.numCols_eq, ← ht.numCols_eq]
      exact congrArg UInt64.toNat h.width
    refine ⟨List.ext_getElem hlen fun i hia hib => ?_, ?_⟩
    · have hfits : a.types.length ≤ _ := hs.fits
      have hcap := a.capCols.toNat_lt
      have hidx : UInt64.ofNat i < s.width := by
        rw [UInt64.lt_iff_toNat_lt, UInt64.toNat_ofNat_of_lt' (show i < 2 ^ 64 by omega)]
        exact hia.trans_eq hs.numCols_eq.symm
      have htype := h.colType _ hidx
      rw [hs.colType_ofNat hia, ht.colType_ofNat hib] at htype
      exact Except.ok.inj htype
    · rw [← hs.numRows_eq, ← ht.numRows_eq]
      exact h.length
  · rintro ⟨htypes, hrows⟩
    refine ⟨?_, fun idx _ => ?_, ?_⟩
    · rw [← UInt64.toNat_inj]
      show s.numCols.toNat = t.numCols.toNat
      rw [hs.numCols_eq, ht.numCols_eq, Schema.width, Schema.width, htypes]
    · rw [hs.colType, ht.colType, htypes]
    · show s.numRows = t.numRows
      rw [hs.numRows_eq, ht.numRows_eq, hrows]

theorem Shows.answers_iff_not_same {s t : SchemaObj} {a b : Schema} (hs : Shows s a)
    (ht : Shows t b) (off : Except Halt Bool) :
    Answers off s t ↔ ¬ Same s t ∨ off = .ok true ∧ s.capCols = t.capCols := by
  have hequals := hs.equals ht off
  have hsame := hs.same_iff ht
  rw [Answers, hs.capCols_eq, ht.capCols_eq]
  by_cases h : Same s t
  · obtain ⟨htypes, hrows⟩ := hsame.mp h
    by_cases hcap : a.capCols = b.capCols
    · rw [if_pos ⟨htypes, hrows, hcap⟩] at hequals
      rw [hequals]
      constructor
      · rintro ⟨htrue, -⟩
        exact Or.inr ⟨htrue.mpr h, hcap⟩
      · rintro (hnot | ⟨hoff, -⟩)
        · exact absurd h hnot
        · simp [hoff, h]
    · rw [if_neg fun hc => hcap hc.2.2] at hequals
      rw [hequals]
      simp [h, hcap]
  · rw [if_neg fun hc => h (hsame.mpr ⟨hc.1, hc.2.1⟩)] at hequals
    rw [hequals]
    simp [h]

/-! ### All calls -/

theorem sound_of_run {calls : List Call} {ss : Schemas} (h : run calls = .ok ss) :
    Sound ss (columns calls) := by
  induction calls using List.reverseRecOn generalizing ss with
  | nil =>
    obtain rfl := Except.ok.inj h
    exact sound_new
  | append_singleton calls c ih =>
    rw [run_append_singleton] at h
    cases hrun : run calls with
    | error e =>
      rw [hrun] at h
      cases h
    | ok ss₁ =>
      have hsound := ih hrun
      rw [hrun] at h
      have hstep : (c.value ss₁).map (Function.update ss₁ c.target) = .ok ss := h
      by_cases hfits : c.Fits ss₁
      · rcases hsound.leaves hfits with hexit | ⟨s, sch, hs, hshows, ht⟩
        · rw [hexit] at hstep
          cases hstep
        · rw [hs] at hstep
          obtain rfl := Except.ok.inj hstep
          rw [columns_append_singleton, ← ht]
          exact hsound.update c.target hshows
      · rw [hsound.undefined hfits] at hstep
        cases hstep

theorem same_iff {calls : List Call} {ss : Schemas} (h : run calls = .ok ss) (i j : Nat) :
    Same (ss i) (ss j) ↔
      columns calls i = columns calls j ∧ (ss i).length = (ss j).length := by
  obtain ⟨a, ha, hat⟩ := sound_of_run h i
  obtain ⟨b, hb, hbt⟩ := sound_of_run h j
  rw [ha.same_iff hb, hat, hbt, SchemaObj.length, SchemaObj.length, ha.numRows_eq, hb.numRows_eq]

/-- **Schemas are told apart by their contents, but the same ones are not found the same**,
unless they have as much room and the end of `equals` happens to come to `true`. -/
theorem answers_iff {calls : List Call} {ss : Schemas} (h : run calls = .ok ss)
    (off : Except Halt Bool) (i j : Nat) : Answers off (ss i) (ss j) ↔
      ¬ Same (ss i) (ss j) ∨ off = .ok true ∧ (ss i).capCols = (ss j).capCols := by
  obtain ⟨a, ha, -⟩ := sound_of_run h i
  obtain ⟨b, hb, -⟩ := sound_of_run h j
  exact ha.answers_iff_not_same hb off

/-- Two schemas of two cells. -/
theorem answers_two_columns : ∃ ss,
    run [.ofTypes 0 [0x49, 0x42], .addColumn 1 .Integer, .addColumn 1 .Boolean] = .ok ss ∧
      Answers (.ok true) (ss 0) (ss 1) :=
  ⟨_, rfl, (@answers_iff [.ofTypes 0 [0x49, 0x42], .addColumn 1 .Integer, .addColumn 1 .Boolean] _
    rfl _ 0 1).mpr (Or.inr ⟨rfl, rfl⟩)⟩

/-- `Schema("IBD")` has three cells, `Schema()` with the same columns added has four. -/
theorem equals_capacity : ∃ ss,
    run [.ofTypes 0 [0x49, 0x42, 0x44], .addColumn 1 .Integer, .addColumn 1 .Boolean,
      .addColumn 1 .Double] = .ok ss ∧
    Same (ss 0) (ss 1) ∧ (ss 0).equals (.ok true) (ss 1) = .ok false ∧
      (ss 0).equals (.error .undefined) (ss 0) = .error .undefined := by
  refine ⟨_, rfl, ?_, rfl, rfl⟩
  exact (@same_iff [.ofTypes 0 [0x49, 0x42, 0x44], .addColumn 1 .Integer, .addColumn 1 .Boolean,
    .addColumn 1 .Double] _ rfl 0 1).mpr ⟨rfl, rfl⟩

end Eau2.SchemaObj
