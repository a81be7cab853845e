import Eau2.Dataframe.Sheet

/-!
# Bit sets, and the readers and the writer over them

`linus/set.h`, `setupdater.h`, `setwriter.h`, `projectstagger.h` and `userstagger.h`.  A
`Set` of the source is a `BitSet` here; that `setSize_` counts what is set is part of it,
so two sets of one size with the same members are equal (`BitSet.ext_tagged`).  An index
out of bounds cannot be set, and tests as set.

* `tagger_spec`: what a tagger that is run on some rows has tagged.
* `setUpdater_spec`, `emits_setWriter`: a set that is written and read comes back.
* `not_emits_setWriter`: a set of `2 ^ 31` elements is not written, its position is an
  `int`.
-/

namespace Eau2

structure BitSet where
  vals : List Bool
  setSize : Nat
  setSize_eq : setSize = vals.count true
  deriving DecidableEq

namespace BitSet

def new (sz : Nat) : BitSet := ⟨List.replicate sz false, 0, by rw [List.count_replicate]; rfl⟩

def size (s : BitSet) : Nat := s.vals.length

/-- `set`; what is out of bounds or set already is ignored. -/
def set (s : BitSet) (idx : Nat) : BitSet :=
  if h : s.vals[idx]? = some false then
    ⟨s.vals.set idx true, s.setSize + 1, by
      obtain ⟨hlt, hval⟩ := List.getElem?_eq_some_iff.mp h
      rw [List.count_set hlt, hval, s.setSize_eq]
      simp⟩
  else s

/-- `test`; what is out of bounds is set. -/
def test (s : BitSet) (idx : Nat) : Bool := s.vals[idx]?.getD true

def union_ (s source : BitSet) : BitSet :=
  (List.range source.size).foldl (fun s i => if source.test i then s.set i else s) s

def tagged (s : BitSet) : Set ℕ := {i | s.vals[i]? = some true}

variable {s : BitSet} {i : Nat}

theorem lt_of_mem (h : i ∈ s.tagged) : i < s.size := (List.getElem?_eq_some_iff.mp h).1

/-- **A set is its size and its members.** -/
theorem ext_tagged {s s' : BitSet} (hsize : s.size = s'.size) (h : s.tagged = s'.tagged) :
    s = s' := by
  have hvals : s.vals = s'.vals := by
    refine List.ext_getElem hsize fun i h1 h2 => ?_
    have hi : i ∈ s.tagged ↔ i ∈ s'.tagged := by rw [h]
    rw [tagged, tagged, Set.mem_ofPred, Set.mem_ofPred, List.getElem?_eq_getElem h1,
      List.getElem?_eq_getElem h2, Option.some.injEq, Option.some.injEq] at hi
    exact Bool.eq_iff_iff.mpr hi
  cases s with
  | mk vals setSize h1 =>
    cases s' with
    | mk vals' setSize' h2 =>
      dsimp only at hvals
      subst hvals h1 h2
      rfl

@[simp] theorem size_new (sz : Nat) : (new sz).size = sz := List.length_replicate

@[simp] theorem tagged_new (sz : Nat) : (new sz).tagged = ∅ := by
  refine Set.eq_empty_of_forall_notMem fun i hi => ?_
  have hi : (List.replicate sz false)[i]? = some true := hi
  rw [List.getElem?_replicate] at hi
  split at hi
  · cases hi
  · cases hi

@[simp] theorem size_set (s : BitSet) (idx : Nat) : (s.set idx).size = s.size := by
  rw [set]
  split
  · exact List.length_set
  · rfl

theorem mem_set {idx : Nat} : i ∈ (s.set idx).tagged ↔ i ∈ s.tagged ∨ i = idx ∧ idx < s.size := by
  rw [set]
  split
  · rename_i h
    have hlt := (List.getElem?_eq_some_iff.mp h).1
    show (s.vals.set idx true)[i]? = some true ↔ s.vals[i]? = some true ∨ _
    rw [List.getElem?_set]
    by_cases hi : idx = i
    · subst hi
      simp [hlt, size]
    · simp [hi, Ne.symm hi]
  · rename_i h
    refine ⟨Or.inl, fun hi => hi.elim id ?_⟩
    rintro ⟨rfl, hlt⟩
    have hget : s.vals[i]? = some s.vals[i] := List.getElem?_eq_getElem hlt
    rw [hget] at h
    show s.vals[i]? = some true
    rw [hget]
    cases hv : s.vals[i] with
    | true => rfl
    | false => rw [hv] at h; exact absurd rfl h

theorem test_iff : s.test i = true ↔ i ∈ s.tagged ∨ s.size ≤ i := by
  rw [test, tagged, Set.mem_ofPred]
  cases h : s.vals[i]? with
  | none => simpa [size] using List.getElem?_eq_none_iff.mp h
  | some b =>
    have hlt := (List.getElem?_eq_some_iff.mp h).1
    simp [size, hlt]

theorem test_of_lt (h : i < s.size) : s.test i = true ↔ i ∈ s.tagged := by
  rw [test_iff]
  exact or_iff_left (Nat.not_le.mpr h)

theorem union_spec (s source : BitSet) (h : s.size = source.size) :
    (s.union_ source).size = s.size ∧ (s.union_ source).tagged = s.tagged ∪ source.tagged := by
  have key : ∀ n, n ≤ source.size →
      ((List.range n).foldl (fun s i => if source.test i then s.set i else s) s).size = s.size ∧
      ∀ i, i ∈ ((List.range n).foldl (fun s i => if source.test i then s.set i else s) s).tagged ↔
        i ∈ s.tagged ∨ i < n ∧ i ∈ source.tagged := by
    intro n
    induction n with
    | zero => exact fun _ => ⟨rfl, fun i => by simp⟩
    | succ n ih =>
      intro hn
      obtain ⟨hsize, hmem⟩ := ih (by omega)
      rw [List.range_succ, List.foldl_append, List.foldl_cons, List.foldl_nil]
      have htest := test_of_lt (s := source) (i := n) (by omega)
      split
      · rename_i ht
        refine ⟨by rw [size_set, hsize], fun i => ?_⟩
        rw [mem_set, hmem, hsize]
        constructor
        · rintro ((hi | ⟨hi, hs⟩) | ⟨rfl, -⟩)
          · exact Or.inl hi
          · exact Or.inr ⟨by omega, hs⟩
          · exact Or.inr ⟨by omega, htest.mp ht⟩
        · rintro (hi | ⟨hi, hs⟩)
          · exact Or.inl (Or.inl hi)
          · rcases Nat.lt_succ_iff_lt_or_eq.mp hi with hi | rfl
            · exact Or.inl (Or.inr ⟨hi, hs⟩)
            · exact Or.inr ⟨rfl, by omega⟩
      · rename_i ht
        refine ⟨hsize, fun i => ?_⟩
        rw [hmem]
        constructor
        · rintro (hi | ⟨hi, hs⟩)
          · exact Or.inl hi
          · exact Or.inr ⟨by omega, hs⟩
        · rintro (hi | ⟨hi, hs⟩)
          · exact Or.inl hi
          · rcases Nat.lt_succ_iff_lt_or_eq.mp hi with hi | rfl
            · exact Or.inr ⟨hi, hs⟩
            · exact absurd (htest.mpr hs) ht
  obtain ⟨hsize, hmem⟩ := key source.size (Nat.le_refl _)
  refine ⟨hsize, Set.ext fun i => (hmem i).trans ?_⟩
  exact or_congr_right ⟨fun hi => hi.2, fun hi => ⟨lt_of_mem hi, hi⟩⟩

end BitSet

/-- An `int` that is passed for a `size_t`. -/
def sizeOfInt (i : Int32) : SizeT := i.toInt64.toUInt64

theorem toNat_sizeOfInt {p : Nat} (h : p < 2 ^ 31) : (sizeOfInt (Int32.ofNat p)).toNat = p := by
  have h1 : (Int32.ofNat p).toInt64 = Int64.ofNat p := by
    apply Int64.toInt_inj.mp
    rw [Int32.toInt_toInt64, Int32.toInt_ofNat_of_lt h, Int64.toInt_ofNat_of_lt (by omega)]
  rw [sizeOfInt, h1, Int64.toUInt64_ofNat']
  exact UInt64.toNat_ofNat_of_lt' (show p < 2 ^ 64 by omega)

def Row.getInt (r : Row) (col : Nat) : Option Int32 :=
  match r.get .Integer col with
  | some (.int i) => some i
  | _ => none

/-- The index in column `col`. -/
def Row.getIdx (r : Row) (col : Nat) : Option Nat := do
  let i ← r.getInt col
  pure (sizeOfInt i).toNat

theorem Row.IsSet.getIdx {r : Row} {cells : List Cell} (h : r.IsSet cells) {col : Nat}
    (ht : r.scm.types[col]? = some .Integer) : ∃ i, r.getIdx col = some i := by
  rw [← h.types, List.getElem?_map] at ht
  obtain ⟨c, hc, ht⟩ := Option.map_eq_some_iff.mp ht
  obtain ⟨hlt, hc⟩ := List.getElem?_eq_some_iff.mp hc
  have hget := h.get hlt
  rw [hc, ht] at hget
  cases c with
  | int i =>
    refine ⟨(sizeOfInt i).toNat, ?_⟩
    rw [Row.getIdx, Row.getInt, hget]
    rfl
  | _ => cases ht

namespace Linus

/-! ### Reading -/

def setUpdater : Reader BitSet := fun set row => do
  let idx ← row.getIdx 0
  pure (set.set idx)

/-- What `ProjectsTagger::visit` and `UsersTagger::visit` have in common, on the set of
what is tagged and the set of what is new: `pick` says which of the two columns is tested in
`frontier`, and which is tagged. -/
def tagger (frontier : BitSet) (pick : Nat → Nat → Nat × Nat) : Reader (BitSet × BitSet) :=
  fun st row => do
    let pid ← row.getIdx 0
    let uid ← row.getIdx 1
    let (through, idx) := pick pid uid
    if frontier.test through then
      if st.1.test idx then pure st else pure (st.1.set idx, st.2.set idx)
    else pure st

/-- `ProjectsTagger::visit`, on `pSet` and `newProjects`. -/
def projectsTagger (uSet : BitSet) : Reader (BitSet × BitSet) :=
  tagger uSet fun pid uid => (uid, pid)

/-- `UsersTagger::visit`, on `uSet` and `newUsers`. -/
def usersTagger (pSet : BitSet) : Reader (BitSet × BitSet) :=
  tagger pSet fun pid uid => (pid, uid)

def pair (r : Row) : Option (Nat × Nat) := do
  let pid ← r.getIdx 0
  let uid ← r.getIdx 1
  pure (pid, uid)

def tagPair (frontier : BitSet) (pick : Nat → Nat → Nat × Nat) (st : BitSet × BitSet)
    (p : Nat × Nat) : BitSet × BitSet :=
  if frontier.test (pick p.1 p.2).1 = true ∧ st.1.test (pick p.1 p.2).2 = false then
    (st.1.set (pick p.1 p.2).2, st.2.set (pick p.1 p.2).2)
  else st

theorem tagger_eq (frontier : BitSet) (pick : Nat → Nat → Nat × Nat) (st : BitSet × BitSet)
    (row : Row) : tagger frontier pick st row = (pair row).map (tagPair frontier pick st) := by
  rw [tagger, pair]
  cases row.getIdx 0 with
  | none => rfl
  | some pid =>
    cases row.getIdx 1 with
    | none => rfl
    | some uid =>
      show (if frontier.test (pick pid uid).1 = true then _ else _) =
        some (tagPair frontier pick st (pid, uid))
      rw [tagPair]
      cases frontier.test (pick pid uid).1 <;> cases st.1.test (pick pid uid).2 <;> rfl

theorem foldlM_tagger (frontier : BitSet) (pick : Nat → Nat → Nat × Nat) (rows : List Row)
    (st : BitSet × BitSet) : rows.foldlM (tagger frontier pick) st =
      (rows.mapM pair).map fun ps => ps.foldl (tagPair frontier pick) st := by
  induction rows generalizing st with
  | nil => rfl
  | cons row rows ih =>
    rw [List.foldlM_cons, tagger_eq, List.mapM_cons]
    cases pair row with
    | none => rfl
    | some p =>
      refine (ih _).trans ?_
      show _ = Option.map _ ((rows.mapM pair).bind fun ps => some (p :: ps))
      cases rows.mapM pair <;> rfl

/-- What leads to `i`. -/
def LeadsTo (frontier : BitSet) (pick : Nat → Nat → Nat × Nat) (ps : List (Nat × Nat))
    (i : Nat) : Prop := ∃ p ∈ ps, (pick p.1 p.2).2 = i ∧ frontier.test (pick p.1 p.2).1 = true

/-- **A tagger tags what the pairs lead to**, and what is new was not tagged before. -/
theorem tagger_spec (frontier : BitSet) (pick : Nat → Nat → Nat × Nat) (ps : List (Nat × Nat))
    (st : BitSet × BitSet) (hsize : st.1.size = st.2.size) :
    (ps.foldl (tagPair frontier pick) st).1.size = st.1.size ∧
      (ps.foldl (tagPair frontier pick) st).2.size = st.1.size ∧
      (∀ i, i ∈ (ps.foldl (tagPair frontier pick) st).1.tagged ↔
        i ∈ st.1.tagged ∨ i < st.1.size ∧ LeadsTo frontier pick ps i) ∧
      ∀ i, i ∈ (ps.foldl (tagPair frontier pick) st).2.tagged ↔
        i ∈ st.2.tagged ∨ i < st.1.size ∧ i ∉ st.1.tagged ∧ LeadsTo frontier pick ps i := by
  induction ps generalizing st with
  | nil => exact ⟨rfl, hsize.symm, fun i => by simp [LeadsTo], fun i => by simp [LeadsTo]⟩
  | cons p ps ih =>
    have hcons : ∀ i, LeadsTo frontier pick (p :: ps) i ↔
        ((pick p.1 p.2).2 = i ∧ frontier.test (pick p.1 p.2).1 = true) ∨
          LeadsTo frontier pick ps i := by
      intro i
      rw [LeadsTo, List.exists_mem_cons_iff]
      rfl
    rw [List.foldl_cons, tagPair]
    split
    · rename_i hc
      obtain ⟨hf, hnew⟩ := hc
      -- a new member: in bounds, and not tagged
      have hidx : (pick p.1 p.2).2 < st.1.size ∧ (pick p.1 p.2).2 ∉ st.1.tagged := by
        have hn : ¬ st.1.test (pick p.1 p.2).2 = true := by simp [hnew]
        rw [BitSet.test_iff, not_or, Nat.not_le] at hn
        exact ⟨hn.2, hn.1⟩
      obtain ⟨h1, h2, h3, h4⟩ := ih (st.1.set (pick p.1 p.2).2, st.2.set (pick p.1 p.2).2)
        (by rw [BitSet.size_set, BitSet.size_set, hsize])
      rw [BitSet.size_set] at h1 h2
      refine ⟨h1, h2, fun i => ?_, fun i => ?_⟩
      · rw [h3, BitSet.mem_set, BitSet.size_set, hcons]
        constructor
        · rintro ((hi | ⟨rfl, -⟩) | ⟨hi, hl⟩)
          · exact Or.inl hi
          · exact Or.inr ⟨hidx.1, Or.inl ⟨rfl, hf⟩⟩
          · exact Or.inr ⟨hi, Or.inr hl⟩
        · rintro (hi | ⟨hi, ⟨rfl, -⟩ | hl⟩)
          · exact Or.inl (Or.inl hi)
          · exact Or.inl (Or.inr ⟨rfl, hi⟩)
          · exact Or.inr ⟨hi, hl⟩
      · rw [h4, BitSet.mem_set, BitSet.mem_set, BitSet.size_set, hcons, ← hsize]
        constructor
        · rintro ((hi | ⟨rfl, -⟩) | ⟨hi, hn, hl⟩)
          · exact Or.inl hi
          · exact Or.inr ⟨hidx.1, hidx.2, Or.inl ⟨rfl, hf⟩⟩
          · exact Or.inr ⟨hi, fun hc => hn (Or.inl hc), Or.inr hl⟩
        · rintro (hi | ⟨hi, hn, ⟨rfl, -⟩ | hl⟩)
          · exact Or.inl (Or.inl hi)
          · exact Or.inl (Or.inr ⟨rfl, hi⟩)
          · by_cases hip : i = (pick p.1 p.2).2
            · exact Or.inl (Or.inr ⟨hip, hidx.1⟩)
            · exact Or.inr ⟨hi, fun hc => hc.elim hn fun hc => hip hc.1, hl⟩
    · rename_i hc
      -- nothing is tagged: what the pair leads to is tagged already, or out of bounds
      have hold : ∀ i, (pick p.1 p.2).2 = i ∧ frontier.test (pick p.1 p.2).1 = true →
          i < st.1.size → i ∈ st.1.tagged := by
        rintro i ⟨rfl, hf⟩ hlt
        rw [← BitSet.test_of_lt hlt]
        by_contra hn
        exact hc ⟨hf, by simpa using hn⟩
      obtain ⟨h1, h2, h3, h4⟩ := ih st hsize
      refine ⟨h1, h2, fun i => ?_, fun i => ?_⟩
      · rw [h3, hcons]
        constructor
        · rintro (hi | ⟨hi, hl⟩)
          · exact Or.inl hi
          · exact Or.inr ⟨hi, Or.inr hl⟩
        · rintro (hi | ⟨hi, hp | hl⟩)
          · exact Or.inl hi
          · exact Or.inl (hold i hp hi)
          · exact Or.inr ⟨hi, hl⟩
      · rw [h4, hcons]
        constructor
        · rintro (hi | ⟨hi, hn, hl⟩)
          · exact Or.inl hi
          · exact Or.inr ⟨hi, hn, Or.inr hl⟩
        · rintro (hi | ⟨hi, hn, hp | hl⟩)
          · exact Or.inl hi
          · exact absurd (hold i hp hi) hn
          · exact Or.inr ⟨hi, hn, hl⟩

/-- **A `SetUpdater` sets the indices in the first column.** -/
theorem setUpdater_spec {rows : List Row} {is : List Nat}
    (h : rows.mapM (fun r => r.getIdx 0) = some is) (s : BitSet) :
    ∃ s', rows.foldlM setUpdater s = some s' ∧ s'.size = s.size ∧
      ∀ i, i ∈ s'.tagged ↔ i ∈ s.tagged ∨ i ∈ is ∧ i < s.size := by
  induction rows generalizing is s with
  | nil =>
    cases h
    exact ⟨s, rfl, rfl, fun i => by simp⟩
  | cons r rows ih =>
    rw [List.mapM_cons] at h
    obtain ⟨idx, hidx, h⟩ := Option.bind_eq_some_iff.mp h
    obtain ⟨is', his', h⟩ := Option.bind_eq_some_iff.mp h
    cases h
    obtain ⟨s', hs', hsize, hmem⟩ := ih his' (s.set idx)
    refine ⟨s', ?_, by rw [hsize, BitSet.size_set], fun i => ?_⟩
    · rw [List.foldlM_cons, setUpdater, hidx]
      exact hs'
    · rw [hmem, BitSet.mem_set, BitSet.size_set, List.mem_cons]
      constructor
      · rintro ((hi | ⟨rfl, hlt⟩) | ⟨hi, hlt⟩)
        · exact Or.inl hi
        · exact Or.inr ⟨Or.inl rfl, hlt⟩
        · exact Or.inr ⟨Or.inr hi, hlt⟩
      · rintro (hi | ⟨rfl | hi, hlt⟩)
        · exact Or.inl (Or.inl hi)
        · exact Or.inl (Or.inr ⟨rfl, hlt⟩)
        · exact Or.inr ⟨hi, hlt⟩

/-! ### Writing -/

/-- The loop of `SetWriter::done` from position `i` on; the position is an `int`. -/
def skip (s : BitSet) : Nat → Nat → Option Nat
  | 0, _ => none
  | fuel + 1, i =>
    if i < s.size ∧ s.test i = false then
      if i + 1 < 2 ^ 31 then skip s fuel (i + 1) else none
    else some i

/-- `SetWriter`, over its position. -/
def setWriter (s : BitSet) : Writer Nat where
  visit i row := do
    let row ← row.set 0 (.int (Int32.ofNat i))
    if i + 1 < 2 ^ 31 then pure (i + 1, row) else none
  done i := do
    let i ← skip s (s.size + 1) i
    pure (decide (i = s.size), i)
  scm_eq := by
    intro i r i' r' h
    obtain ⟨r₁, hset, h⟩ := Option.bind_eq_some_iff.mp h
    split at h
    · cases h
      exact Row.scm_set hset
    · cases h

def membersFrom (s : BitSet) (i : Nat) : List Nat := (List.range' i (s.size - i)).filter s.test

theorem mem_membersFrom {s : BitSet} {i j : Nat} (h : i ≤ s.size) :
    j ∈ membersFrom s i ↔ i ≤ j ∧ j ∈ s.tagged := by
  rw [membersFrom, List.mem_filter, List.mem_range'_1]
  constructor
  · rintro ⟨hj, ht⟩
    exact ⟨hj.1, (BitSet.test_of_lt (by omega)).mp ht⟩
  · rintro ⟨hj, ht⟩
    have hlt := BitSet.lt_of_mem ht
    exact ⟨⟨hj, by omega⟩, (BitSet.test_of_lt hlt).mpr ht⟩

theorem skip_spec {s : BitSet} (hs : s.size < 2 ^ 31) {fuel i : Nat} (hi : i ≤ s.size)
    (hf : s.size - i < fuel) : ∃ j, skip s fuel i = some j ∧ i ≤ j ∧ j ≤ s.size ∧
      membersFrom s i = membersFrom s j ∧ (j < s.size → s.test j = true) := by
  induction fuel generalizing i with
  | zero => omega
  | succ fuel ih =>
    rw [skip]
    split
    · rename_i hc
      obtain ⟨hlt, ht⟩ := hc
      obtain ⟨j, hj, hij, hjs, hmem, hjt⟩ := ih (i := i + 1) (by omega) (by omega)
      refine ⟨j, ?_, by omega, hjs, ?_, hjt⟩
      · rw [if_pos (by omega), hj]
      · rw [← hmem, membersFrom, membersFrom, show s.size - i = s.size - (i + 1) + 1 by omega,
          List.range'_succ, List.filter_cons_of_neg (by simp [ht])]
    · rename_i hc
      refine ⟨i, rfl, Nat.le_refl _, hi, rfl, fun hlt => ?_⟩
      by_contra ht
      exact hc ⟨hlt, by simpa using ht⟩

theorem skip_lt {s : BitSet} {fuel i j : Nat} (h : skip s fuel i = some j) (hi : i < 2 ^ 31) :
    j < 2 ^ 31 := by
  induction fuel generalizing i with
  | zero => cases h
  | succ fuel ih =>
    rw [skip] at h
    split at h
    · split at h
      · rename_i hlt
        exact ih h hlt
      · cases h
    · cases h
      exact hi

/-- **A `SetWriter` writes the members of its set.** -/
theorem emits_setWriter {s : BitSet} (hs : s.size < 2 ^ 31) {i : Nat} (hi : i ≤ s.size)
    (idx : SizeT) : (setWriter s).Emits (Schema.ofCols [.Integer]) idx i
      ((membersFrom s i).map fun p => [.int (Int32.ofNat p)]) := by
  generalize hd : s.size - i = d
  induction d using Nat.strongRecOn generalizing i idx with
  | ind d ih =>
    obtain ⟨j, hj, hij, hjs, hmem, hjt⟩ := skip_spec hs hi
      (show s.size - i < s.size + 1 by omega)
    have hdone : (setWriter s).done i = some (decide (j = s.size), j) := by
      show (skip s (s.size + 1) i).bind _ = _
      rw [hj]
      rfl
    rw [hmem]
    by_cases hend : j = s.size
    · have hnil : membersFrom s j = [] := by
        rw [membersFrom, hend, Nat.sub_self]
        rfl
      rw [hnil]
      exact Writer.Emits.done idx i j (by rw [hdone, decide_eq_true hend])
    · have hcons : membersFrom s j = j :: membersFrom s (j + 1) := by
        rw [membersFrom, membersFrom, show s.size - j = s.size - (j + 1) + 1 by omega,
          List.range'_succ, List.filter_cons_of_pos (hjt (by omega))]
      obtain ⟨r, hset, hr⟩ := Row.set_unset (c := .int (Int32.ofNat j))
        (show (Schema.ofCols [.Integer]).types = _ from rfl) idx
      rw [hcons, List.map_cons]
      refine Writer.Emits.visit idx i j (j + 1) r _ _ (by rw [hdone, decide_eq_false hend]) ?_ hr
        (ih (s.size - (j + 1)) (by omega) (by omega) (idx + 1) rfl)
      simp only [setWriter, hset, Option.bind_eq_bind, Option.bind_some]
      exact if_pos (by omega)

/-- **A set of `2 ^ 31` elements or more is never written**: the position overflows. -/
theorem not_emits_setWriter {s : BitSet} (hs : 2 ^ 31 ≤ s.size) {scm : Schema} {i : Nat}
    (hi : i < 2 ^ 31) {idx : SizeT} {rows : List (List Cell)} :
    ¬ (setWriter s).Emits scm idx i rows := by
  intro h
  induction h with
  | done idx i i' hd =>
    obtain ⟨j, hj, hd⟩ := Option.bind_eq_some_iff.mp hd
    have hend := of_decide_eq_true (Prod.mk.inj (Option.some.inj hd)).1
    have := skip_lt hj hi
    omega
  | visit idx i j i' r cells rows hd hv hset hrest ih =>
    obtain ⟨r', -, hv⟩ := Option.bind_eq_some_iff.mp hv
    split at hv
    · rename_i hlt
      cases hv
      exact ih hlt
    · cases hv

/-! ### Sheets of indices -/

/-- The first column of the sheet has the indices in `X`. -/
def Lists (t : Sheet) (X : Set ℕ) : Prop :=
  ∃ is, ((List.range t.rows.length).map t.row).mapM (fun r => r.getIdx 0) = some is ∧
    ∀ i, i ∈ is ↔ i ∈ X

theorem lists_ints {t : Sheet} (cs : List Int32)
    (hrows : t.rows = cs.map fun c => [.int c]) :
    Lists t {i | ∃ c ∈ cs, (sizeOfInt c).toNat = i} := by
  refine ⟨cs.map fun c => (sizeOfInt c).toNat, ?_, fun i => List.mem_map⟩
  rw [mapM_eq_some_iff, List.forall₂_iff_get]
  have hlen : t.rows.length = cs.length := by rw [hrows, List.length_map]
  refine ⟨by simp [hlen], fun j h1 h2 => ?_⟩
  have hj : j < t.rows.length := by simpa using h1
  have hjc : j < cs.length := by omega
  have hset := Sheet.isSet_row hj
  have hrow : t.rows[j] = [.int cs[j]] := by
    simp only [hrows, List.getElem_map]
  rw [hrow] at hset
  have hget := hset.get (i := 0) (by simp)
  simp only [List.get_eq_getElem, List.getElem_map, List.getElem_range, Row.getIdx, Row.getInt]
  rw [show (t.row j).get .Integer 0 = some (.int cs[j]) from hget]
  rfl

/-- **Reading a sheet into a set adds its indices.** -/
theorem Lists.map {t : Sheet} {X : Set ℕ} (h : Lists t X) (s : BitSet) :
    ∃ s', t.map setUpdater s = some s' ∧ s'.size = s.size ∧
      ∀ i, i ∈ s'.tagged ↔ i ∈ s.tagged ∨ i ∈ X ∧ i < s.size := by
  obtain ⟨is, his, hX⟩ := h
  obtain ⟨s', hs', hsize, hmem⟩ := setUpdater_spec his s
  exact ⟨s', hs', hsize, fun i => by rw [hmem, hX]⟩

/-- **The sheet a set is written to lists its members**, and there is one exactly when the
set has less than `2 ^ 31` elements. -/
theorem lists_setWriter {s : BitSet} {fuel : Nat} {t : Sheet}
    (h : Sheet.fromVisitor [.Integer] (setWriter s) fuel 0 = some t) :
    s.size < 2 ^ 31 ∧ Lists t s.tagged := by
  obtain ⟨-, hemits, -⟩ := Sheet.fromVisitor_eq_some_iff.mp h
  have hs : s.size < 2 ^ 31 := by
    by_contra hc
    exact not_emits_setWriter (by omega) (by norm_num) hemits
  refine ⟨hs, ?_⟩
  have hrows := hemits.unique (emits_setWriter hs (Nat.zero_le _) 0)
  have hlists := lists_ints ((membersFrom s 0).map Int32.ofNat) (by
    rw [hrows, List.map_map]
    rfl)
  convert hlists using 1
  ext i
  constructor
  · intro hi
    have hlt := BitSet.lt_of_mem hi
    exact ⟨Int32.ofNat i, List.mem_map.mpr ⟨i, (mem_membersFrom (Nat.zero_le _)).mpr
      ⟨Nat.zero_le i, hi⟩, rfl⟩, toNat_sizeOfInt (by omega)⟩
  · rintro ⟨c, hc, rfl⟩
    obtain ⟨j, hj, rfl⟩ := List.mem_map.mp hc
    have hj := ((mem_membersFrom (Nat.zero_le _)).mp hj).2
    rwa [toNat_sizeOfInt (by have := BitSet.lt_of_mem hj; omega)]

theorem exists_sheet {s : BitSet} (hs : s.size < 2 ^ 31) {fuel : Nat} (hf : s.size < fuel) :
    ∃ t, Sheet.fromVisitor [.Integer] (setWriter s) fuel 0 = some t := by
  have hemits := emits_setWriter hs (Nat.zero_le _) 0
  have hlen : (membersFrom s 0).length ≤ s.size := by
    refine (List.length_filter_le _ _).trans ?_
    rw [List.length_range']
    omega
  have hrows : ((membersFrom s 0).map fun p => [Cell.int (Int32.ofNat p)]).length ≤ s.size := by
    rwa [List.length_map]
  exact ⟨⟨[.Integer], _, hemits.types, Nat.lt_of_le_of_lt hrows (by omega)⟩,
    Sheet.fromVisitor_eq_some_iff.mpr ⟨rfl, hemits, Nat.lt_of_le_of_lt hrows hf⟩⟩

end Linus

end Eau2
