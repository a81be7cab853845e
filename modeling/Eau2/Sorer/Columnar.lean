import Eau2.Sorer.Fields

/-!
# The rows of a file

`parse_schema` and `make_columnar` take the rows of a file one after the other.  `Walk`
has the rows they meet and how the last one ends.

* `schemaLoop_walk`: `parse_schema` widens the types it has by those of each row.
* `rowLoop_walk`: `make_columnar` adds the fields of the valid rows to its arrays.
-/

namespace Eau2

namespace Sorer

open Scan

/-- The rows from byte `i` on: each has a first byte that does not end rows.  They stop at
the byte `p` of `.at p`, which ends rows or is behind the file, or in a field. -/
inductive Walk (file : Str) : Nat → List (List (Nat × Nat)) → RowEnd → Prop
  | stop {i : Nat} : (∀ b, file[i]? = some b → endsRow b = true) → Walk file i [] (.at i)
  | broken {i : Nat} {b : UInt8} {r : RowEnd} : file[i]? = some b → ¬ endsRow b = true →
    (rowAt file i).2 = r → (∀ e, r ≠ .at e) → Walk file i [] r
  | row {i e : Nat} {b : UInt8} {rows : List (List (Nat × Nat))} {r : RowEnd} :
    file[i]? = some b → ¬ endsRow b = true → (rowAt file i).2 = .at e →
      Walk file (e + 1) rows r → Walk file i ((rowAt file i).1 :: rows) r

theorem Walk.unique {file : Str} {i : Nat} {rows rows' : List (List (Nat × Nat))} {r r' : RowEnd}
    (h : Walk file i rows r) (h' : Walk file i rows' r') : rows = rows' ∧ r = r' := by
  induction h generalizing rows' with
  | stop hstop =>
    cases h' with
    | stop => exact ⟨rfl, rfl⟩
    | broken hb hne => exact absurd (hstop _ hb) hne
    | row hb hne => exact absurd (hstop _ hb) hne
  | broken hb hne hr hnot =>
    cases h' with
    | stop hstop => exact absurd (hstop _ hb) hne
    | broken _ _ hr' => exact ⟨rfl, hr.symm.trans hr'⟩
    | row _ _ hr' => exact absurd (hr.symm.trans hr') (hnot _)
  | row hb hne hr _ ih =>
    cases h' with
    | stop hstop => exact absurd (hstop _ hb) hne
    | broken _ _ hr' hnot => exact absurd (hr'.symm.trans hr) (hnot _)
    | row _ _ hr' hrest =>
      cases hr.symm.trans hr'
      obtain ⟨rfl, rfl⟩ := ih hrest
      exact ⟨rfl, rfl⟩

theorem walk_total (file : Str) (i : Nat) : ∃ rows r, Walk file i rows r := by
  obtain ⟨n, hn⟩ : ∃ n, file.length - i = n := ⟨_, rfl⟩
  induction n using Nat.strongRecOn generalizing i with
  | _ n ih =>
    rcases hb : file[i]? with _ | b
    · exact ⟨[], .at i, .stop fun b hb' => by cases hb.symm.trans hb'⟩
    · have hlt : i < file.length := (List.getElem?_eq_some_iff.mp hb).1
      by_cases hend : endsRow b
      · refine ⟨[], .at i, .stop ?_⟩
        intro b' hb'
        cases hb.symm.trans hb'
        exact hend
      · cases hr : (rowAt file i).2 with
        | «at» e =>
          have hle := (le_of_rowAt (Nat.le_of_lt hlt) hr).1
          obtain ⟨rows, r, hrest⟩ := ih (file.length - (e + 1)) (by omega) (e + 1) rfl
          exact ⟨_, r, .row hb hend hr hrest⟩
        | assertion => exact ⟨[], .assertion, .broken hb hend hr (fun e he => by cases he)⟩
        | overrun => exact ⟨[], .overrun, .broken hb hend hr (fun e he => by cases he)⟩

theorem read_of_getElem? {m : Mapped} {i : Nat} {b : UInt8} (h : m.bytes[i]? = some b) :
    i < m.bytes.length ∧ read m i = pure b := by
  obtain ⟨hlt, hget⟩ := List.getElem?_eq_some_iff.mp h
  refine ⟨hlt, ?_⟩
  rw [← hget]
  exact read_below hlt

/-! ### Merging types -/

/-- The type of a column that has met `t` and meets `t'`. -/
def widenType (t t' : DataType) : DataType := if t.val < t'.val then t' else t

/-- The types of columns that have met `ts` and meet a row of types `ts'`. -/
def widen : List DataType → List DataType → List DataType
  | ts, [] => ts
  | [], ts' => ts'
  | t :: ts, t' :: ts' => widenType t t' :: widen ts ts'

theorem widen_nil (ts : List DataType) : widen [] ts = ts := by
  cases ts <;> rfl

theorem length_widen (ts ts' : List DataType) :
    (widen ts ts').length = max ts.length ts'.length := by
  induction ts, ts' using widen.induct with
  | case1 ts =>
    rw [widen]
    exact (Nat.max_zero _).symm
  | case2 ts' h =>
    rw [widen_nil]
    exact (Nat.zero_max _).symm
  | case3 t ts t' ts' ih =>
    rw [widen, List.length_cons, ih, List.length_cons, List.length_cons, Nat.succ_max_succ]

theorem getElem?_widen (ts ts' : List DataType) (j : Nat) :
    (widen ts ts')[j]? = match ts[j]?, ts'[j]? with
      | some t, some t' => some (widenType t t')
      | none, o => o
      | o, none => o := by
  induction ts, ts' using widen.induct generalizing j with
  | case1 ts => cases h : ts[j]? <;> simp [widen, h]
  | case2 ts' h => simp [widen_nil]
  | case3 t ts t' ts' ih =>
    cases j with
    | zero => rfl
    | succ j =>
      rw [widen, List.getElem?_cons_succ, ih]
      rfl

theorem widen_append_of_le {ts l : List DataType} (h : ts.length ≤ l.length) (t' : DataType) :
    widen ts (l ++ [t']) = widen ts l ++ [t'] := by
  induction ts, l using widen.induct with
  | case1 ts =>
    rw [List.eq_nil_of_length_eq_zero (Nat.le_zero.mp h)]
    rfl
  | case2 l hl => rw [widen_nil, widen_nil]
  | case3 t ts s l ih =>
    rw [List.cons_append, widen, widen, ih (Nat.le_of_succ_le_succ h)]
    rfl

theorem widen_append_of_lt {ts l : List DataType} (h : l.length < ts.length) (t' : DataType) :
    widen ts (l ++ [t']) = (widen ts l).set l.length (widenType ts[l.length] t') := by
  induction ts, l using widen.induct with
  | case1 ts =>
    cases ts with
    | nil => cases h
    | cons t ts => cases ts <;> rfl
  | case2 l hl => cases h
  | case3 t ts s l ih =>
    rw [List.cons_append, widen, widen, ih (Nat.lt_of_succ_lt_succ h)]
    rfl

theorem foldlM_mergeType {curr result : Schema} (hr : result.Grown)
    (hcw : curr.width < 2 ^ 63) {n : Nat} (hn : n ≤ curr.width) :
    ∃ result', (List.range n).foldlM (mergeType curr result.width) result = pure result' ∧
      result'.Grown ∧ result'.types = widen result.types (curr.types.take n) := by
  induction n with
  | zero =>
    refine ⟨result, rfl, hr, ?_⟩
    rw [List.take_zero, widen]
  | succ n ih =>
    obtain ⟨result₁, hfold, hg, htypes⟩ := ih (Nat.le_of_succ_le hn)
    have hlt : n < curr.types.length := hn
    have hlen : (curr.types.take n).length = n := by
      rw [List.length_take]
      exact Nat.min_eq_left (Nat.le_of_lt hlt)
    have hcurr : curr.colType n = some curr.types[n] := List.getElem?_eq_getElem hlt
    have hw₁ : result₁.width = max result.width n := by
      rw [Schema.width, htypes, length_widen, hlen]
      rfl
    rw [List.range_succ, List.foldlM_append, hfold, pure_bind, List.foldlM_cons,
      ← List.take_append_getElem hlt, mergeType, hcurr]
    by_cases hle : result.width ≤ n
    · obtain ⟨result₂, hadd, hg₂, htypes₂⟩ :=
        Schema.addColumn_grown hg (by rw [hw₁]; omega) curr.types[n]
      refine ⟨result₂, ?_, hg₂, ?_⟩
      · show (if _ then _ else _) >>= _ = _
        rw [if_pos hle, hadd]
        rfl
      · rw [htypes₂, htypes, widen_append_of_le (by rwa [hlen])]
    · have hlt' : n < result.types.length := Nat.not_le.mp hle
      have hat : result₁.colType n = some result.types[n] := by
        rw [Schema.colType, htypes, getElem?_widen, List.getElem?_eq_getElem hlt',
          List.getElem?_eq_none (by rw [hlen])]
      have hltake : (curr.types.take n).length < result.types.length := by rwa [hlen]
      have hset := widen_append_of_lt hltake curr.types[n]
      simp only [hlen] at hset
      by_cases hval : result.types[n].val < curr.types[n].val
      · have hidx : n < result₁.width := by
          rw [hw₁]
          omega
        obtain ⟨result₂, hset₂, hg₂, htypes₂⟩ := Schema.set_grown hg hidx curr.types[n]
        refine ⟨result₂, ?_, hg₂, ?_⟩
        · show (if _ then _ else _) >>= _ = _
          rw [if_neg hle, hat]
          show (if _ then _ else _) >>= _ = _
          rw [if_pos hval, hset₂]
          rfl
        · rw [htypes₂, htypes, hset, widenType, if_pos hval]
      · refine ⟨result₁, ?_, hg, ?_⟩
        · show (if _ then _ else _) >>= _ = _
          rw [if_neg hle, hat]
          show (if _ then _ else _) >>= _ = _
          rw [if_neg hval]
          rfl
        · obtain ⟨hlt₁, hget⟩ := List.getElem?_eq_some_iff.mp hat
          rw [hset, widenType, if_neg hval, ← htypes, ← hget, List.set_getElem_self]

/-- **A row widens the types that are there.** -/
theorem mergeTypes_eq {curr result : Schema} (hr : result.Grown) (hcw : curr.width < 2 ^ 63) :
    ∃ result', mergeTypes curr result = pure result' ∧ result'.Grown ∧
      result'.types = widen result.types curr.types := by
  obtain ⟨result', hfold, hg, htypes⟩ := foldlM_mergeType hr hcw (Nat.le_refl _)
  rw [Schema.width, List.take_length] at htypes
  exact ⟨result', hfold, hg, htypes⟩

/-! ### Valid rows -/

/-- The types of a row that a schema takes: as many as it has, and none above its own. -/
def Fitting (ts ts' : List DataType) : Prop := List.Forall₂ (fun t t' => t.val ≤ t'.val) ts ts'

instance (ts ts' : List DataType) : Decidable (Fitting ts ts') :=
  inferInstanceAs (Decidable (List.Forall₂ _ ts ts'))

def validRows (file : Str) (schema : Schema) (rows : List (List (Nat × Nat))) :
    List (List (Nat × Nat)) :=
  rows.filter fun fields => Fitting (rowTypes file fields) schema.types

theorem allFit_eq {row schema : Schema} {is : List Nat}
    (his : ∀ i ∈ is, i < row.types.length ∧ i < schema.types.length) :
    ∃ ok, allFit row schema is = pure ok ∧ (ok = true ↔ ∀ i ∈ is, ∀ t t',
      row.types[i]? = some t → schema.types[i]? = some t' → t.val ≤ t'.val) := by
  induction is with
  | nil => exact ⟨true, rfl, by simp⟩
  | cons i is ih =>
    obtain ⟨hi, hi'⟩ := his i List.mem_cons_self
    have hget : row.types[i]? = some row.types[i] := List.getElem?_eq_getElem hi
    have hget' : schema.types[i]? = some schema.types[i] := List.getElem?_eq_getElem hi'
    have hfits : fits row schema i = pure (decide (row.types[i].val ≤ schema.types[i].val)) := by
      rw [fits, Schema.colType, Schema.colType, hget, hget']
      rfl
    by_cases hle : row.types[i].val ≤ schema.types[i].val
    · obtain ⟨ok, hok, hiff⟩ := ih fun j hj => his j (List.mem_cons_of_mem _ hj)
      refine ⟨ok, ?_, ?_⟩
      · rw [allFit, hfits, pure_bind, if_pos (decide_eq_true hle), hok]
      · rw [hiff, List.forall_mem_cons]
        constructor
        · intro hrest
          refine ⟨?_, hrest⟩
          intro t t' ht ht'
          cases hget.symm.trans ht
          cases hget'.symm.trans ht'
          exact hle
        · exact fun h => h.2
    · refine ⟨false, ?_, ?_⟩
      · rw [allFit, hfits, pure_bind, if_neg (by rwa [decide_eq_true_iff])]
      · constructor
        · intro h
          cases h
        · intro h
          exact absurd (h i List.mem_cons_self _ _ hget hget') hle

/-- **`is_valid_row` compares the types.** -/
theorem isValidRow_eq (row schema : Schema) :
    isValidRow row schema = pure (decide (Fitting row.types schema.types)) := by
  have hforall : Fitting row.types schema.types ↔ row.types.length = schema.types.length ∧
      ∀ i ∈ List.range schema.types.length, ∀ t t', row.types[i]? = some t →
        schema.types[i]? = some t' → t.val ≤ t'.val := by
    rw [Fitting, List.forall₂_iff_get]
    constructor
    · intro h
      refine ⟨h.1, ?_⟩
      intro i _ t t' ht ht'
      obtain ⟨hi, rfl⟩ := List.getElem?_eq_some_iff.mp ht
      obtain ⟨hi', rfl⟩ := List.getElem?_eq_some_iff.mp ht'
      exact h.2 i hi hi'
    · intro h
      refine ⟨h.1, ?_⟩
      intro i hi hi'
      exact h.2 i (List.mem_range.mpr hi') _ _ (List.getElem?_eq_getElem hi)
        (List.getElem?_eq_getElem hi')
  rw [isValidRow]
  by_cases hw : row.width = schema.width
  · have hlen : row.types.length = schema.types.length := hw
    have his : ∀ i ∈ List.range schema.width, i < row.types.length ∧ i < schema.types.length := by
      intro i hi
      rw [hlen]
      exact ⟨List.mem_range.mp hi, List.mem_range.mp hi⟩
    obtain ⟨ok, hok, hiff⟩ := allFit_eq his
    rw [if_pos hw, hok]
    congr 1
    rw [Bool.eq_iff_iff, decide_eq_true_iff, hiff, hforall]
    exact (and_iff_right hlen).symm
  · rw [if_neg hw, decide_eq_false]
    intro h
    exact hw (hforall.mp h).1

/-! ### The arrays of a file -/

/-- Array `j` was filled with field `j` of each of `rows`. -/
def Built (columnar : List FieldArray) (rows : List (List (Nat × Nat))) : Prop :=
  ∀ j c, columnar[j]? = some c →
    FieldArray.Filled c (rows.map fun fields => sizeTs (fields.getD j (0, 0)))

theorem mapM_pushField {columnar : List FieldArray} {rows : List (List (Nat × Nat))}
    (h : Built columnar rows) {rowFields : FieldArray} {fields : List (Nat × Nat)}
    (hrow : FieldArray.Filled rowFields (fields.map sizeTs))
    (hlen : fields.length = columnar.length) :
    ∃ columnar', columnar.zipIdx.mapM (pushField rowFields) = pure columnar' ∧
      columnar'.length = columnar.length ∧ Built columnar' (rows ++ [fields]) := by
  obtain ⟨columnar', hmap, hlen', hbuilt⟩ := mapM_zipIdx_eq_pure (k := 0)
    (f := pushField rowFields) (l := columnar) (P := fun j c =>
      FieldArray.Filled c ((rows ++ [fields]).map fun fields => sizeTs (fields.getD j (0, 0)))) (by
    intro j c hc
    rw [Nat.zero_add]
    have hj : j < fields.length := by
      rw [hlen]
      exact (List.getElem?_eq_some_iff.mp hc).1
    have hjs : j < (fields.map sizeTs).length := by rwa [List.length_map]
    have hjn : j < ((fields.map sizeTs).map FieldArray.narrow).length := by rwa [List.length_map]
    have hstart := FieldArray.getStart_eq hrow.holds hjn
    have hend := FieldArray.getEnd_eq hrow.holds hjn
    obtain ⟨c', hpush, -, -⟩ := FieldArray.pushBack_spec (h j c hc).holds
      ((fields.map sizeTs).map FieldArray.narrow)[j].1
      ((fields.map sizeTs).map FieldArray.narrow)[j].2
    refine ⟨c', ?_, ?_⟩
    · rw [pushField, hstart, hend]
      show lift .outside (c.pushBack _ _) = _
      rw [hpush]
      rfl
    · have hfilled := (h j c hc).copied hjs hrow hstart hend hpush
      rw [List.getElem_map] at hfilled
      rwa [List.map_append, List.map_singleton, List.getD_eq_getElem _ _ hj])
  refine ⟨columnar', hmap, hlen', ?_⟩
  intro j c hc
  have hfilled := hbuilt j c hc
  rwa [Nat.zero_add] at hfilled

/-! ### The loops -/

/-- How the inner loop of `make_columnar` stops behind rows that end as `r` says. -/
def halt (m : Mapped) (columnar : List FieldArray) : RowEnd → Scan (Nat × List FieldArray)
  | .at p => do
    let _ ← read m p
    pure (p, columnar)
  | .assertion => throw .assertion
  | .overrun => throw .outside

section

variable {m : Mapped} (hm : m.Terminated) (hlen : m.bytes.length < 2 ^ 64)

include hm hlen

/-- **`parse_schema` widens the types by those of the next `n` rows.**  Rows that stop in
front of the last byte are left out here. -/
theorem schemaLoop_walk {i : Nat} {rows : List (List (Nat × Nat))} {r : RowEnd}
    (h : Walk m.bytes i rows r) (hend : ∀ p, r = .at p → read m p = pure 0) (hrun : r ≠ .overrun)
    (n : Nat) {result : Schema} (hg : result.Grown) :
    ∃ result', result'.Grown ∧
      result'.types = ((rows.take n).map (rowTypes m.bytes)).foldl widen result.types ∧
      ∀ fuel, m.bytes.length + 3 ≤ fuel → schemaLoop m fuel n i Schema.new result =
        if r = .assertion ∧ rows.length < n then throw .assertion else pure result' := by
  induction h generalizing n result with
  | @stop i _ =>
    refine ⟨result, hg, ?_, ?_⟩
    · rw [List.take_nil]
      rfl
    · intro fuel hfuel
      rw [if_neg (by simp)]
      cases n with
      | zero => rfl
      | succ n =>
        rw [schemaLoop, hend i rfl, pure_bind]
        exact if_pos (Or.inr rfl)
  | @broken i b r hb hnot hr hat =>
    refine ⟨result, hg, ?_, ?_⟩
    · rw [List.take_nil]
      rfl
    intro fuel hfuel
    cases n with
    | zero =>
      rw [if_neg (by simp)]
      rfl
    | succ n =>
      have hr' : r = .assertion := by
        cases r with
        | «at» e => exact absurd rfl (hat e)
        | assertion => rfl
        | overrun => exact absurd rfl hrun
      subst hr'
      obtain ⟨hlt, hread⟩ := read_of_getElem? hb
      obtain ⟨row, -, -, hparse⟩ := parseRowSchema_eq hm (Nat.le_of_lt hlt)
        (by rw [hr]; intro h; cases h) hlen
      rw [if_pos ⟨rfl, Nat.zero_lt_succ n⟩, schemaLoop, hread, pure_bind,
        if_neg (by rintro (rfl | rfl) <;> exact hnot rfl), hparse fuel (by omega), hr]
      rfl
  | @row i e b rows r hb hnot hr _ ih =>
    cases n with
    | zero =>
      refine ⟨result, hg, rfl, ?_⟩
      intro fuel hfuel
      rw [if_neg (by simp)]
      rfl
    | succ n =>
      obtain ⟨hlt, hread⟩ := read_of_getElem? hb
      obtain ⟨row, hrow, htypes, hparse⟩ := parseRowSchema_eq hm (Nat.le_of_lt hlt)
        (by rw [hr]; intro h; cases h) hlen
      have hwidth : row.width < 2 ^ 63 := by
        have hcount := length_rowAt m.bytes i
        rw [Schema.width, htypes, rowTypes, List.length_map]
        omega
      obtain ⟨result₁, hmerge, hg₁, htypes₁⟩ := mergeTypes_eq hg hwidth
      obtain ⟨result', hg', htypes', hloop⟩ := ih hend hrun n hg₁
      refine ⟨result', hg', ?_, ?_⟩
      · rw [htypes', htypes₁, htypes]
        rfl
      · intro fuel hfuel
        rw [schemaLoop, hread, pure_bind, if_neg (by rintro (rfl | rfl) <;> exact hnot rfl),
          hparse fuel (by omega), hr]
        show mergeTypes row result >>= _ = _
        rw [hmerge, pure_bind]
        refine (hloop fuel hfuel).trans (if_congr ?_ rfl rfl)
        rw [List.length_cons, Nat.succ_lt_succ_iff]

/-- **The inner loop of `make_columnar` adds the valid rows to the arrays.** -/
theorem rowLoop_walk {schema : Schema} {i : Nat} {rows : List (List (Nat × Nat))} {r : RowEnd}
    (h : Walk m.bytes i rows r) (hi : i ≤ m.bytes.length + 1) (hrun : r = .overrun → m.Strict)
    {rowFields : FieldArray} (hrow : FieldArray.Filled rowFields []) {columnar : List FieldArray}
    (hwidth : columnar.length = schema.width) {done : List (List (Nat × Nat))}
    (hbuilt : Built columnar done) :
    ∃ columnar', columnar'.length = schema.width ∧
      Built columnar' (done ++ validRows m.bytes schema rows) ∧
      ∀ fuel, m.bytes.length + 5 ≤ fuel + i →
        rowLoop m schema fuel i Schema.new rowFields columnar = halt m columnar' r := by
  induction h generalizing rowFields columnar done with
  | @stop i hstop =>
    refine ⟨columnar, hwidth, ?_, ?_⟩
    · rwa [validRows, List.filter_nil, List.append_nil]
    intro fuel hfuel
    obtain ⟨fuel, rfl⟩ : ∃ fuel', fuel = fuel' + 1 := ⟨fuel - 1, by omega⟩
    rw [rowLoop, halt]
    rcases hb : m.bytes[i]? with _ | b
    · have hle : m.bytes.length ≤ i := List.getElem?_eq_none_iff.mp hb
      rw [read, if_neg (Nat.not_lt.mpr hle)]
      by_cases hread : m.readable i
      · rw [if_pos hread]
        rfl
      · rw [if_neg hread]
        rfl
    · rw [(read_of_getElem? hb).2]
      exact if_pos (hstop b hb)
  | @broken i b r hb hnot hr hat =>
    refine ⟨columnar, hwidth, ?_, ?_⟩
    · rwa [validRows, List.filter_nil, List.append_nil]
    intro fuel hfuel
    obtain ⟨fuel, rfl⟩ : ∃ fuel', fuel = fuel' + 1 := ⟨fuel - 1, by omega⟩
    obtain ⟨hlt, hread⟩ := read_of_getElem? hb
    obtain ⟨row, -, -, hparse⟩ :=
      parseRowSchema_eq hm (Nat.le_of_lt hlt) (by rwa [hr]) hlen
    rw [rowLoop, hread, pure_bind, if_neg hnot, hparse fuel (by omega), hr]
    cases r with
    | «at» e => exact absurd rfl (hat e)
    | assertion => rfl
    | overrun => rfl
  | @row i e b rows r hb hnot hr hrest ih =>
    obtain ⟨hlt, hread⟩ := read_of_getElem? hb
    obtain ⟨hle, hle', -⟩ := le_of_rowAt (Nat.le_of_lt hlt) hr
    have hrun' : (rowAt m.bytes i).2 = .overrun → m.Strict := by
      rw [hr]
      intro h
      cases h
    obtain ⟨row, -, htypes, hparse⟩ := parseRowSchema_eq hm (Nat.le_of_lt hlt) hrun' hlen
    have hvalid := isValidRow_eq row schema
    rw [htypes] at hvalid
    rw [validRows, List.filter_cons]
    by_cases hfit : Fitting (rowTypes m.bytes (rowAt m.bytes i).1) schema.types
    · rw [if_pos (decide_eq_true hfit)]
      obtain ⟨row', hrow', hfields⟩ := parseRowFields_eq hm (Nat.le_of_lt hlt) hrun' hrow
      have hcount : (rowAt m.bytes i).1.length = columnar.length := by
        have hsame := hfit.length_eq
        rw [rowTypes, List.length_map] at hsame
        rw [hsame, hwidth]
        rfl
      obtain ⟨columnar₁, hpush, hlen₁, hbuilt₁⟩ := mapM_pushField hbuilt hrow' hcount
      obtain ⟨columnar', hlen', hbuilt', hloop⟩ :=
        ih (by omega) hrun hrow'.clear (hlen₁.trans hwidth) hbuilt₁
      refine ⟨columnar', hlen', ?_, ?_⟩
      · rwa [List.append_assoc, List.singleton_append] at hbuilt'
      · intro fuel hfuel
        obtain ⟨fuel, rfl⟩ : ∃ fuel', fuel = fuel' + 1 := ⟨fuel - 1, by omega⟩
        rw [rowLoop, hread, pure_bind, if_neg hnot, hparse fuel (by omega), hr]
        show isValidRow row schema >>= _ = _
        rw [hvalid, pure_bind, if_pos (decide_eq_true hfit), hfields fuel (by omega), hr]
        show columnar.zipIdx.mapM (pushField row') >>= _ = _
        rw [hpush]
        exact hloop fuel (by omega)
    · rw [if_neg (by rwa [decide_eq_true_iff])]
      obtain ⟨columnar', hlen', hbuilt', hloop⟩ := ih (by omega) hrun hrow hwidth hbuilt
      refine ⟨columnar', hlen', hbuilt', ?_⟩
      intro fuel hfuel
      obtain ⟨fuel, rfl⟩ : ∃ fuel', fuel = fuel' + 1 := ⟨fuel - 1, by omega⟩
      rw [rowLoop, hread, pure_bind, if_neg hnot, hparse fuel (by omega), hr]
      show isValidRow row schema >>= _ = _
      rw [hvalid, pure_bind, if_neg (by rwa [decide_eq_true_iff])]
      exact hloop fuel (by omega)

/-- **`make_columnar` starts at the first row, and goes on where that stops.** -/
theorem makeColumnar_walk (schema : Schema) {rows : List (List (Nat × Nat))} {r : RowEnd}
    (h : Walk m.bytes 0 rows r) (hrun : r = .overrun → m.Strict) :
    ∃ columnar, columnar.length = schema.width ∧
      Built columnar (validRows m.bytes schema rows) ∧
      ∀ fuel, m.bytes.length + 5 ≤ fuel → makeColumnar m (fuel + 1) 0 m.bytes.length schema =
        halt m columnar r >>= fun (p, columnar) =>
          columnarLoop m schema m.bytes.length fuel p columnar := by
  have hnew : Built (schema.types.map fun t => FieldArray.new.setType t) [] := by
    intro j c hc
    rw [List.getElem?_map, Option.map_eq_some_iff] at hc
    obtain ⟨t, -, rfl⟩ := hc
    exact .setType t .new
  by_cases hpos : 0 < m.bytes.length
  · obtain ⟨columnar, hwidth, hbuilt, hloop⟩ :=
      rowLoop_walk hm hlen h (Nat.zero_le _) hrun .new (List.length_map _) hnew
    refine ⟨columnar, hwidth, hbuilt, ?_⟩
    intro fuel hfuel
    rw [makeColumnar, columnarLoop, if_pos hpos, hloop fuel hfuel]
  · -- there is no row in an empty file
    have hempty : m.bytes.length = 0 := Nat.eq_zero_of_not_pos hpos
    have hread := read_length hm
    rw [hempty] at hread
    cases h with
    | stop _ =>
      refine ⟨_, List.length_map _, hnew, ?_⟩
      intro fuel hfuel
      obtain ⟨fuel, rfl⟩ : ∃ fuel', fuel = fuel' + 1 := ⟨fuel - 1, by omega⟩
      rw [makeColumnar, columnarLoop, if_neg hpos, halt, hread, pure_bind, pure_bind]
      show _ = columnarLoop _ _ _ _ _ _
      rw [columnarLoop, if_neg hpos]
    | broken hb => exact absurd (read_of_getElem? hb).1 hpos
    | row hb => exact absurd (read_of_getElem? hb).1 hpos

end

end Sorer

end Eau2
