import Eau2.Sorer.Rows

/-!
# Fields of a row

What the scanning loops make of the fields of a row.  A field lies inside the file, so
neither `parse_field_type` nor the arrays that take its type and its positions fail.

* `parseFieldType_eq`: inside the file the type of a field is `fieldType`, wherever the
  file may be read behind its end.
* `parseRowSchema_eq`, `parseRowFields_eq`: what `parse_row_schema` and
  `parse_row_fields` return for a row, and how they stop.
-/

namespace Eau2

namespace Sorer

open Scan

/-! ### The type of a field -/

theorem read_inside {bytes : Str} {i : Nat} (h : i < bytes.length) (readable : Nat → Bool) :
    read ⟨bytes, readable⟩ i = pure bytes[i] :=
  read_of_lt (m := ⟨bytes, readable⟩) (List.drop_eq_getElem_cons h)

theorem read_below {m : Mapped} {i : Nat} (h : i < m.bytes.length) : read m i = pure m.bytes[i] :=
  read_inside h m.readable

theorem skipUp_inside {bytes : Str} {n i : Nat} (h : i + n ≤ bytes.length) :
    ∃ r, i ≤ r ∧ r ≤ i + n ∧
      (bytes.drop i).dropWhile isspace = (bytes.drop r).dropWhile isspace ∧
      ∀ readable, skipUp ⟨bytes, readable⟩ n i = pure r := by
  induction n generalizing i with
  | zero => exact ⟨i, Nat.le_refl i, Nat.le_refl i, rfl, fun _ => rfl⟩
  | succ n ih =>
    have hlt : i < bytes.length := by omega
    by_cases hb : isspace bytes[i]
    · obtain ⟨r, hle, hle', hdrop, hr⟩ := ih (i := i + 1) (by omega)
      refine ⟨r, by omega, by omega, ?_, ?_⟩
      · rw [List.drop_eq_getElem_cons hlt, List.dropWhile_cons_of_pos hb, hdrop]
      · intro readable
        rw [skipUp, read_inside hlt, pure_bind, if_pos hb, hr]
    · refine ⟨i, Nat.le_refl i, Nat.le_add_right i _, rfl, ?_⟩
      intro readable
      rw [skipUp, read_inside hlt, pure_bind, if_neg hb]

theorem skipDown_inside {bytes : Str} {n i : Nat} (h : i < bytes.length) (hn : n ≤ i) :
    ∃ r, i - n ≤ r ∧ r ≤ i ∧ ∀ readable, skipDown ⟨bytes, readable⟩ n i = pure r := by
  induction n generalizing i with
  | zero => exact ⟨i, Nat.sub_le i 0, Nat.le_refl i, fun _ => rfl⟩
  | succ n ih =>
    by_cases hb : isspace bytes[i]
    · obtain ⟨r, hle, hle', hr⟩ := ih (i := i - 1) (by omega) (by omega)
      refine ⟨r, by omega, by omega, ?_⟩
      intro readable
      rw [skipDown, read_inside h, pure_bind, if_pos hb, hr]
    · refine ⟨i, Nat.sub_le i _, Nat.le_refl i, ?_⟩
      intro readable
      rw [skipDown, read_inside h, pure_bind, if_neg hb]

theorem anySpace_inside {bytes : Str} {n i : Nat} (h : i + n ≤ bytes.length) :
    ∃ blank, ∀ readable, anySpace ⟨bytes, readable⟩ n i = pure blank := by
  induction n generalizing i with
  | zero => exact ⟨false, fun _ => rfl⟩
  | succ n ih =>
    have hlt : i < bytes.length := by omega
    by_cases hb : isspace bytes[i]
    · refine ⟨true, ?_⟩
      intro readable
      rw [anySpace, read_inside hlt, pure_bind, if_pos hb]
    · obtain ⟨blank, hblank⟩ := ih (i := i + 1) (by omega)
      refine ⟨blank, ?_⟩
      intro readable
      rw [anySpace, read_inside hlt, pure_bind, if_neg hb, hblank]

theorem triml_inside {bytes : Str} {start fin : Nat} (hlt : start < fin)
    (hfin : fin < bytes.length) :
    ∃ r, start < r ∧ r ≤ fin ∧
      (bytes.drop (start + 1)).dropWhile isspace = (bytes.drop r).dropWhile isspace ∧
      ∀ readable, triml ⟨bytes, readable⟩ start fin = pure r := by
  have hroom : start + 1 + (fin - (start + 1)) ≤ bytes.length := by omega
  obtain ⟨r, hle, hle', hdrop, hr⟩ := skipUp_inside hroom
  exact ⟨r, hle, by omega, hdrop, hr⟩

theorem trimr_inside {bytes : Str} (start : Nat) {fin : Nat} (hpos : 0 < fin)
    (hfin : fin < bytes.length) :
    ∃ r, r < fin ∧ ∀ readable, trimr ⟨bytes, readable⟩ start fin = pure r := by
  have hin : fin - 1 < bytes.length := by omega
  obtain ⟨r, -, hle, hr⟩ := skipDown_inside hin (Nat.sub_le (fin - 1) start)
  refine ⟨r, by omega, ?_⟩
  intro readable
  rw [trimr, if_neg (by omega), hr]

theorem parseFieldType_inside {bytes : Str} {start fin : Nat} (hlt : start < fin)
    (hfin : fin < bytes.length) :
    ∃ t, t ≠ DataType.Field ∧ ∀ readable, parseFieldType ⟨bytes, readable⟩ start fin = pure t := by
  obtain ⟨first, hfirst, hfirst', -, htriml⟩ := triml_inside hlt hfin
  obtain ⟨last, hlast, htrimr⟩ := trimr_inside first (Nat.zero_lt_of_lt hlt) hfin
  by_cases hle : first ≤ last
  · have hin : first < bytes.length := by omega
    have hroom : first + (last + 1 - first) ≤ bytes.length := by omega
    obtain ⟨blank, hblank⟩ := anySpace_inside hroom
    have hstring : ∀ readable, stringAt ⟨bytes, readable⟩ first = pure (bytes.drop first) :=
      fun _ => if_pos (Nat.le_of_lt hin)
    refine ⟨if bytes[first] = quote then .Str
      else if last = first ∧ (bytes[first] = 48 ∨ bytes[first] = 49) then .Boolean
      else if strtollLen (bytes.drop first) = last - first + 1 then .Integer
      else if strtoldLen (bytes.drop first) = last - first + 1 then .Double
      else if blank then .Boolean else .Str, ?_, ?_⟩
    · split_ifs <;> decide
    · intro readable
      rw [parseFieldType, htriml, pure_bind, htrimr, pure_bind, if_pos hle, read_inside hin,
        pure_bind, hstring, pure_bind, hblank, pure_bind]
      split_ifs <;> rfl
  · refine ⟨.Boolean, by decide, ?_⟩
    intro readable
    rw [parseFieldType, htriml, pure_bind, htrimr, pure_bind, if_neg hle]

/-- The type of a field that lies inside the file. -/
def fieldType (bytes : Str) (start fin : Nat) : DataType :=
  match parseFieldType ⟨bytes, fun _ => true⟩ start fin with
  | some (.ok t) => t
  | _ => .Boolean

/-- **Inside the file `parse_field_type` gives the type of a field.** -/
theorem parseFieldType_eq {m : Mapped} {start fin : Nat} (hlt : start < fin)
    (hfin : fin < m.bytes.length) :
    parseFieldType m start fin = pure (fieldType m.bytes start fin) := by
  obtain ⟨t, -, heq⟩ := parseFieldType_inside hlt hfin
  refine (heq m.readable).trans ?_
  rw [fieldType, heq]
  rfl

/-! ### The fields of a row -/

def rowTypes (bytes : Str) (fields : List (Nat × Nat)) : List DataType :=
  fields.map fun f => fieldType bytes f.1 f.2

def sizeTs (f : Nat × Nat) : SizeT × SizeT := (UInt64.ofNat f.1, UInt64.ofNat f.2)

theorem length_rowFrom (o : Option Nat) (i : Nat) (bs : Str) :
    2 * (rowFrom o i bs).1.length ≤ bs.length + if o.isSome then 1 else 0 := by
  induction o, i, bs using rowFrom.induct with
  | case1 i => exact Nat.zero_le _
  | case2 i b bs hend =>
    rw [rowFrom, if_pos hend]
    exact Nat.zero_le _
  | case3 i bs hend ih =>
    rw [rowFrom, if_neg hend, if_pos rfl]
    exact ih
  | case4 i b bs hend hopen ih =>
    rw [rowFrom, if_neg hend, if_neg hopen, List.length_cons]
    exact Nat.le_succ_of_le ih
  | case5 s i => exact Nat.zero_le _
  | case6 s i bs ih =>
    rw [rowFrom, if_pos rfl, List.length_cons, List.length_cons]
    rw [Option.isSome_none, if_neg Bool.false_ne_true] at ih
    rw [Option.isSome_some, if_pos rfl]
    omega
  | case7 s i bs hclose =>
    rw [rowFrom, if_neg hclose, if_pos rfl]
    exact Nat.zero_le _
  | case8 s i b bs hclose hnl ih =>
    rw [rowFrom, if_neg hclose, if_neg hnl, List.length_cons]
    rw [Option.isSome_some, if_pos rfl] at ih ⊢
    omega

theorem length_rowAt (file : Str) (start : Nat) :
    2 * (rowAt file start).1.length ≤ file.length := by
  have h := length_rowFrom none start (file.drop start)
  rw [Option.isSome_none, if_neg Bool.false_ne_true, List.length_drop] at h
  exact h.trans (Nat.sub_le _ _)

theorem foldlM_addType {m : Mapped} {fields : List (Nat × Nat)}
    (hin : ∀ f ∈ fields, f.1 < f.2 ∧ f.2 < m.bytes.length) {row : Schema} (h : row.Grown)
    (hw : row.width + fields.length ≤ 2 ^ 63) :
    ∃ row', fields.foldlM (fun row f => addType m row f.1 f.2) row = pure row' ∧ row'.Grown ∧
      row'.types = row.types ++ rowTypes m.bytes fields := by
  induction fields generalizing row with
  | nil => exact ⟨row, rfl, h, (List.append_nil _).symm⟩
  | cons f fields ih =>
    rw [List.length_cons] at hw
    obtain ⟨hlt, hfin⟩ := hin f List.mem_cons_self
    obtain ⟨row₁, hadd, hrow₁, htypes⟩ :=
      Schema.addColumn_grown h (by omega) (fieldType m.bytes f.1 f.2)
    have hwidth : row₁.width = row.width + 1 := by
      rw [Schema.width, htypes, List.length_append]
      rfl
    have hone : addType m row f.1 f.2 = pure row₁ := by
      rw [addType, parseFieldType_eq hlt hfin, pure_bind, hadd]
      rfl
    obtain ⟨row', hrest, hrow', htypes'⟩ :=
      ih (fun g hg => hin g (List.mem_cons_of_mem _ hg)) hrow₁ (by omega)
    refine ⟨row', ?_, hrow', ?_⟩
    · rw [List.foldlM_cons, hone, pure_bind]
      exact hrest
    · rw [htypes', htypes, List.append_assoc]
      rfl

theorem foldlM_addField (fields : List (Nat × Nat)) {row : FieldArray}
    {found : List (SizeT × SizeT)} (h : FieldArray.Filled row found) :
    ∃ row', fields.foldlM (fun row f => addField row f.1 f.2) row = pure row' ∧
      FieldArray.Filled row' (found ++ fields.map sizeTs) := by
  induction fields generalizing row found with
  | nil =>
    refine ⟨row, rfl, ?_⟩
    rwa [List.map_nil, List.append_nil]
  | cons f fields ih =>
    obtain ⟨row₁, hpush, -, -⟩ := FieldArray.pushBack_spec h.holds
      (toInt (UInt64.ofNat f.1)) (toInt (UInt64.ofNat f.2))
    have hone : addField row f.1 f.2 = pure row₁ := by
      rw [addField, hpush]
      rfl
    obtain ⟨row', hrest, hrow'⟩ := ih (h.found hpush)
    refine ⟨row', ?_, ?_⟩
    · rw [List.foldlM_cons, hone, pure_bind]
      exact hrest
    · rw [List.append_assoc] at hrow'
      exact hrow'

section

variable {m : Mapped} {start : Nat} (hm : m.Terminated) (hs : start ≤ m.bytes.length)
  (hrun : (rowAt m.bytes start).2 = .overrun → m.Strict)

include hm hs hrun

/-- **`parse_row_schema` collects the types of a row.** -/
theorem parseRowSchema_eq (hlen : m.bytes.length < 2 ^ 64) :
    ∃ row, row.Grown ∧ row.types = rowTypes m.bytes (rowAt m.bytes start).1 ∧
      ∀ fuel, m.bytes.length - start + 3 ≤ fuel →
        parseRowSchema m fuel start Schema.new = finish (rowAt m.bytes start).2 row := by
  have hcount := length_rowAt m.bytes start
  obtain ⟨row, hfold, hrow, htypes⟩ := foldlM_addType (m := m)
    (fun f hf => (of_mem_rowAt hs hf).2) Schema.grown_new (by show 0 + _ ≤ _; omega)
  refine ⟨row, hrow, htypes, ?_⟩
  intro fuel hfuel
  rw [parseRowSchema, scanRow_eq hm _ hs hfuel hrun, hfold, pure_bind]

/-- **`parse_row_fields` collects the positions of a row.** -/
theorem parseRowFields_eq {row : FieldArray} (h : FieldArray.Filled row []) :
    ∃ row', FieldArray.Filled row' ((rowAt m.bytes start).1.map sizeTs) ∧
      ∀ fuel, m.bytes.length - start + 3 ≤ fuel →
        parseRowFields m fuel start row = finish (rowAt m.bytes start).2 row' := by
  obtain ⟨row', hfold, hrow'⟩ := foldlM_addField (rowAt m.bytes start).1 h
  refine ⟨row', hrow', ?_⟩
  intro fuel hfuel
  rw [parseRowFields, scanRow_eq hm _ hs hfuel hrun, hfold, pure_bind]

end

end Sorer

end Eau2
