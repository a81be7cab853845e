import Eau2.Dataframe.Cell

/-!
# Field arrays

`sorer/field_array.h`: two growing arrays of `int`s with the positions of the `<` and the
`>` of some fields.  The parser finds the positions as `size_t`s, and `SorWriter::visit`
reads them back into `size_t`s.

* `Holds`, `pushBack_spec`: an array that holds some pairs takes one more, whether or not
  it has to grow.
* `Filled`: what the calls of `parse_row_fields` and `make_columnar` make of an array.
* `positions_iff`: a filled array gives the positions back exactly when they survive the
  way through an `int`.
-/

namespace Eau2

/-- A `size_t` where an `int` is asked for: the low 32 bits. -/
def toInt (p : SizeT) : Int32 := p.toUInt32.toInt32

/-- An `int` where a `size_t` is asked for: the sign is extended. -/
def toSizeT (i : Int32) : SizeT := i.toInt64.toUInt64

theorem signExtend_setWidth (p : BitVec 64) :
    (p.setWidth 32).signExtend 64 = p ↔ p.toNat < 2 ^ 31 ∨ 2 ^ 64 - 2 ^ 31 ≤ p.toNat := by
  have hlt := p.isLt
  rw [← BitVec.toNat_inj, BitVec.toNat_signExtend]
  simp only [BitVec.msb_eq_decide, BitVec.toNat_setWidth, decide_eq_true_eq]
  split <;> omega

/-- **The lowest and the highest `2 ^ 31` positions survive.** -/
theorem toSizeT_toInt (p : SizeT) :
    toSizeT (toInt p) = p ↔ p.toNat < 2 ^ 31 ∨ 2 ^ 64 - 2 ^ 31 ≤ p.toNat := by
  rw [← UInt64.toBitVec_inj]
  exact signExtend_setWidth p.toBitVec

theorem toInt_eq_neg_one (p : SizeT) : toInt p = -1 ↔ p.toNat % 2 ^ 32 = 2 ^ 32 - 1 := by
  rw [← Int32.toBitVec_inj, ← BitVec.toNat_inj]
  show (p.toBitVec.setWidth 32).toNat = _ ↔ _
  rw [BitVec.toNat_setWidth]
  exact Iff.rfl

structure FieldArray where
  type : DataType
  size : Nat
  capacity : Nat
  /-- `starts_`; a cell that was not written is `none`. -/
  starts : List (Option Int32)
  ends : List (Option Int32)
  deriving DecidableEq

namespace FieldArray

def new : FieldArray := ⟨.Field, 0, 4, List.replicate 4 none, List.replicate 4 none⟩

/-- The loop of `resize_`: the first `size` cells in a new array of `capacity` cells. -/
def copyCells (old : List (Option Int32)) (size capacity : Nat) : List (Option Int32) :=
  (List.range size).foldl (fun cells i => cells.set i (old.getD i none))
    (List.replicate capacity none)

def resize_ (fa : FieldArray) : FieldArray :=
  { fa with
    capacity := fa.capacity * 2
    starts := copyCells fa.starts fa.size (fa.capacity * 2)
    ends := copyCells fa.ends fa.size (fa.capacity * 2) }

/-- `pushBack`; a write behind one of the arrays is `none`. -/
def pushBack (fa : FieldArray) (start fin : Int32) : Option FieldArray :=
  let fa := if fa.size = fa.capacity then fa.resize_ else fa
  if fa.size < fa.starts.length ∧ fa.size < fa.ends.length then
    some { fa with
      starts := fa.starts.set fa.size (some start)
      ends := fa.ends.set fa.size (some fin)
      size := fa.size + 1 }
  else none

def len (fa : FieldArray) : Nat := fa.size

/-- `get_start`; a cell that was not written is `none`. -/
def getStart (fa : FieldArray) (i : Nat) : Option Int32 :=
  if fa.size ≤ i then some (-1) else fa.starts.getD i none

def getEnd (fa : FieldArray) (i : Nat) : Option Int32 :=
  if fa.size ≤ i then some (-1) else fa.ends.getD i none

def clear (fa : FieldArray) : FieldArray :=
  { fa with
    starts := List.replicate fa.capacity none
    ends := List.replicate fa.capacity none
    size := 0 }

def setType (t : DataType) (fa : FieldArray) : FieldArray :=
  if fa.type = .Field then { fa with type := t } else fa

/-! ### What an array holds -/

/-- The first `size_` cells hold `fields`, and the arrays are as long as `capacity_`. -/
structure Holds (fa : FieldArray) (fields : List (Int32 × Int32)) : Prop where
  size : fa.size = fields.length
  le : fa.size ≤ fa.capacity
  pos : 0 < fa.capacity
  length_starts : fa.starts.length = fa.capacity
  length_ends : fa.ends.length = fa.capacity
  starts : fa.starts.take fa.size = fields.map fun p => some p.1
  ends : fa.ends.take fa.size = fields.map fun p => some p.2

theorem holds_new : Holds new [] := by
  refine ⟨rfl, ?_, ?_, rfl, rfl, rfl, rfl⟩ <;> decide

theorem holds_clear {fa : FieldArray} {fields : List (Int32 × Int32)} (h : Holds fa fields) :
    Holds fa.clear [] where
  size := rfl
  le := Nat.zero_le _
  pos := h.pos
  length_starts := List.length_replicate
  length_ends := List.length_replicate
  starts := List.take_zero
  ends := List.take_zero

theorem holds_setType {fa : FieldArray} {fields : List (Int32 × Int32)} (h : Holds fa fields)
    (t : DataType) : Holds (fa.setType t) fields := by
  unfold setType
  split
  · exact ⟨h.size, h.le, h.pos, h.length_starts, h.length_ends, h.starts, h.ends⟩
  · exact h

theorem copyCells_eq (old : List (Option Int32)) {size capacity : Nat} (h : size ≤ old.length)
    (hc : size ≤ capacity) :
    copyCells old size capacity = old.take size ++ List.replicate (capacity - size) none := by
  unfold copyCells
  induction size with
  | zero => simp
  | succ size ih =>
    rw [List.range_succ, List.foldl_append, ih (by omega) (by omega), List.foldl_cons,
      List.foldl_nil]
    have hlen : (old.take size).length = size := by
      rw [List.length_take]
      omega
    have hrest : List.replicate (capacity - size) (none : Option Int32) =
        none :: List.replicate (capacity - (size + 1)) none := by
      rw [← List.replicate_succ]
      congr 1
      omega
    rw [List.set_append_right _ _ (Nat.le_of_eq hlen), hlen, Nat.sub_self, hrest, List.set_cons_zero,
      List.getD_eq_getElem _ _ (by omega), ← List.take_append_getElem (by omega),
      List.append_assoc]
    rfl

theorem holds_resize {fa : FieldArray} {fields : List (Int32 × Int32)} (h : Holds fa fields) :
    Holds fa.resize_ fields := by
  have hle := h.le
  have hpos := h.pos
  have hcopy : ∀ old : List (Option Int32), old.length = fa.capacity →
      (copyCells old fa.size (fa.capacity * 2)).length = fa.capacity * 2 ∧
        (copyCells old fa.size (fa.capacity * 2)).take fa.size = old.take fa.size := by
    intro old hold
    rw [copyCells_eq old (by omega) (by omega)]
    have hlen : (old.take fa.size).length = fa.size := by
      rw [List.length_take]
      omega
    constructor
    · rw [List.length_append, List.length_replicate, hlen]
      omega
    · rw [List.take_append_of_le_length (Nat.le_of_eq hlen.symm), List.take_take, Nat.min_self]
  obtain ⟨hs, hs'⟩ := hcopy fa.starts h.length_starts
  obtain ⟨he, he'⟩ := hcopy fa.ends h.length_ends
  refine ⟨h.size, ?_, ?_, hs, he, hs'.trans h.starts, he'.trans h.ends⟩
  · show fa.size ≤ fa.capacity * 2
    omega
  · show 0 < fa.capacity * 2
    omega

theorem take_set {α : Type} {l : List α} {n : Nat} (h : n < l.length) (a : α) :
    (l.set n a).take (n + 1) = l.take n ++ [a] := by
  rw [List.take_succ_eq_append_getElem (by rwa [List.length_set]), List.getElem_set_self,
    List.take_set_of_le (Nat.le_refl n)]

/-- **One more field, whether or not the array has to grow.** -/
theorem pushBack_spec {fa : FieldArray} {fields : List (Int32 × Int32)} (h : Holds fa fields)
    (start fin : Int32) :
    ∃ fa', fa.pushBack start fin = some fa' ∧ Holds fa' (fields ++ [(start, fin)]) ∧
      fa'.type = fa.type := by
  obtain ⟨fa₁, hfa₁, h₁, hroom, htype⟩ : ∃ fa₁,
      (if fa.size = fa.capacity then fa.resize_ else fa) = fa₁ ∧ Holds fa₁ fields ∧
        fa₁.size < fa₁.capacity ∧ fa₁.type = fa.type := by
    have hle := h.le
    have hpos := h.pos
    by_cases hfull : fa.size = fa.capacity
    · refine ⟨fa.resize_, if_pos hfull, holds_resize h, ?_, rfl⟩
      show fa.size < fa.capacity * 2
      omega
    · exact ⟨fa, if_neg hfull, h, by omega, rfl⟩
  have hs : fa₁.size < fa₁.starts.length := by rwa [h₁.length_starts]
  have he : fa₁.size < fa₁.ends.length := by rwa [h₁.length_ends]
  have hpush : fa.pushBack start fin = some { fa₁ with
      starts := fa₁.starts.set fa₁.size (some start)
      ends := fa₁.ends.set fa₁.size (some fin)
      size := fa₁.size + 1 } := by
    rw [pushBack, hfa₁]
    exact if_pos ⟨hs, he⟩
  refine ⟨_, hpush, ⟨?_, hroom, h₁.pos, ?_, ?_, ?_, ?_⟩, htype⟩
  · show fa₁.size + 1 = _
    rw [h₁.size, List.length_append]
    rfl
  · exact List.length_set.trans h₁.length_starts
  · exact List.length_set.trans h₁.length_ends
  · show (fa₁.starts.set fa₁.size (some start)).take (fa₁.size + 1) = _
    rw [take_set hs, h₁.starts, List.map_append]
    rfl
  · show (fa₁.ends.set fa₁.size (some fin)).take (fa₁.size + 1) = _
    rw [take_set he, h₁.ends, List.map_append]
    rfl

theorem getStart_eq {fa : FieldArray} {fields : List (Int32 × Int32)} (h : Holds fa fields)
    {i : Nat} (hi : i < fields.length) : fa.getStart i = some fields[i].1 := by
  have hlt : i < fa.size := by rwa [h.size]
  have hat : (fa.starts.take fa.size)[i]? = some (some fields[i].1) := by
    rw [h.starts, List.getElem?_map, List.getElem?_eq_getElem hi]
    rfl
  rw [List.getElem?_take_of_lt hlt] at hat
  rw [getStart, if_neg (Nat.not_le.mpr hlt), List.getD_eq_getElem?_getD, hat]
  rfl

theorem getEnd_eq {fa : FieldArray} {fields : List (Int32 × Int32)} (h : Holds fa fields)
    {i : Nat} (hi : i < fields.length) : fa.getEnd i = some fields[i].2 := by
  have hlt : i < fa.size := by rwa [h.size]
  have hat : (fa.ends.take fa.size)[i]? = some (some fields[i].2) := by
    rw [h.ends, List.getElem?_map, List.getElem?_eq_getElem hi]
    rfl
  rw [List.getElem?_take_of_lt hlt] at hat
  rw [getEnd, if_neg (Nat.not_le.mpr hlt), List.getD_eq_getElem?_getD, hat]
  rfl

/-! ### What the parser makes of an array -/

/-- `fa` was made by the calls of `parse_row_fields` and `make_columnar`, and the parser
found the fields `found` for it since it was last cleared. -/
inductive Filled : FieldArray → List (SizeT × SizeT) → Prop
  | new : Filled new []
  /-- `parse_row_fields`: a field from `start` to `fin`. -/
  | found {fa fa' : FieldArray} {fields : List (SizeT × SizeT)} {start fin : SizeT} :
    Filled fa fields → fa.pushBack (toInt start) (toInt fin) = some fa' →
      Filled fa' (fields ++ [(start, fin)])
  /-- `make_columnar`: field `i` of another array. -/
  | copied {fa fa' row : FieldArray} {fields rowFields : List (SizeT × SizeT)} {i : Nat}
    {start fin : Int32} (hi : i < rowFields.length) :
    Filled fa fields → Filled row rowFields → row.getStart i = some start →
      row.getEnd i = some fin → fa.pushBack start fin = some fa' →
      Filled fa' (fields ++ [rowFields[i]])
  | clear {fa : FieldArray} {fields : List (SizeT × SizeT)} : Filled fa fields → Filled fa.clear []
  | setType {fa : FieldArray} {fields : List (SizeT × SizeT)} (t : DataType) :
    Filled fa fields → Filled (fa.setType t) fields

/-- What becomes of a field on its way into an array. -/
def narrow (field : SizeT × SizeT) : Int32 × Int32 := (toInt field.1, toInt field.2)

/-- **A filled array holds the positions as `int`s.** -/
theorem Filled.holds {fa : FieldArray} {fields : List (SizeT × SizeT)} (h : Filled fa fields) :
    Holds fa (fields.map narrow) := by
  induction h with
  | new => exact holds_new
  | @found fa fa' fields start fin _ hpush ih =>
    obtain ⟨fa₁, hfa₁, hholds, -⟩ := pushBack_spec ih (toInt start) (toInt fin)
    cases hpush.symm.trans hfa₁
    rw [List.map_append]
    exact hholds
  | @copied fa fa' row fields rowFields i start fin hi _ _ hstart hend hpush ih ihrow =>
    have hi' : i < (rowFields.map narrow).length := by rwa [List.length_map]
    rw [getStart_eq ihrow hi'] at hstart
    rw [getEnd_eq ihrow hi'] at hend
    cases hstart
    cases hend
    obtain ⟨fa₁, hfa₁, hholds, -⟩ :=
      pushBack_spec ih (rowFields.map narrow)[i].1 (rowFields.map narrow)[i].2
    cases hpush.symm.trans hfa₁
    rw [List.map_append, List.map_singleton, ← List.getElem_map narrow (h := hi')]
    exact hholds
  | clear _ ih => exact holds_clear ih
  | setType t _ ih => exact holds_setType ih t

/-- Field `i` comes back as it was found, and its positions are not the out-of-bounds
value. -/
def Exact (fa : FieldArray) (i : Nat) (field : SizeT × SizeT) : Prop :=
  ∃ start fin, fa.getStart i = some start ∧ fa.getEnd i = some fin ∧
    toSizeT start = field.1 ∧ toSizeT fin = field.2 ∧ start ≠ -1 ∧ fin ≠ -1

/-- A position that survives the way through an `int`. -/
def Fits (p : SizeT) : Prop := p.toNat < 2 ^ 31 ∨ 2 ^ 64 - 2 ^ 31 ≤ p.toNat ∧ p.toNat ≠ 2 ^ 64 - 1

theorem fits_iff (p : SizeT) : toSizeT (toInt p) = p ∧ toInt p ≠ -1 ↔ Fits p := by
  have hlt := p.toNat_lt
  rw [toSizeT_toInt, Ne, toInt_eq_neg_one, Fits]
  omega

theorem exact_iff {fa : FieldArray} {fields : List (SizeT × SizeT)} (h : Filled fa fields)
    {i : Nat} (hi : i < fields.length) :
    Exact fa i fields[i] ↔ Fits fields[i].1 ∧ Fits fields[i].2 := by
  have hi' : i < (fields.map narrow).length := by rwa [List.length_map]
  have hstart := getStart_eq h.holds hi'
  have hend := getEnd_eq h.holds hi'
  rw [List.getElem_map] at hstart hend
  rw [← fits_iff, ← fits_iff]
  constructor
  · intro hexact
    obtain ⟨start, fin, hs, he, h1, h2, h3, h4⟩ := hexact
    cases hstart.symm.trans hs
    cases hend.symm.trans he
    exact ⟨⟨h1, h3⟩, ⟨h2, h4⟩⟩
  · intro hfits
    obtain ⟨⟨h1, h3⟩, ⟨h2, h4⟩⟩ := hfits
    exact ⟨_, _, hstart, hend, h1, h2, h3, h4⟩

/-- **An array that the parser filled has a field for each that was found; it gives all
of them back exactly when each of their positions is below `2 ^ 31` or among the last
`2 ^ 31 - 1` a file can have.** -/
theorem positions_iff {fa : FieldArray} {fields : List (SizeT × SizeT)} (h : Filled fa fields) :
    fa.len = fields.length ∧
      ((∀ i (hi : i < fields.length), Exact fa i fields[i]) ↔
        ∀ field ∈ fields, Fits field.1 ∧ Fits field.2) := by
  refine ⟨h.holds.size.trans (List.length_map _), ?_⟩
  constructor
  · intro hall field hmem
    obtain ⟨i, hi, rfl⟩ := List.mem_iff_getElem.mp hmem
    exact (exact_iff h hi).mp (hall i hi)
  · intro hall i hi
    exact (exact_iff h hi).mpr (hall _ (List.getElem_mem hi))

/-- An array of one field. -/
theorem positions_iff_one : ∃ fa, new.pushBack (toInt 3) (toInt 5) = some fa ∧ fa.len = 1 ∧
    ∀ i (hi : i < [((3 : SizeT), (5 : SizeT))].length), Exact fa i [(3, 5)][i] := by
  obtain ⟨fa, hpush⟩ := Option.isSome_iff_exists.mp
    (show (new.pushBack (toInt 3) (toInt 5)).isSome = true from rfl)
  obtain ⟨hlen, hiff⟩ := positions_iff (.found .new hpush)
  refine ⟨fa, hpush, hlen, hiff.mpr fun field hfield => ?_⟩
  rw [List.mem_singleton.mp hfield]
  exact ⟨Or.inl (by decide), Or.inl (by decide)⟩

/-- **A field at `2 ^ 31` comes back with a negative start.** -/
theorem position_narrowed : ∃ fa,
    Filled fa [(0x80000000, 0x80000002)] ∧ fa.getStart 0 = some (-2147483648) ∧
      ¬ Exact fa 0 (0x80000000, 0x80000002) := by
  refine ⟨_, .found .new rfl, rfl, ?_⟩
  intro h
  obtain ⟨start, fin, hs, -, h1, -⟩ := h
  cases hs
  exact absurd h1 (by decide)

end FieldArray

end Eau2
