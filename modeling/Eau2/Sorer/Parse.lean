import Eau2.Base.Fuel
import Eau2.Dataframe.Schema
import Eau2.Sorer.FieldArray
import Eau2.Sorer.Strto

/-!
# Parsing sor files

`sorer/sorer_helper.h`, over the bytes of a file that is mapped into memory.  Behind its
last byte the file reads as NUL wherever it may be read.

A `Scan` ends with a value or at a `Stop`, or it is `none` where a loop has used up its
rounds.  `parse_row_schema` and `parse_row_fields` are one loop, `scanRow`, over what is
done with a field.
-/

namespace Eau2

/-- Why a program stops. -/
inductive Stop
  | assertion
  | exit
  /-- An access behind the end of the file or of an array. -/
  | outside
  deriving DecidableEq, Repr

abbrev Scan := ExceptT Stop Option

namespace Scan

variable {α : Type}

/-- A loop that has used up its rounds. -/
def spin : Scan α := (none : Option (Except Stop α))

/-- An operation that fails with `e`. -/
def lift (e : Stop) : Option α → Scan α
  | some a => pure a
  | none => throw e

end Scan

/-- The bytes of a mapped file, and where it may be read behind them. -/
structure Mapped where
  bytes : Str
  readable : Nat → Bool

namespace Sorer

open Scan

def newline : UInt8 := 10
def quote : UInt8 := 34
def opening : UInt8 := 60
def closing : UInt8 := 62
/-- `EOF`, as a `char` that is signed. -/
def eof : UInt8 := 255

def endsRow (b : UInt8) : Bool := b == newline || b == eof || b == 0

def read (m : Mapped) (i : Nat) : Scan UInt8 :=
  if i < m.bytes.length then pure (m.bytes.getD i 0)
  else if m.readable i then pure 0
  else throw .outside

/-- The string at `&file[i]`; its NUL is behind the file at the latest. -/
def stringAt (m : Mapped) (i : Nat) : Scan Str :=
  if i ≤ m.bytes.length then pure (m.bytes.drop i) else throw .outside

/-! ### One field -/

/-- Go up from `i` over blanks, `n` steps at most. -/
def skipUp (m : Mapped) : Nat → Nat → Scan Nat
  | 0, i => pure i
  | n + 1, i => do
    let b ← read m i
    if isspace b then skipUp m n (i + 1) else pure i

/-- Go down from `i` over blanks, `n` steps at most. -/
def skipDown (m : Mapped) : Nat → Nat → Scan Nat
  | 0, i => pure i
  | n + 1, i => do
    let b ← read m i
    if isspace b then skipDown m n (i - 1) else pure i

def triml (m : Mapped) (start fin : Nat) : Scan Nat := skipUp m (fin - (start + 1)) (start + 1)

def trimr (m : Mapped) (start fin : Nat) : Scan Nat :=
  if fin = 0 then throw .assertion else skipDown m (fin - 1 - start) (fin - 1)

/-- The last loop of `parse_field_type`: is there a blank among `n` characters? -/
def anySpace (m : Mapped) : Nat → Nat → Scan Bool
  | 0, _ => pure false
  | n + 1, i => do
    let b ← read m i
    if isspace b then pure true else anySpace m n (i + 1)

def parseFieldType (m : Mapped) (start fin : Nat) : Scan DataType := do
  let start ← triml m start fin
  let fin ← trimr m start fin
  if start ≤ fin then
    let b ← read m start
    if b = quote then pure .Str
    else if fin = start ∧ (b = 48 ∨ b = 49) then pure .Boolean
    else
      let s ← stringAt m start
      if strtollLen s = fin - start + 1 then pure .Integer
      else if strtoldLen s = fin - start + 1 then pure .Double
      else
        let blank ← anySpace m (fin + 1 - start) start
        -- a number with something behind it stays a Boolean
        if blank then pure .Boolean else pure .Str
  else pure .Boolean

/-! ### One row -/

/-- The search for the `>` of a field, with its assertion. -/
def findEnd (m : Mapped) : Nat → Nat → Scan Nat
  | 0, _ => spin
  | fuel + 1, fieldEnd => do
    let b ← read m fieldEnd
    if b = closing then pure fieldEnd
    else if b = newline then throw .assertion
    else findEnd m fuel (fieldEnd + 1)

variable {σ : Type}

/-- The loop of `parse_row_schema` and `parse_row_fields`: `onField` is done for each
field.  It returns where the row ended. -/
def scanRow (m : Mapped) (onField : σ → Nat → Nat → Scan σ) : Nat → Nat → σ → Scan (Nat × σ)
  | 0, _, _ => spin
  | fuel + 1, start, row => do
    let b ← read m start
    if endsRow b then pure (start, row)
    else if b = opening then
      let fieldEnd ← findEnd m fuel (start + 1)
      let row ← onField row start fieldEnd
      scanRow m onField fuel (fieldEnd + 1) row
    else scanRow m onField fuel (start + 1) row

def addType (m : Mapped) (row : Schema) (start fin : Nat) : Scan Schema := do
  let t ← parseFieldType m start fin
  lift .outside (row.addColumn t)

def addField (row : FieldArray) (start fin : Nat) : Scan FieldArray :=
  lift .outside (row.pushBack (toInt (UInt64.ofNat start)) (toInt (UInt64.ofNat fin)))

def parseRowSchema (m : Mapped) := scanRow m (addType m)

def parseRowFields (m : Mapped) := scanRow m addField

/-! ### The schema of a file -/

/-- What `parse_schema` does with type `j` of a row, `resultLen` columns being there
before the row. -/
def mergeType (curr : Schema) (resultLen : Nat) (result : Schema) (j : Nat) : Scan Schema := do
  let currType ← lift .exit (curr.colType j)
  if resultLen ≤ j then lift .outside (result.addColumn currType)
  else do
    let t ← lift .exit (result.colType j)
    if t.val < currType.val then lift .exit (result.set j currType) else pure result

def mergeTypes (curr result : Schema) : Scan Schema :=
  (List.range curr.width).foldlM (mergeType curr result.width) result

/-- The loop of `parse_schema`, over the next `n` rows. -/
def schemaLoop (m : Mapped) (fuel : Nat) : Nat → Nat → Schema → Schema → Scan Schema
  | 0, _, _, result => pure result
  | n + 1, start, curr, result => do
    let b ← read m start
    if b = eof ∨ b = 0 then pure result
    else
      let (start, curr) ← parseRowSchema m fuel start curr
      let result ← mergeTypes curr result
      schemaLoop m fuel n (start + 1) curr.clear result

def parseSchema (m : Mapped) (fuel : Nat) : Scan Schema :=
  schemaLoop m fuel 500 0 Schema.new Schema.new

/-! ### The columns of a file -/

/-- The comparison of column `i` in `is_valid_row`. -/
def fits (rowTypes schema : Schema) (i : Nat) : Scan Bool := do
  let t ← lift .exit (rowTypes.colType i)
  let t' ← lift .exit (schema.colType i)
  pure (t.val ≤ t'.val)

/-- The loop of `is_valid_row`, over the columns that are left. -/
def allFit (rowTypes schema : Schema) : List Nat → Scan Bool
  | [] => pure true
  | i :: is => do
    let ok ← fits rowTypes schema i
    if ok then allFit rowTypes schema is else pure false

def isValidRow (rowTypes schema : Schema) : Scan Bool :=
  if rowTypes.width = schema.width then allFit rowTypes schema (List.range schema.width)
  else pure false

/-- `pushBack` of field `i` of the row to column `i`. -/
def pushField (rowFields : FieldArray) (column : FieldArray × Nat) : Scan FieldArray := do
  let start ← lift .outside (rowFields.getStart column.2)
  let fin ← lift .outside (rowFields.getEnd column.2)
  lift .outside (column.1.pushBack start fin)

/-- The inner loop of `make_columnar`.  It returns where it stopped, and the columns. -/
def rowLoop (m : Mapped) (schema : Schema) :
    Nat → Nat → Schema → FieldArray → List FieldArray → Scan (Nat × List FieldArray)
  | 0, _, _, _, _ => spin
  | fuel + 1, start, rowTypes, rowFields, columnar => do
    let b ← read m start
    if endsRow b then pure (start, columnar)
    else
      let (rowStart, rowTypes) ← parseRowSchema m fuel start rowTypes
      let valid ← isValidRow rowTypes schema
      if valid then
        let (_, rowFields) ← parseRowFields m fuel start rowFields
        let columnar ← columnar.zipIdx.mapM (pushField rowFields)
        rowLoop m schema fuel (rowStart + 1) rowTypes.clear rowFields.clear columnar
      else rowLoop m schema fuel (rowStart + 1) rowTypes.clear rowFields columnar

/-- The outer loop of `make_columnar`. -/
def columnarLoop (m : Mapped) (schema : Schema) (fin : Nat) :
    Nat → Nat → List FieldArray → Scan (List FieldArray)
  | 0, _, _ => spin
  | fuel + 1, start, columnar =>
    if start < fin then do
      let (start, columnar) ← rowLoop m schema fuel start Schema.new FieldArray.new columnar
      columnarLoop m schema fin fuel start columnar
    else pure columnar

def makeColumnar (m : Mapped) (fuel start fin : Nat) (schema : Schema) : Scan (List FieldArray) :=
  columnarLoop m schema fin fuel start (schema.types.map fun t => FieldArray.new.setType t)

end Sorer

end Eau2
