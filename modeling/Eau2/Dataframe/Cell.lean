import Eau2.Store.Key

/-!
# Data types and cells

`utils/datatype.h`, `utils/datatypeutils.h`, and what the four kinds of columns hold.
A double is its 64 bits.  Every cell is written and read back as a value of its own
type (`Cell.reads_readCell`), and every type but `Field` by its letter
(`charToType_typeToChar`).
-/

namespace Eau2

open Bytes Serializer

/-- `enum DataType`. -/
inductive DataType
  | Field | Boolean | Integer | Double | Str
  deriving DecidableEq, Repr

namespace DataType

/-- The value of an enumerator, by which the types are compared. -/
def val : DataType → Nat
  | Field => 0
  | Boolean => 1
  | Integer => 2
  | Double => 3
  | Str => 4

/-- `DataTypeUtils::charToType`: `I`, `S`, `B` and `D` in either case. -/
def charToType (c : UInt8) : Option DataType :=
  if c = 73 ∨ c = 105 then some Integer
  else if c = 83 ∨ c = 115 then some Str
  else if c = 66 ∨ c = 98 then some Boolean
  else if c = 68 ∨ c = 100 then some Double
  else none

def typeToChar : DataType → Option UInt8
  | Integer => some 73
  | Str => some 83
  | Boolean => some 66
  | Double => some 68
  | Field => none

theorem charToType_typeToChar {t : DataType} {c : UInt8} (h : typeToChar t = some c) :
    charToType c = some t := by
  cases t <;> cases h <;> rfl

theorem ne_field_of_charToType {t : DataType} {c : UInt8} (h : charToType c = some t) :
    t ≠ Field := by
  rw [charToType] at h
  repeat' split at h
  all_goals cases h <;> decide

theorem typeToChar_isSome {t : DataType} (h : t ≠ Field) : ∃ c, typeToChar t = some c := by
  cases t with
  | Field => exact absurd rfl h
  | _ => exact ⟨_, rfl⟩

end DataType

inductive Cell
  | int (i : Int32)
  | bool (b : Bool)
  | double (d : UInt64)
  | str (s : CStr)
  deriving DecidableEq, Repr

namespace Cell

def type : Cell → DataType
  | int _ => .Integer
  | bool _ => .Boolean
  | double _ => .Double
  | str _ => .Str

theorem type_ne_field (c : Cell) : c.type ≠ .Field := by
  cases c <;> intro h <;> cases h

def serialize : Cell → SerM Unit
  | int i => writeInt i
  | bool b => writeBool b
  | double d => writeDouble d
  | str s => Str.serialize s.val

def readCell : DataType → SerM Cell
  | .Integer => int <$> readInt
  | .Boolean => bool <$> readBool
  | .Double => double <$> readDouble
  | .Str => str <$> CStr.deserialize
  | .Field => failure

def bytes : Cell → List UInt8
  | int i => le 4 i.toUInt32.toNat
  | bool b => le 1 b.toNat
  | double d => le 8 d.toNat
  | str s => Str.bytes s.val

theorem writes_serialize (c : Cell) : Writes (serialize c) (bytes c) := by
  cases c with
  | int i => exact writes_writeLE 4 _
  | bool b => exact writes_writeLE 1 _
  | double d => exact writes_writeLE 8 _
  | str s => exact Str.writes_serialize s.val

theorem reads_map {α β : Type} {m : SerM α} {bs : List UInt8} {a : α} (h : Reads m bs a)
    (f : α → β) : Reads (f <$> m) bs (f a) := by
  rw [map_eq_pure_bind]
  exact h.map (Reads.pure (f a))

theorem reads_readCell (c : Cell) : Reads (readCell c.type) (bytes c) c := by
  cases c with
  | int i => exact reads_map (reads_readInt i) int
  | bool b => exact reads_map (reads_readBool b) bool
  | double d => exact reads_map (reads_readDouble d) double
  | str s => exact reads_map (CStr.reads_deserialize s) str

end Cell

end Eau2
