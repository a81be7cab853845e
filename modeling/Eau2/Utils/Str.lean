import Eau2.Utils.Map

/-!
# Strings and string buffers

`utils/string.h`.  A `String` is its characters; `size_` is their number and the
terminator is left out.  On the wire a string is its `size_` and then a
NUL-terminated copy, so only NUL-free strings come back (`Str.reads_deserialize`);
a stream whose two halves disagree would build a `String` whose `size_` is not
the length of its buffer, and is `none` here.

`StrBuff` keeps the first `size_` bytes of `val_` and the allocated length.  A
copy that would pass the end of `val_` is `none`; `StrBuff.c_spec` and
`StrBuff.get_spec` say that none does, as long as `size_ < capacity_`.

`CStr` is what the `char*` constructors build: a string without a NUL.  There
`equals`, which compares with `strncmp`, is equality; on other strings it stops
at the NUL while `hash_me` does not.
-/

namespace Eau2

open Bytes Serializer

abbrev Str := List UInt8

namespace Str

def serialize (s : Str) : SerM Unit := do
  writeSizeT (UInt64.ofNat s.length)
  writeCStr s

def deserialize : SerM Str := do
  let size ← readSizeT
  let cs ← readString
  if size = UInt64.ofNat cs.length then pure cs else failure

def bytes (s : Str) : List UInt8 := le 8 (UInt64.ofNat s.length).toNat ++ (cstr s ++ [0])

theorem writes_serialize (s : Str) : Writes (serialize s) (bytes s) :=
  (writes_writeLE 8 _).bind (writes_writeCStr s)

theorem reads_deserialize {s : Str} (h : NulFree s) : Reads deserialize (bytes s) s := by
  refine (reads_readSizeT _).bind ?_
  rw [cstr_of_nulFree h]
  refine (reads_readString h).map ?_
  rw [if_pos rfl]
  exact Reads.pure s

end Str

abbrev CStr := { s : Str // NulFree s }

namespace CStr

instance : LawfulBEq CStr := inferInstanceAs (LawfulBEq { s : Str // NulFree s })

theorem nulFree_a : NulFree [97] := by decide

theorem nulFree_b : NulFree [98] := by decide

/-- `String::equals`: the sizes agree and `strncmp` finds no difference. -/
def equals (s t : CStr) : Bool := s.val.length == t.val.length && cstr s.val == cstr t.val

/-- A `char` is signed when it is added to a `size_t`. -/
def charToSizeT (c : UInt8) : SizeT := c.toInt8.toInt64.toUInt64

def hashMe (s : CStr) : SizeT :=
  s.val.foldl (fun hash c => charToSizeT c + (hash <<< 6) + (hash <<< 16) - hash) 0

instance : HashKey CStr := ⟨equals, hashMe⟩

instance : ExactHashKey CStr where
  equals_iff := by
    intro s t
    show (s.val.length == t.val.length && cstr s.val == cstr t.val) = true ↔ s = t
    rw [cstr_of_nulFree s.2, cstr_of_nulFree t.2, Bool.and_eq_true, beq_iff_eq, beq_iff_eq]
    constructor
    · intro h
      exact Subtype.ext h.2
    · rintro rfl
      exact ⟨rfl, rfl⟩

/-- `String::deserialize`; what `readString` returns never holds a NUL. -/
def deserialize : SerM CStr := do
  let s ← Str.deserialize
  if h : NulFree s then pure ⟨s, h⟩ else failure

theorem reads_deserialize (s : CStr) : Reads deserialize (Str.bytes s.val) s := by
  refine (Str.reads_deserialize s.2).map ?_
  rw [dif_pos s.2]
  exact Reads.pure s

end CStr

/-! ### String buffers -/

structure StrBuff where
  /-- The first `size_` bytes of `val_`. -/
  val : List UInt8
  capacity : Nat
  deriving DecidableEq, Repr

namespace StrBuff

def size (b : StrBuff) : Nat := b.val.length

def new : StrBuff := ⟨[], 10⟩

def growBy (step : Nat) (b : StrBuff) : StrBuff :=
  if step + b.size < b.capacity then b
  else
    let capacity := b.capacity * 2
    { b with capacity := if step + b.size ≥ capacity then capacity + step else capacity }

def cBytes (str : List UInt8) (b : StrBuff) : Option StrBuff :=
  let b := growBy str.length b
  if b.size + str.length ≤ b.capacity then some { b with val := b.val ++ str } else none

/-- `c(const char*)`, which `c(String&)` ends up in too: up to the first NUL. -/
def c (str : Str) (b : StrBuff) : Option StrBuff := b.cBytes (cstr str)

def cNum (v : Nat) (b : StrBuff) : Option StrBuff := b.c (decimal v)

/-- `get`: the terminator goes behind the text, and the text starts over. -/
def get (b : StrBuff) : Option (Str × StrBuff) :=
  let b := growBy 1 b
  if b.size < b.capacity then some (b.val, { b with val := [] }) else none

def Fits (b : StrBuff) : Prop := b.size < b.capacity

theorem fits_new : Fits new := show 0 < 10 by decide

theorem growBy_spec {b : StrBuff} (h : Fits b) (step : Nat) :
    (growBy step b).val = b.val ∧ step + b.size < (growBy step b).capacity := by
  unfold Fits at h
  rw [growBy]
  split
  · exact ⟨rfl, by assumption⟩
  · refine ⟨rfl, ?_⟩
    show step + b.size < if step + b.size ≥ b.capacity * 2 then b.capacity * 2 + step
      else b.capacity * 2
    split <;> omega

/-- **A copy into the buffer stays inside it.** -/
theorem cBytes_spec {b : StrBuff} (h : Fits b) (str : List UInt8) :
    ∃ b', b.cBytes str = some b' ∧ Fits b' ∧ b'.val = b.val ++ str := by
  obtain ⟨hv, hc⟩ := growBy_spec h str.length
  have hs : (growBy str.length b).size = b.size := by rw [size, hv, size]
  refine ⟨{ growBy str.length b with val := (growBy str.length b).val ++ str }, ?_, ?_, ?_⟩
  · rw [cBytes, if_pos (by rw [hs]; omega)]
  · show ((growBy str.length b).val ++ str).length < (growBy str.length b).capacity
    rw [List.length_append, hv]
    unfold size at hc
    omega
  · show (growBy str.length b).val ++ str = b.val ++ str
    rw [hv]

theorem c_spec {b : StrBuff} (h : Fits b) (str : Str) :
    ∃ b', b.c str = some b' ∧ Fits b' ∧ b'.val = b.val ++ cstr str := cBytes_spec h _

theorem cNum_spec {b : StrBuff} (h : Fits b) (v : Nat) :
    ∃ b', b.cNum v = some b' ∧ Fits b' ∧ b'.val = b.val ++ decimal v := by
  obtain ⟨b', e, hf, hv⟩ := c_spec h (decimal v)
  exact ⟨b', e, hf, by rw [hv, cstr_of_nulFree (decimal_nulFree v)]⟩

theorem get_spec {b : StrBuff} (h : Fits b) :
    ∃ b', b.get = some (b.val, b') ∧ Fits b' ∧ b'.val = [] := by
  obtain ⟨hv, hc⟩ := growBy_spec h 1
  have hs : (growBy 1 b).size = b.size := by rw [size, hv, size]
  refine ⟨{ growBy 1 b with val := [] }, ?_, ?_, rfl⟩
  · rw [get, if_pos (by rw [hs]; omega), hv]
  · show 0 < (growBy 1 b).capacity
    omega

end StrBuff

end Eau2
