import Eau2.Base.Bytes
import Eau2.Base.Tape

/-!
# The serializer

`serial/serial.h`: one growing byte buffer with a write end and a read end.
`buffer` holds the first `numBytesWritten_` bytes of `buffer_`; what lies behind
them is never specified, so a read that would reach it is `none` here.  The
buffer is doubled until a write fits (`makeRoom`), which never ends from
capacity `0` and is `none` there.

Every primitive has two facts, on the tape rules of `Base/Tape.lean`: the bytes
it writes and what it reads back from them.  Nothing outside this file looks
inside `add_` or `readBytes`.
-/

namespace Eau2

open Bytes Tape

abbrev SizeT := UInt64

/-- `enum MsgKind`. -/
inductive MsgKind
  | GetData | Put | ReplyData | WaitAndGet | Register | Dir | Done | Teardown
  deriving DecidableEq, Repr

structure Serializer where
  /-- The first `numBytesWritten_` bytes of `buffer_`. -/
  buffer : List UInt8
  numBytesRead : Nat
  capacity : Nat
  deriving DecidableEq, Repr

/-- A computation on the serializer; `none` is a loop that never ends or a read
of bytes nobody wrote. -/
abbrev SerM := StateT Serializer Option

namespace Serializer

def new : Serializer := ⟨[], 0, 1024⟩

/-- `Serializer(size, inp)`. -/
def ofBytes (inp : List UInt8) : Serializer := ⟨inp, 0, inp.length⟩

def numBytesWritten (s : Serializer) : Nat := s.buffer.length

/-- `clear`: the capacity is kept. -/
def clear (s : Serializer) : Serializer := ⟨[], 0, s.capacity⟩

/-! ### Growth -/

def grow_ (s : Serializer) : Serializer := { s with capacity := s.capacity * 2 }

/-- The loop of `add_`, bounded by the first argument: double until `need` bytes
fit. -/
def makeRoom : Nat → Nat → Serializer → Option Serializer
  | 0, need, s => if need ≤ s.capacity then some s else none
  | fuel + 1, need, s => if need ≤ s.capacity then some s else makeRoom fuel need s.grow_

/-- Nothing written or read is outside the buffer, and it can be doubled. -/
structure Sound (s : Serializer) : Prop where
  cap_pos : 0 < s.capacity
  written_le : s.numBytesWritten ≤ s.capacity
  read_le : s.numBytesRead ≤ s.numBytesWritten

theorem sound_new : Sound new := ⟨by decide, by decide, by decide⟩

theorem Sound.clear {s : Serializer} (h : Sound s) : Sound s.clear :=
  ⟨h.cap_pos, Nat.zero_le _, Nat.zero_le _⟩

theorem makeRoom_spec {fuel need : Nat} {s : Serializer} (h : Sound s)
    (hf : need ≤ s.capacity * 2 ^ fuel) : ∃ s', makeRoom fuel need s = some s' ∧ Sound s' ∧
      need ≤ s'.capacity ∧ s'.buffer = s.buffer ∧ s'.numBytesRead = s.numBytesRead := by
  induction fuel generalizing s with
  | zero =>
    have hn : need ≤ s.capacity := by simpa using hf
    exact ⟨s, if_pos hn, h, hn, rfl, rfl⟩
  | succ fuel ih =>
    rw [makeRoom]
    by_cases hn : need ≤ s.capacity
    · exact ⟨s, if_pos hn, h, hn, rfl, rfl⟩
    · have hg : Sound s.grow_ := by
        have := h.cap_pos
        have hw : s.grow_.numBytesWritten = s.numBytesWritten := rfl
        refine ⟨?_, ?_, h.read_le⟩
        · show 0 < s.capacity * 2
          omega
        · show s.numBytesWritten ≤ s.capacity * 2
          have := h.written_le
          omega
      obtain ⟨s', e, hs', hcap, hb, hr⟩ := ih hg (by
        show need ≤ s.capacity * 2 * 2 ^ fuel
        rw [Nat.mul_assoc, ← Nat.pow_succ']
        exact hf)
      exact ⟨s', by rw [if_neg hn, e], hs', hcap, hb, hr⟩

/-! ### The two ends -/

/-- `add_`: append `d`, growing first where it does not fit. -/
def add_ (d : List UInt8) : SerM Unit := fun s =>
  (makeRoom (s.numBytesWritten + d.length) (s.numBytesWritten + d.length) s).map
    fun s => ((), { s with buffer := s.buffer ++ d })

def readBytes (n : Nat) : SerM (List UInt8) := fun s =>
  if n ≤ s.numBytesWritten - s.numBytesRead then
    some ((s.buffer.drop s.numBytesRead).take n, { s with numBytesRead := s.numBytesRead + n })
  else none

instance : Tape Serializer where
  written s := s.buffer
  unread s := s.buffer.drop s.numBytesRead
  Ready := Sound

theorem writes_add_ (d : List UInt8) : Writes (add_ d) d := by
  intro s hs
  have hroom : s.numBytesWritten + d.length ≤
      s.capacity * 2 ^ (s.numBytesWritten + d.length) := by
    have h2 := Nat.lt_two_pow_self (n := s.numBytesWritten + d.length)
    have h1 := Nat.le_mul_of_pos_left (2 ^ (s.numBytesWritten + d.length)) hs.cap_pos
    omega
  obtain ⟨s1, e, h1, hcap, hb, hr⟩ := makeRoom_spec hs hroom
  have hread := hs.read_le
  refine ⟨{ s1 with buffer := s1.buffer ++ d }, ?_, ?_, ?_, ?_⟩
  · rw [add_, e]
    rfl
  · refine ⟨h1.cap_pos, ?_, ?_⟩
    · show (s1.buffer ++ d).length ≤ s1.capacity
      rw [List.length_append, hb]
      exact hcap
    · show s1.numBytesRead ≤ (s1.buffer ++ d).length
      rw [List.length_append, hb, hr]
      exact le_trans hread (Nat.le_add_right _ _)
  · show s1.buffer ++ d = s.buffer ++ d
    rw [hb]
  · show (s1.buffer ++ d).drop s1.numBytesRead = s.buffer.drop s.numBytesRead ++ d
    rw [hb, hr, List.drop_append_of_le_length hread]

theorem reads_readBytes (bs : List UInt8) : Reads (readBytes bs.length) bs bs := by
  intro s rest h
  have hu : s.buffer.drop s.numBytesRead = bs ++ rest := h
  have hl : s.buffer.length - s.numBytesRead = bs.length + rest.length := by
    rw [← List.length_drop, hu, List.length_append]
  have hle : bs.length ≤ s.numBytesWritten - s.numBytesRead := by
    show bs.length ≤ s.buffer.length - s.numBytesRead
    omega
  refine ⟨{ s with numBytesRead := s.numBytesRead + bs.length }, ?_, ?_, rfl, ?_⟩
  · rw [readBytes, if_pos hle, hu, List.take_left]
  · intro hs
    have hr := hs.read_le
    exact ⟨hs.cap_pos, hs.written_le, show s.numBytesRead + bs.length ≤ s.numBytesWritten by omega⟩
  · show s.buffer.drop (s.numBytesRead + bs.length) = rest
    rw [← List.drop_drop, hu, List.drop_left]

/-! ### Numbers -/

/-- `memcpy` of a `w`-byte number into the buffer. -/
def writeLE (w n : Nat) : SerM Unit := add_ (le w n)

/-- `memcpy` of a `w`-byte number out of the buffer. -/
def readLE (w : Nat) : SerM Nat := do
  let bs ← readBytes w
  pure (unle bs)

theorem writes_writeLE (w n : Nat) : Writes (writeLE w n) (le w n) := writes_add_ _

theorem reads_readLE {w n : Nat} (h : n < 256 ^ w) : Reads (readLE w) (le w n) n := by
  have hb := reads_readBytes (le w n)
  rw [le_length] at hb
  refine hb.map ?_
  rw [unle_le h]
  exact Reads.pure n

def writeDouble (d : UInt64) : SerM Unit := writeLE 8 d.toNat
def readDouble : SerM UInt64 := UInt64.ofNat <$> readLE 8

def writeSizeT (s : SizeT) : SerM Unit := writeLE 8 s.toNat
def readSizeT : SerM SizeT := UInt64.ofNat <$> readLE 8

def writeShort (s : UInt16) : SerM Unit := writeLE 2 s.toNat
def readShort : SerM UInt16 := UInt16.ofNat <$> readLE 2

def writeLong (l : UInt64) : SerM Unit := writeLE 8 l.toNat
def readLong : SerM UInt64 := UInt64.ofNat <$> readLE 8

def writeInt (i : Int32) : SerM Unit := writeLE 4 i.toUInt32.toNat
def readInt : SerM Int32 := (fun n => (UInt32.ofNat n).toInt32) <$> readLE 4

def writeChar (c : UInt8) : SerM Unit := writeLE 1 c.toNat
def readChar : SerM UInt8 := UInt8.ofNat <$> readLE 1

def writeBool (b : Bool) : SerM Unit := writeLE 1 b.toNat

/-- A byte other than `0` and `1` is no `bool`. -/
def readBool : SerM Bool := do
  match ← readLE 1 with
  | 0 => pure false
  | 1 => pure true
  | _ => failure

theorem reads_map_readLE {α : Type} {w n : Nat} (h : n < 256 ^ w) {f : Nat → α} {a : α}
    (ha : f n = a) : Reads (f <$> readLE w) (le w n) a := by
  rw [map_eq_pure_bind, ← ha]
  exact (reads_readLE h).map (Reads.pure _)

theorem reads_readDouble (d : UInt64) : Reads readDouble (le 8 d.toNat) d :=
  reads_map_readLE d.toNat_lt (UInt64.ofNat_toNat)

theorem reads_readSizeT (s : SizeT) : Reads readSizeT (le 8 s.toNat) s :=
  reads_map_readLE s.toNat_lt (UInt64.ofNat_toNat)

theorem reads_readShort (s : UInt16) : Reads readShort (le 2 s.toNat) s :=
  reads_map_readLE s.toNat_lt (UInt16.ofNat_toNat)

theorem reads_readLong (l : UInt64) : Reads readLong (le 8 l.toNat) l :=
  reads_map_readLE l.toNat_lt (UInt64.ofNat_toNat)

theorem reads_readInt (i : Int32) : Reads readInt (le 4 i.toUInt32.toNat) i :=
  reads_map_readLE i.toUInt32.toNat_lt (by rw [UInt32.ofNat_toNat]; rfl)

theorem reads_readChar (c : UInt8) : Reads readChar (le 1 c.toNat) c :=
  reads_map_readLE c.toNat_lt (UInt8.ofNat_toNat)

theorem reads_readBool (b : Bool) : Reads readBool (le 1 b.toNat) b := by
  cases b
  · exact (reads_readLE (by decide)).map (Reads.pure false)
  · exact (reads_readLE (by decide)).map (Reads.pure true)

/-! ### Character data -/

/-- `write(const char*)`: up to the first NUL, and the NUL. -/
def writeCStr (str : List UInt8) : SerM Unit := add_ (cstr str ++ [0])

def writeBytes (str : List UInt8) : SerM Unit := add_ str

/-- `readString`: up to the next NUL, which is consumed and not returned. -/
def readString : SerM (List UInt8) := do
  let s ← get
  let bs := (s.buffer.drop s.numBytesRead).takeWhile (· ≠ 0)
  let out ← readBytes (bs.length + 1)
  pure (out.take bs.length)

theorem writes_writeCStr (str : List UInt8) : Writes (writeCStr str) (cstr str ++ [0]) :=
  writes_add_ _

theorem reads_readString {bs : List UInt8} (h : NulFree bs) : Reads readString (bs ++ [0]) bs := by
  intro s rest hs
  have hu : s.buffer.drop s.numBytesRead = bs ++ 0 :: rest := by
    have : s.buffer.drop s.numBytesRead = (bs ++ [0]) ++ rest := hs
    rw [this, List.append_assoc, List.singleton_append]
  have htake : (s.buffer.drop s.numBytesRead).takeWhile (· ≠ 0) = bs := by
    rw [hu, takeWhile_append_zero h]
  obtain ⟨s', e, hr, hw, hu'⟩ := reads_readBytes (bs ++ [0]) s rest hs
  refine ⟨s', ?_, hr, hw, hu'⟩
  show (readBytes (((s.buffer.drop s.numBytesRead).takeWhile (· ≠ 0)).length + 1) s).bind
    (fun p => some (p.1.take ((s.buffer.drop s.numBytesRead).takeWhile (· ≠ 0)).length, p.2)) = _
  rw [List.length_append, List.length_singleton] at e
  rw [htake, e, Option.bind_some, List.take_left]

/-! ### Message kinds -/

/-- The two bytes of `write(MsgKind)`. -/
def kindBytes : MsgKind → List UInt8
  | .GetData => [48, 0]
  | .Put => [49, 0]
  | .ReplyData => [50, 0]
  | .WaitAndGet => [51, 0]
  | .Register => [52, 0]
  | .Dir => [53, 0]
  | .Done => [54, 0]
  | .Teardown => [55, 0]

def writeMsgKind (mk : MsgKind) : SerM Unit := add_ (kindBytes mk)

/-- The `strcmp` ladder of `readMsgKind`; anything unknown is `GetData`. -/
def kindOfBytes (bs : List UInt8) : MsgKind :=
  if bs = [48, 0] then .GetData
  else if bs = [49, 0] then .Put
  else if bs = [50, 0] then .ReplyData
  else if bs = [51, 0] then .WaitAndGet
  else if bs = [52, 0] then .Register
  else if bs = [53, 0] then .Dir
  else if bs = [54, 0] then .Done
  else if bs = [55, 0] then .Teardown
  else .GetData

def readMsgKind : SerM MsgKind := do
  let bs ← readBytes 2
  pure (kindOfBytes bs)

theorem writes_writeMsgKind (mk : MsgKind) : Writes (writeMsgKind mk) (kindBytes mk) :=
  writes_add_ _

theorem reads_readMsgKind (mk : MsgKind) : Reads readMsgKind (kindBytes mk) mk := by
  have hb := reads_readBytes (kindBytes mk)
  have hl : (kindBytes mk).length = 2 := by cases mk <;> rfl
  have hk : kindOfBytes (kindBytes mk) = mk := by cases mk <;> rfl
  rw [hl] at hb
  refine hb.map ?_
  rw [hk]
  exact Reads.pure mk

end Serializer

end Eau2
