import Eau2.Serial.RawSerializer

/-!
# Items on the wire

What the `write` overloads and the read functions of `serial/serial.h` do, each over the
bytes of its type: a list of items is written, item by item, and read back by the kinds
of its items.

* `round_trip`: **the buffer is the items' bytes, and they are read back**, however often
  the array grew.
-/

namespace Eau2

open Bytes Tape

inductive Kind
  | double | sizeT | char | short | long | int | bool | msgKind | string
  /-- `readCharPtr(n)` -/
  | bytes (n : Nat)
  deriving DecidableEq, Repr

/-- What can be written; a double, a `short` and a `long` are their bits. -/
inductive Item
  | double (d : UInt64)
  | sizeT (s : SizeT)
  | char (c : UInt8)
  | short (s : UInt16)
  | long (l : UInt64)
  | int (i : Int32)
  | bool (b : Bool)
  | msgKind (k : MsgKind)
  /-- `write(const char*)` -/
  | string (s : { s : List UInt8 // NulFree s })
  /-- `write(size_t, const char*)` -/
  | bytes (bs : List UInt8)
  deriving DecidableEq

namespace Item

def kind : Item → Kind
  | .double _ => .double
  | .sizeT _ => .sizeT
  | .char _ => .char
  | .short _ => .short
  | .long _ => .long
  | .int _ => .int
  | .bool _ => .bool
  | .msgKind _ => .msgKind
  | .string _ => .string
  | .bytes bs => .bytes bs.length

def encode : Item → List UInt8
  | .double d => le 8 d.toNat
  | .sizeT s => le 8 s.toNat
  | .char c => le 1 c.toNat
  | .short s => le 2 s.toNat
  | .long l => le 8 l.toNat
  | .int i => le 4 i.toUInt32.toNat
  | .bool b => le 1 b.toNat
  | .msgKind k => Serializer.kindBytes k
  | .string s => cstr s.val ++ [0]
  | .bytes bs => bs

def write (mem : Uninit) (x : Item) : RawSerializer.RawM Unit := RawSerializer.add_ mem x.encode

end Item

namespace Kind

open RawSerializer

/-- A number of `w` bytes is copied out. -/
def readLE (w : Nat) : RawM Nat := unle <$> readCharPtr w

/-- `readDouble` to `readString`, and `readCharPtr` -/
def read : Kind → RawM Item
  | .double => (fun n => .double (UInt64.ofNat n)) <$> readLE 8
  | .sizeT => (fun n => .sizeT (UInt64.ofNat n)) <$> readLE 8
  | .char => (fun n => .char (UInt8.ofNat n)) <$> readLE 1
  | .short => (fun n => .short (UInt16.ofNat n)) <$> readLE 2
  | .long => (fun n => .long (UInt64.ofNat n)) <$> readLE 8
  | .int => (fun n => .int (UInt32.ofNat n).toInt32) <$> readLE 4
  | .bool => do
    match ← readLE 1 with
    | 0 => pure (.bool false)
    | 1 => pure (.bool true)
    | _ => failure
  | .msgKind => (fun bs => .msgKind (Serializer.kindOfBytes bs)) <$> readCharPtr 2
  | .string => do
    let s ← RawSerializer.readString
    if h : NulFree s then pure (.string ⟨s, h⟩) else failure
  | .bytes n => .bytes <$> readCharPtr n

theorem reads_readLE {w n : Nat} (h : n < 256 ^ w) : Reads (readLE w) (le w n) n := by
  have hread := reads_readCharPtr (le w n)
  rw [le_length] at hread
  rw [readLE, map_eq_pure_bind]
  refine hread.map ?_
  rw [unle_le h]
  exact Reads.pure n

theorem reads_number {w n : Nat} (h : n < 256 ^ w) {f : Nat → Item} {x : Item} (hx : f n = x) :
    Reads (f <$> readLE w) (le w n) x := by
  rw [map_eq_pure_bind, ← hx]
  exact (reads_readLE h).map (Reads.pure _)

/-- **An item is read back as it was written.** -/
theorem reads_read (x : Item) : Reads x.kind.read x.encode x := by
  cases x with
  | double d => exact reads_number d.toNat_lt (congrArg Item.double UInt64.ofNat_toNat)
  | sizeT s => exact reads_number s.toNat_lt (congrArg Item.sizeT UInt64.ofNat_toNat)
  | char c => exact reads_number c.toNat_lt (congrArg Item.char UInt8.ofNat_toNat)
  | short s => exact reads_number s.toNat_lt (congrArg Item.short UInt16.ofNat_toNat)
  | long l => exact reads_number l.toNat_lt (congrArg Item.long UInt64.ofNat_toNat)
  | int i =>
    refine reads_number i.toUInt32.toNat_lt (congrArg Item.int ?_)
    rw [UInt32.ofNat_toNat]
    rfl
  | bool b =>
    cases b
    · exact (reads_readLE (by decide)).map (Reads.pure _)
    · exact (reads_readLE (by decide)).map (Reads.pure _)
  | msgKind k =>
    have hread := reads_readCharPtr (Serializer.kindBytes k)
    have hlen : (Serializer.kindBytes k).length = 2 := by cases k <;> rfl
    have hkind : Serializer.kindOfBytes (Serializer.kindBytes k) = k := by cases k <;> rfl
    rw [hlen] at hread
    show Reads ((fun bs => Item.msgKind (Serializer.kindOfBytes bs)) <$> readCharPtr 2) _ _
    rw [map_eq_pure_bind]
    refine hread.map ?_
    rw [hkind]
    exact Reads.pure _
  | string s =>
    have hread := reads_readString s.2
    rw [show (Item.string s).encode = s.val ++ [0] from congrArg (· ++ [0]) (cstr_of_nulFree s.2)]
    refine hread.map ?_
    rw [dif_pos s.2]
    exact Reads.pure _
  | bytes bs =>
    show Reads (Item.bytes <$> readCharPtr bs.length) _ _
    rw [map_eq_pure_bind]
    exact (reads_readCharPtr bs).map (Reads.pure _)

end Kind

namespace Item

open RawSerializer

/-- **Whatever is written is in the buffer, and is read back.** -/
theorem round_trip (mem : Uninit) (items : List Item) : ∃ b,
    items.forM (write mem) RawSerializer.new = some ((), b) ∧
    b.buffer.take b.numBytesWritten = items.flatMap encode ∧
    b.numBytesWritten = (items.flatMap encode).length ∧
    ∃ b', (items.map kind).mapM Kind.read b = some (items, b') ∧
      b'.numBytesRead = b'.numBytesWritten ∧ b'.numBytesWritten = b.numBytesWritten := by
  have hwrites : Writes (items.forM (write mem)) (items.flatMap encode) :=
    Writes.forM items fun x _ => writes_add_ mem x.encode
  obtain ⟨b, hb, hsound, hwritten, hunread⟩ := hwrites RawSerializer.new sound_new
  have hbuffer : b.buffer.take b.numBytesWritten = items.flatMap encode := hwritten
  have hreads := Reads.mapM items fun x _ => Kind.reads_read x
  obtain ⟨b', hb', hsound', hwritten', hunread'⟩ := hreads b [] (by
    rw [hunread, List.append_nil]
    rfl)
  have hlen : ∀ {b : RawSerializer}, Sound b →
      (b.buffer.take b.numBytesWritten).length = b.numBytesWritten := by
    intro b hb
    have hle := hb.written_le
    rw [List.length_take, hb.length_eq]
    omega
  have hnum : b.numBytesWritten = (items.flatMap encode).length := by
    rw [← hbuffer, hlen hsound]
  have hnum' : b'.numBytesWritten = b.numBytesWritten := by
    rw [← hlen hsound, ← hlen (hsound' hsound)]
    exact congrArg List.length hwritten'
  refine ⟨b, hb, hbuffer, hnum, b', hb', ?_, hnum'⟩
  have hall : (b'.buffer.take b'.numBytesWritten).drop b'.numBytesRead = [] := hunread'
  rw [List.drop_eq_nil_iff, hlen (hsound' hsound)] at hall
  exact Nat.le_antisymm (hsound' hsound).read_le hall

end Item

end Eau2
