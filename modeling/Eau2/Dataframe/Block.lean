import Eau2.Dataframe.Cell

/-!
# Blocks

`dataframe/block`.  The four kinds of blocks are one definition over the type of their
elements, which is what a `dynamic_cast` asks for.  `capacity_` is kept next to the
elements; `add` leaves a full block as it is.  A block that holds no more than its
capacity, all of its type, is written as `Block.bytes` and read back
(`Block.reads_deserialize`), whatever block it is read into.
-/

namespace Eau2

open Bytes Serializer

/-- The arguments that the dataframes depend on, shared by all nodes. -/
structure Args where
  numNodes : SizeT
  blockSize : SizeT
  deriving DecidableEq, Repr

theorem toNat_pos {n : SizeT} (h : n ≠ 0) : 0 < n.toNat := by
  rw [Nat.pos_iff_ne_zero]
  exact fun h0 => h (UInt64.toNat_inj.mp h0)

structure Block where
  type : DataType
  capacity : SizeT
  /-- The first `size_` elements of `vals_`. -/
  vals : List Cell
  deriving DecidableEq, Repr

namespace Block

def size (b : Block) : Nat := b.vals.length

def new (args : Args) (t : DataType) : Block := ⟨t, args.blockSize, []⟩

def intBlock (args : Args) : Block := new args .Integer
def boolBlock (args : Args) : Block := new args .Boolean
def doubleBlock (args : Args) : Block := new args .Double
def stringBlock (args : Args) : Block := new args .Str

/-- `add`; what does not fit is dropped. -/
def add (b : Block) (n : Cell) : Block :=
  if b.capacity.toNat ≤ b.size then b else { b with vals := b.vals ++ [n] }

def get (b : Block) (index : Nat) : Option Cell := b.vals[index]?

def clear (b : Block) : Block := { b with vals := [] }

def serialize (b : Block) : SerM Unit := do
  writeSizeT b.capacity
  writeSizeT (UInt64.ofNat b.size)
  b.vals.forM Cell.serialize

/-- `deserialize` of a block of type `t`; more elements than the capacity would be
written behind the end of `vals_`. -/
def deserialize (t : DataType) : SerM Block := do
  let capacity ← readSizeT
  let size ← readSizeT
  if size ≤ capacity then
    let vals ← readTimes (Cell.readCell t) size.toNat
    pure ⟨t, capacity, vals⟩
  else failure

/-- `deserialize` into a block, of which its class is left. -/
def load (old : Block) : SerM Block := do
  let capacity ← readSizeT
  let size ← readSizeT
  if size ≤ capacity then
    let vals ← readTimes (Cell.readCell old.type) size.toNat
    pure { old with capacity := capacity, vals := vals }
  else failure

/-- The elements fit and have the block's type. -/
structure Ok (b : Block) : Prop where
  fits : b.size ≤ b.capacity.toNat
  typed : ∀ c ∈ b.vals, c.type = b.type

theorem foldl_add {b : Block} (cs : List Cell) (h : b.size + cs.length ≤ b.capacity.toNat) :
    cs.foldl add b = { b with vals := b.vals ++ cs } := by
  induction cs generalizing b with
  | nil => rw [List.foldl_nil, List.append_nil]
  | cons c cs ih =>
    rw [List.length_cons] at h
    have hadd : b.add c = { b with vals := b.vals ++ [c] } := if_neg (by omega)
    rw [List.foldl_cons, hadd, ih, List.append_assoc, List.singleton_append]
    show (b.vals ++ [c]).length + cs.length ≤ b.capacity.toNat
    rw [List.length_append, List.length_singleton]
    show b.size + 1 + cs.length ≤ b.capacity.toNat
    omega

def bytes (b : Block) : List UInt8 :=
  le 8 b.capacity.toNat ++ (le 8 (UInt64.ofNat b.size).toNat ++ b.vals.flatMap Cell.bytes)

theorem writes_serialize (b : Block) : Writes (serialize b) (bytes b) :=
  (writes_writeLE 8 _).bind ((writes_writeLE 8 _).bind
    (Writes.forM b.vals fun c _ => c.writes_serialize))

/-- **A block comes back from its bytes.** -/
theorem reads_deserialize {b : Block} (h : Ok b) : Reads (deserialize b.type) (bytes b) b := by
  refine (reads_readSizeT _).bind ((reads_readSizeT _).bind ?_)
  have hsize : (UInt64.ofNat b.size).toNat = b.vals.length :=
    UInt64.toNat_ofNat_of_lt' (Nat.lt_of_le_of_lt h.fits b.capacity.toNat_lt)
  rw [if_pos (UInt64.le_iff_toNat_le.mpr (by rw [hsize]; exact h.fits)), hsize]
  have hread := Reads.readTimes (m := Cell.readCell b.type) (g := id) _ b.vals fun c hc => by
    rw [← h.typed c hc]
    exact c.reads_readCell
  rw [List.map_id] at hread
  exact hread.map (Reads.pure b)

theorem reads_load {b old : Block} (h : Ok b) (ht : old.type = b.type) :
    Reads (load old) (bytes b) b := by
  have hload : load old = deserialize old.type := rfl
  rw [hload, ht]
  exact reads_deserialize h

end Block

end Eau2
