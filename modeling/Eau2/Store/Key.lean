import Eau2.Utils.Str

/-!
# Keys and values

`store/key.h` and `store/value.h`.  A key is a string without a NUL and the node
its data lives on; a value is a run of bytes, NULs included.
`Key.reads_deserialize` and `Value.reads_deserialize` are the two halves of
every format that carries one: the value's length must fit the `size_t` it is
written as.

As a map key every `Key` hashes to `1`: the class declares `hash_me_` and
inherits `Object::hash_me`.
-/

namespace Eau2

open Bytes Serializer

structure Key where
  kStr : CStr
  homeNode : SizeT
  deriving DecidableEq, Repr

namespace Key

def getNode (k : Key) : SizeT := k.homeNode

instance : HashKey Key where
  equals k l := CStr.equals k.kStr l.kStr && k.homeNode == l.homeNode
  hash _ := 1

instance : ExactHashKey Key where
  equals_iff := by
    intro k l
    show (HashKey.equals k.kStr l.kStr && k.homeNode == l.homeNode) = true ↔ k = l
    rw [Bool.and_eq_true, ExactHashKey.equals_iff, beq_iff_eq]
    cases k
    cases l
    simp

def serialize (k : Key) : SerM Unit := do
  Str.serialize k.kStr.val
  writeSizeT k.homeNode

def deserialize : SerM Key := do
  let kStr ← CStr.deserialize
  let homeNode ← readSizeT
  pure ⟨kStr, homeNode⟩

def bytes (k : Key) : List UInt8 := Str.bytes k.kStr.val ++ le 8 k.homeNode.toNat

theorem writes_serialize (k : Key) : Writes (serialize k) (bytes k) :=
  (Str.writes_serialize k.kStr.val).bind (writes_writeLE 8 _)

theorem reads_deserialize (k : Key) : Reads deserialize (bytes k) k :=
  (CStr.reads_deserialize k.kStr).bind ((reads_readSizeT k.homeNode).map (Reads.pure k))

/-- The text of `addIndex` and `genKey_` is built piece by piece in one
`StrBuff`. -/
def joinPieces (pieces : List Str) : Option Str := do
  let b ← pieces.foldlM (fun b piece => b.c piece) StrBuff.new
  let (s, _) ← b.get
  pure s

theorem joinPieces_eq (pieces : List Str) : joinPieces pieces = some (pieces.flatMap cstr) := by
  have key : ∀ (ps : List Str) (b : StrBuff), b.Fits →
      ∃ b', ps.foldlM (fun b piece => b.c piece) b = some b' ∧ b'.Fits ∧
        b'.val = b.val ++ ps.flatMap cstr := by
    intro ps
    induction ps with
    | nil => intro b hb; exact ⟨b, rfl, hb, by simp⟩
    | cons p ps ih =>
      intro b hb
      obtain ⟨b1, e1, h1, v1⟩ := StrBuff.c_spec hb p
      obtain ⟨b2, e2, h2, v2⟩ := ih b1 h1
      refine ⟨b2, ?_, h2, ?_⟩
      · rw [List.foldlM_cons, e1]
        exact e2
      · rw [v2, v1, List.flatMap_cons, List.append_assoc]
  obtain ⟨b, e, hb, hv⟩ := key pieces StrBuff.new StrBuff.fits_new
  obtain ⟨b', e', -, -⟩ := StrBuff.get_spec hb
  simp only [joinPieces, e, e', Option.bind_eq_bind, Option.bind_some, hv]
  rfl

def dash : UInt8 := 45

theorem nulFree_flatMap_cstr (pieces : List Str) : NulFree (pieces.flatMap cstr) := by
  intro h
  obtain ⟨p, -, hp⟩ := List.mem_flatMap.mp h
  exact cstr_nulFree p hp

/-- The pieces up to their NULs, glued together. -/
def glue (pieces : List Str) : CStr := ⟨pieces.flatMap cstr, nulFree_flatMap_cstr pieces⟩

/-- `addIndex`: `"{kStr_}-{idx}"` on the same node. -/
def addIndex (k : Key) (idx : Nat) : Option Key := do
  let s ← joinPieces [k.kStr.val, [dash], decimal idx]
  if h : NulFree s then pure ⟨⟨s, h⟩, k.homeNode⟩ else failure

def indexed (k : Key) (idx : Nat) : Key := ⟨glue [k.kStr.val, [dash], decimal idx], k.homeNode⟩

theorem addIndex_eq (k : Key) (idx : Nat) : k.addIndex idx = some (k.indexed idx) := by
  rw [addIndex, joinPieces_eq]
  exact dif_pos (nulFree_flatMap_cstr _)

theorem indexed_kStr (k : Key) (idx : Nat) :
    (k.indexed idx).kStr.val = k.kStr.val ++ dash :: decimal idx := by
  show List.flatMap _ _ = _
  simp only [List.flatMap_cons, List.flatMap_nil, cstr_of_nulFree (decimal_nulFree _),
    cstr_of_nulFree k.kStr.2, List.append_nil]
  rfl

end Key

structure Value where
  val : List UInt8
  deriving DecidableEq, Repr

namespace Value

def getSize (v : Value) : Nat := v.val.length

def serialize (v : Value) : SerM Unit := do
  writeSizeT (UInt64.ofNat v.getSize)
  writeBytes v.val

def deserialize : SerM Value := do
  let capacity ← readSizeT
  let val ← readBytes capacity.toNat
  pure ⟨val⟩

def bytes (v : Value) : List UInt8 := le 8 (UInt64.ofNat v.getSize).toNat ++ v.val

theorem writes_serialize (v : Value) : Writes (serialize v) (bytes v) :=
  (writes_writeLE 8 _).bind (writes_add_ v.val)

theorem reads_deserialize {v : Value} (h : v.getSize < 2 ^ 64) :
    Reads deserialize (bytes v) v := by
  have hlen : (UInt64.ofNat v.getSize).toNat = v.val.length := UInt64.toNat_ofNat_of_lt' h
  refine (reads_readSizeT _).bind ?_
  rw [hlen]
  exact (reads_readBytes v.val).map (Reads.pure v)

/-- `Value(s.getBuffer(), s.getNumBytesWritten())` of a fresh serializer that `m` has
written to. -/
def of (m : SerM Unit) : Option Value := (m Serializer.new).map fun p => ⟨p.2.buffer⟩

/-- What `m` reads from `Serializer(val->getSize(), val->getData())`. -/
def read {α : Type} (m : SerM α) (v : Value) : Option α :=
  (m (Serializer.ofBytes v.val)).map Prod.fst

theorem of_eq {m : SerM Unit} {bs : List UInt8} (h : Writes m bs) : of m = some ⟨bs⟩ := by
  obtain ⟨s, e, -, hw, -⟩ := h Serializer.new Serializer.sound_new
  have hb : s.buffer = [] ++ bs := hw
  rw [of, e, Option.map_some, hb, List.nil_append]

theorem read_eq {α : Type} {m : SerM α} {bs : List UInt8} {a : α} (h : Reads m bs a) :
    read m ⟨bs⟩ = some a := by
  obtain ⟨s, e, -⟩ := h (Serializer.ofBytes bs) [] (List.append_nil bs).symm
  rw [read, e]
  rfl

end Value

end Eau2
