import Eau2.Utils.MapCalls

/-!
# Node addresses

`network/nodeInfo.h`, `network/sizetwrapper.h` and `network/directory.h`: a
directory is a hash map from node id to address.  A directory is rebuilt on the
other side by putting its entries, read in bucket order, into a fresh map of the
same capacity; so its buckets may come back in another order and what survives
is what it answers.  Merging, cloning and serializing go through
`Map::get_keys`, whose index is an `int`: from `2 ^ 31` entries on they fail.

* `NodeInfo.reads_deserialize`: the address goes out as a widened `long` and
  comes back narrowed.
* `Directory.reads_deserialize`: the rebuilt directory answers as the one that
  was written.
* `Directory.get_clone`: so does a clone, which always has four buckets.
-/

namespace Eau2

open Bytes Serializer HashKey

/-- `struct sockaddr_in`, in network byte order. -/
structure NodeInfo where
  sinFamily : UInt16
  sAddr : UInt32
  sinPort : UInt16
  deriving DecidableEq, Repr

namespace NodeInfo

/-- `NodeInfo::serialize`: the address is widened to a `long`. -/
def serialize (i : NodeInfo) : SerM Unit := do
  writeShort i.sinFamily
  writeLong i.sAddr.toUInt64
  writeShort i.sinPort

/-- `NodeInfo::deserialize`: the `long` is narrowed to the address. -/
def deserialize : SerM NodeInfo := do
  let sinFamily ← readShort
  let sAddr ← readLong
  let sinPort ← readShort
  pure ⟨sinFamily, sAddr.toUInt32, sinPort⟩

def bytes (i : NodeInfo) : List UInt8 :=
  le 2 i.sinFamily.toNat ++ (le 8 i.sAddr.toUInt64.toNat ++ le 2 i.sinPort.toNat)

theorem writes_serialize (i : NodeInfo) : Writes (serialize i) (bytes i) :=
  (writes_writeLE 2 _).bind ((writes_writeLE 8 _).bind (writes_writeLE 2 _))

theorem reads_deserialize (i : NodeInfo) : Reads deserialize (bytes i) i := by
  refine (reads_readShort i.sinFamily).bind ((reads_readLong i.sAddr.toUInt64).bind ?_)
  refine (reads_readShort i.sinPort).map ?_
  rw [UInt32.toUInt32_toUInt64]
  exact Reads.pure i

end NodeInfo

/-- `SizeTWrapper`: its hash is `5 * val_`, wrapped. -/
instance : HashKey SizeT where
  equals a b := a == b
  hash a := a + (a <<< 2)

instance : ExactHashKey SizeT where
  equals_iff := beq_iff_eq

structure Directory where
  ips : Map SizeT NodeInfo
  deriving DecidableEq, Repr

namespace Directory

/-- `Directory()`, over a `Map()` of four buckets. -/
def new : Directory := ⟨Map.new 4⟩

def addInfo (d : Directory) (nodeId : SizeT) (newInfo : NodeInfo) : Directory :=
  ⟨(d.ips.put nodeId newInfo).1⟩

/-- `getInfo`; the assertion of the source is the caller's here. -/
def getInfo (d : Directory) (nodeId : SizeT) : Option NodeInfo := d.ips.get nodeId

/-- `getNodes`; no cell of the array may be null, and an `int` counts the cells. -/
def getNodes (d : Directory) : Option (List SizeT) := d.ips.keysArr >>= Map.readArr

def size (d : Directory) : Nat := d.ips.size

def withInfo (d : Directory) (nodes : List SizeT) : Option (List (SizeT × NodeInfo)) :=
  nodes.mapM fun node => (d.getInfo node).map fun i => (node, i)

/-- `mergeIn`; its `int` goes as far as that of `getNodes`. -/
def mergeIn (d other : Directory) : Option Directory :=
  if other.size = 0 then some d
  else do
    let otherNodes ← other.getNodes
    let ps ← other.withInfo otherNodes
    some ⟨d.ips.putAll ps⟩

def clone (d : Directory) : Option Directory := new.mergeIn d

def serialize (d : Directory) : SerM Unit := do
  writeSizeT (UInt64.ofNat d.size)
  writeSizeT (UInt64.ofNat d.ips.capacity)
  let keys ← StateT.lift d.getNodes
  let ps ← StateT.lift (d.withInfo keys)
  ps.forM fun p => do
    writeSizeT p.1
    p.2.serialize

/-- `Directory::deserialize`: an entry put into no buckets is a division by
zero. -/
def deserialize : SerM Directory := do
  let size ← readSizeT
  let capacity ← readSizeT
  let ps ← readTimes (do
    let node ← readSizeT
    let info ← NodeInfo.deserialize
    pure (node, info)) size.toNat
  if ps ≠ [] ∧ capacity = 0 then failure
  else pure ⟨(Map.new capacity.toNat).putAll ps⟩

def Same (d d' : Directory) : Prop := ∀ node, d.getInfo node = d'.getInfo node

/-- What every clone of a directory satisfies: a working map whose capacity fits the `size_t`
it is written as, and whose entries an `int` can count. -/
structure Wf (d : Directory) : Prop where
  valid : d.ips.Valid
  capacity_lt : d.ips.capacity < 2 ^ 64
  size_lt : d.size < 2 ^ 31

/-! ### The entries of a directory -/

section

variable {d : Directory}

theorem getNodes_eq (h : d.ips.Valid) :
    d.getNodes = if d.size < 2 ^ 31 then some d.ips.getKeys else none := by
  have hkeys : d.ips.keysArr =
      if d.size < 2 ^ 31 then some (d.ips.entries.map fun e => some e.1) else none :=
    Map.fillArr_eq Prod.fst h.size_eq
  rw [getNodes, hkeys]
  split
  · exact Map.readArr_map Prod.fst d.ips.entries
  · rfl

theorem withInfo_getKeys (h : d.ips.Valid) : d.withInfo d.ips.getKeys = some d.ips.entries := by
  have hall : ∀ es : List (SizeT × NodeInfo), (∀ e ∈ es, d.getInfo e.1 = some e.2) →
      d.withInfo (es.map Prod.fst) = some es := by
    intro es
    induction es with
    | nil => exact fun _ => rfl
    | cons e es ih =>
      intro hes
      obtain ⟨he, hes⟩ := List.forall_mem_cons.mp hes
      have hrest := ih hes
      rw [withInfo] at hrest ⊢
      rw [List.map_cons, List.mapM_cons, he, hrest]
      rfl
  exact hall _ fun e he => Map.get_of_mem_entries h he

theorem getInfo_of_mem_entries (h : d.ips.Valid) {p : SizeT × NodeInfo} (hp : p ∈ d.ips.entries) :
    d.getInfo p.1 = some p.2 := Map.get_of_mem_entries h hp

/-- **Putting the entries of a directory into a map makes it answer for them.** -/
theorem get_putAll_entries (h : d.ips.Valid) {m : Map SizeT NodeInfo} (hm : 0 < m.capacity)
    (node : SizeT) : (m.putAll d.ips.entries).get node = (d.getInfo node).or (m.get node) := by
  rw [Map.get_putAll hm d.getInfo (fun he => Map.get_eq_of_equals d.ips he)
    fun p hp => getInfo_of_mem_entries h hp]
  by_cases hn : ∃ p ∈ d.ips.entries, equals p.1 node = true
  · obtain ⟨p, hp, he⟩ := hn
    have hg : d.getInfo node = some p.2 := by
      rw [← getInfo_of_mem_entries h hp]
      exact (Map.get_eq_of_equals d.ips he).symm
    rw [if_pos ⟨p, hp, he⟩, hg]
    rfl
  · rw [if_neg hn]
    cases hg : d.getInfo node with
    | none => rfl
    | some i =>
      obtain ⟨k, hk, he⟩ := Map.exists_mem_getKeys hg
      obtain ⟨p, hp, rfl⟩ := List.mem_map.mp hk
      exact absurd ⟨p, hp, he⟩ hn

theorem mergeIn_eq {other : Directory} (ho : other.ips.Valid) :
    d.mergeIn other =
      if other.size < 2 ^ 31 then some ⟨d.ips.putAll other.ips.entries⟩ else none := by
  rw [mergeIn, getNodes_eq ho]
  by_cases hz : other.size = 0
  · have hnil : other.ips.entries = [] :=
      List.eq_nil_of_length_eq_zero (ho.size_eq.symm.trans hz)
    rw [if_pos hz, if_pos (by omega), hnil]
    rfl
  · rw [if_neg hz]
    split
    · rw [Option.bind_eq_bind, Option.bind_some, withInfo_getKeys ho]
      rfl
    · rfl

/-- **Merging a directory in: its addresses win.** -/
theorem getInfo_mergeIn {other : Directory} (hd : 0 < d.ips.capacity) (ho : other.ips.Valid)
    (hlt : other.size < 2 ^ 31) : ∃ d', d.mergeIn other = some d' ∧
      d'.ips.capacity = d.ips.capacity ∧
      ∀ node, d'.getInfo node = (other.getInfo node).or (d.getInfo node) := by
  refine ⟨⟨d.ips.putAll other.ips.entries⟩, ?_, Map.capacity_putAll _ _, get_putAll_entries ho hd⟩
  rw [mergeIn_eq ho, if_pos hlt]

theorem mergeIn_none {other : Directory} (ho : other.ips.Valid) (hle : ¬ other.size < 2 ^ 31) :
    d.mergeIn other = none := by rw [mergeIn_eq ho, if_neg hle]

end

theorem valid_new : new.ips.Valid := Map.valid_new (by decide)

theorem getInfo_addInfo {d : Directory} (h : d.ips.Valid) (nodeId : SizeT) (info : NodeInfo)
    (node : SizeT) : (d.addInfo nodeId info).getInfo node =
      if nodeId = node then some info else d.getInfo node := by
  rw [getInfo, addInfo, Map.get_put h.cap_pos, getInfo]
  simp only [ExactHashKey.equals_iff]

theorem size_addInfo {d : Directory} {nodeId : SizeT} (h : d.getInfo nodeId = none)
    (info : NodeInfo) : (d.addInfo nodeId info).size = d.size + 1 := by
  have hold : (Map.insertIntoBucket (d.ips.bucket (d.ips.index nodeId)) nodeId info).2 = none := by
    rw [Map.insertIntoBucket_snd]
    exact h
  show (if _ then _ else _) = _
  rw [hold]
  rfl

theorem mem_getKeys {d : Directory} (h : d.ips.Valid) {node : SizeT} :
    node ∈ d.ips.getKeys ↔ (d.getInfo node).isSome := by
  constructor
  · exact Map.isSome_get_of_mem_getKeys h
  · intro hs
    obtain ⟨info, hi⟩ := Option.isSome_iff_exists.mp hs
    obtain ⟨k, hk, he⟩ := Map.exists_mem_getKeys hi
    rwa [← ExactHashKey.equals_iff.mp he]

/-- **The size of a directory is the number of nodes it answers for.** -/
theorem size_eq_of_mem {d : Directory} (h : d.ips.Valid) {nodes : List SizeT}
    (hnodup : nodes.Nodup) (hmem : ∀ node, (d.getInfo node).isSome ↔ node ∈ nodes) :
    d.size = nodes.length := by
  have hkeys : d.ips.getKeys.Nodup := by
    rw [Map.getKeys, List.Nodup, List.pairwise_map]
    exact h.distinct_entries.imp fun hne he => hne (ExactHashKey.equals_iff.mpr he)
  have hperm : d.ips.getKeys.Perm nodes := by
    refine (List.perm_ext_iff_of_nodup hkeys hnodup).mpr fun node => ?_
    rw [← hmem, mem_getKeys h]
  rw [size, h.size_eq, ← hperm.length_eq]
  exact (List.length_map _).symm

theorem wf_mergeIn {d other d' : Directory} (hd : d.ips.Valid) (ho : other.ips.Valid)
    (h : d.mergeIn other = some d') : d'.ips.Valid ∧ d'.size ≤ d.size + other.size := by
  rw [mergeIn_eq ho] at h
  obtain ⟨-, he⟩ := Option.ite_none_right_eq_some.mp h
  cases he
  refine ⟨hd.putAll _, ?_⟩
  rw [size, size, size, ho.size_eq]
  exact Map.size_putAll_le d.ips other.ips.entries

/-- **A clone answers as the original does, from four buckets**, and is as large. -/
theorem get_clone {d : Directory} (h : d.ips.Valid) (hlt : d.size < 2 ^ 31) :
    ∃ d', d.clone = some d' ∧ Wf d' ∧ Same d' d := by
  obtain ⟨d', e, hcap, hg⟩ := getInfo_mergeIn valid_new.cap_pos h hlt
  obtain ⟨hv, hs⟩ := wf_mergeIn valid_new h e
  have h4 : d'.ips.capacity = 4 := hcap.trans (Map.capacity_new 4)
  refine ⟨d', e, ⟨hv, by rw [h4]; decide, ?_⟩, ?_⟩
  · rw [show new.size = 0 from rfl, Nat.zero_add] at hs
    omega
  · intro node
    rw [hg node, show new.getInfo node = none from Map.get_new 4 node, Option.or_none]

theorem clone_none {d : Directory} (h : d.ips.Valid) (hle : ¬ d.size < 2 ^ 31) :
    d.clone = none := mergeIn_none h hle

theorem Same.size_eq {d d' : Directory} (hs : Same d' d) (h' : d'.ips.Valid) (h : d.ips.Valid) :
    d'.size = d.size := by
  have hnodup : d.ips.getKeys.Nodup := by
    rw [Map.getKeys, List.Nodup, List.pairwise_map]
    exact h.distinct_entries.imp fun hne he => hne (ExactHashKey.equals_iff.mpr he)
  rw [size_eq_of_mem h' hnodup fun node => ?_, size_eq_of_mem h hnodup fun node => ?_]
  · rw [mem_getKeys h]
  · rw [hs node, mem_getKeys h]

/-! ### The format -/

def bytes (d : Directory) : List UInt8 :=
  le 8 (UInt64.ofNat d.size).toNat ++ (le 8 (UInt64.ofNat d.ips.capacity).toNat ++
    d.ips.entries.flatMap fun p => le 8 p.1.toNat ++ p.2.bytes)

theorem length_bytes {d : Directory} (h : d.ips.Valid) : d.bytes.length = 16 + 20 * d.size := by
  have hentry : ∀ p : SizeT × NodeInfo, (le 8 p.1.toNat ++ p.2.bytes).length = 20 := by
    intro p
    simp only [NodeInfo.bytes, List.length_append, le_length]
  have hentries : ∀ ps : List (SizeT × NodeInfo),
      (ps.flatMap fun p => le 8 p.1.toNat ++ p.2.bytes).length = 20 * ps.length := by
    intro ps
    induction ps with
    | nil => rfl
    | cons p ps ih =>
      rw [List.flatMap_cons, List.length_append, hentry, ih, List.length_cons]
      omega
  rw [bytes, List.length_append, List.length_append, le_length, le_length, hentries, size,
    h.size_eq]
  omega

theorem lift_some {α β : Type} (a : α) (k : α → SerM β) :
    (StateT.lift (some a) >>= k : SerM β) = k a := rfl

theorem writes_serialize {d : Directory} (h : d.Wf) : Writes (serialize d) (bytes d) := by
  have hforM := Writes.forM (σ := Serializer)
    (f := fun p : SizeT × NodeInfo => (do writeSizeT p.1; p.2.serialize : SerM Unit))
    d.ips.entries fun p _ => (writes_writeLE 8 p.1.toNat).bind (NodeInfo.writes_serialize p.2)
  rw [bytes, serialize, getNodes_eq h.valid, if_pos h.size_lt]
  refine (writes_writeLE 8 _).bind ((writes_writeLE 8 _).bind ?_)
  rw [lift_some, withInfo_getKeys h.valid, lift_some]
  exact hforM

theorem bind_none {α β : Type} {m : SerM α} {k : α → SerM β} (h : ∀ a s, k a s = none)
    (s : Serializer) : (m >>= k) s = none := by
  show (m s).bind (fun p => k p.1 p.2) = none
  cases m s with
  | none => rfl
  | some p => exact h p.1 p.2

theorem serialize_none {d : Directory} (h : d.ips.Valid) (hle : ¬ d.size < 2 ^ 31)
    (s : Serializer) : serialize d s = none := by
  rw [serialize, getNodes_eq h, if_neg hle]
  exact bind_none (fun _ s => bind_none (fun _ _ => rfl) s) s

theorem reads_deserialize_capacity {d : Directory} (h : d.Wf) :
    ∃ d', Reads deserialize (bytes d) d' ∧ Same d' d ∧ d'.ips.Valid ∧
      d'.ips.capacity = d.ips.capacity := by
  have hlt := h.size_lt
  have hsize : (UInt64.ofNat d.size).toNat = d.ips.entries.length :=
    (UInt64.toNat_ofNat_of_lt' (show d.size < 2 ^ 64 by omega)).trans h.valid.size_eq
  have hcap : (UInt64.ofNat d.ips.capacity).toNat = d.ips.capacity :=
    UInt64.toNat_ofNat_of_lt' h.capacity_lt
  have hps := Reads.readTimes (m := (do
      let node ← readSizeT
      let info ← NodeInfo.deserialize
      pure (node, info) : SerM (SizeT × NodeInfo)))
    (g := id) (fun p : SizeT × NodeInfo => le 8 p.1.toNat ++ p.2.bytes) d.ips.entries
    fun p _ => (reads_readSizeT p.1).bind ((NodeInfo.reads_deserialize p.2).map (Reads.pure p))
  rw [List.map_id] at hps
  have hnz : ¬ (d.ips.entries ≠ [] ∧ UInt64.ofNat d.ips.capacity = 0) := by
    rintro ⟨-, hz⟩
    have := h.valid.cap_pos
    rw [hz] at hcap
    exact absurd hcap (by simp; omega)
  refine ⟨⟨(Map.new d.ips.capacity).putAll d.ips.entries⟩, ?_, fun node => ?_,
    (Map.valid_new h.valid.cap_pos).putAll _,
    (Map.capacity_putAll _ _).trans (Map.capacity_new _)⟩
  · rw [bytes]
    refine (reads_readSizeT _).bind ((reads_readSizeT _).bind ?_)
    rw [hsize, hcap]
    refine hps.map ?_
    rw [if_neg hnz]
    exact Reads.pure _
  · have hcapn : 0 < (Map.new d.ips.capacity : Map SizeT NodeInfo).capacity := by
      rw [Map.capacity_new]
      exact h.valid.cap_pos
    have hget := get_putAll_entries h.valid hcapn node
    rwa [Map.get_new, Option.or_none] at hget

theorem reads_deserialize_valid {d : Directory} (h : d.Wf) :
    ∃ d', Reads deserialize (bytes d) d' ∧ Same d' d ∧ d'.ips.Valid := by
  obtain ⟨d', hr, hs, hv, -⟩ := reads_deserialize_capacity h
  exact ⟨d', hr, hs, hv⟩

/-- **The rebuilt directory answers as the one that was written.** -/
theorem reads_deserialize {d : Directory} (h : d.Wf) :
    ∃ d', Reads deserialize (bytes d) d' ∧ Same d' d := by
  obtain ⟨d', hr, hs, -⟩ := reads_deserialize_valid h
  exact ⟨d', hr, hs⟩

end Directory

end Eau2
