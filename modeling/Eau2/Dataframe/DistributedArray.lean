import Eau2.Base.Fifo
import Eau2.Dataframe.Block
import Mathlib.Data.List.Nodup

/-!
# The block cache and distributed arrays

`dataframe/column/cache.h`, `keyarr.h` and `distributedarray.h`.  A distributed array
is a list of keys and a cache of the blocks stored under some of them.  The cache holds
at most `maxSize_` blocks and gives up the one it has held longest; its two assertions
compare `data_` with `keyOrder_`.

A read goes through the cache.  What `getValue(k, true)` returns while the store does
not change is a function of the key (`Store`), and a cache is `Coherent` with it when
every block in it is the block decoded from the store.  `getItem_spec`: a read of a
coherent cache succeeds, returns what an uncached read would, and leaves the cache
coherent.
-/

namespace Eau2

open Serializer

/-- What `getValue(k, true)` returns; `none` where it would wait for ever. -/
abbrev Store := Key → Option Value

structure Cache where
  maxSize : Nat
  data : Table Key Block
  keyOrder : List Key

namespace Cache

def new : Cache := ⟨15, Table.new, []⟩

def containsKey (c : Cache) (k : Key) : Bool := c.data.containsKey k

def getBlock (c : Cache) (k : Key) : Option Block := c.data.get k

def isFull_ (c : Cache) : Bool := c.maxSize ≤ c.data.size

def removeFirstAddedElement_ (c : Cache) : Option Cache :=
  match c.keyOrder with
  | [] => some c
  | k :: keyOrder =>
    match c.data.remove k with
    | none => none
    | some (_, data) =>
      if data.size = keyOrder.length then some ⟨c.maxSize, data, keyOrder⟩ else none

def makeRoom (c : Cache) : Option Cache :=
  if c.isFull_ then c.removeFirstAddedElement_ else some c

def put (c : Cache) (k : Key) (val : Block) : Option Cache := do
  let c ← c.makeRoom
  let data := c.data.put k val
  let keyOrder := c.keyOrder ++ [k]
  if data.size = keyOrder.length then some ⟨c.maxSize, data, keyOrder⟩ else none

/-- **`keyOrder_` lists the keys of `data_`, each once, and there are never more than
`maxSize_`.** -/
structure Ok (c : Cache) : Prop where
  keys : ∀ k, (c.data.get k).isSome ↔ k ∈ c.keyOrder
  nodup : c.keyOrder.Nodup
  size : c.data.size = c.keyOrder.length
  pos : 0 < c.maxSize
  le : c.data.size ≤ c.maxSize

theorem ok_new : Ok new where
  keys k := by simp [new]
  nodup := List.nodup_nil
  size := rfl
  pos := by decide
  le := by decide

theorem removeFirstAddedElement_spec {c : Cache} (h : Ok c) (hfull : c.isFull_ = true) :
    ∃ c', c.removeFirstAddedElement_ = some c' ∧ Ok c' ∧ c'.maxSize = c.maxSize ∧
      c'.data.size < c'.maxSize ∧ c'.keyOrder = c.keyOrder.tail ∧
      ∀ k b, c'.data.get k = some b → c.data.get k = some b := by
  have hpos := h.pos
  have hle : c.maxSize ≤ c.data.size := by simpa [isFull_] using hfull
  rw [removeFirstAddedElement_]
  cases hk : c.keyOrder with
  | nil =>
    have := h.size
    rw [hk, List.length_nil] at this
    omega
  | cons k rest =>
    have hmem : (c.data.get k).isSome := (h.keys k).mpr (by rw [hk]; exact List.mem_cons_self)
    cases hr : c.data.remove k with
    | none =>
      rw [Table.remove_eq_none.mp hr] at hmem
      cases hmem
    | some p =>
      obtain ⟨b, data⟩ := p
      have hget := (Table.remove_eq_some hr).2
      have hsize := Table.size_remove hr
      have hlen : data.size = rest.length := by
        have := h.size
        rw [hk, List.length_cons] at this
        omega
      have hnodup := h.nodup
      rw [hk, List.nodup_cons] at hnodup
      have hmax := h.le
      refine ⟨⟨c.maxSize, data, rest⟩, ?_, ?_, rfl, ?_, rfl, ?_⟩
      · show (match c.data.remove k with
          | none => none
          | some (_, data) =>
            if data.size = rest.length then some (Cache.mk c.maxSize data rest) else none) = _
        rw [hr]
        exact if_pos hlen
      · refine ⟨?_, hnodup.2, hlen, hpos, ?_⟩
        · intro k'
          show (data.get k').isSome ↔ k' ∈ rest
          rw [hget]
          split
          · rename_i he
            subst he
            simp [hnodup.1]
          · rename_i hne
            rw [h.keys, hk, List.mem_cons]
            exact or_iff_right (Ne.symm hne)
        · show data.size ≤ c.maxSize
          omega
      · show data.size < c.maxSize
        omega
      · intro k' b' hb
        replace hb : data.get k' = some b' := hb
        rw [hget] at hb
        split at hb
        · cases hb
        · exact hb

theorem makeRoom_spec {c : Cache} (h : Ok c) : ∃ c', c.makeRoom = some c' ∧ Ok c' ∧
    c'.maxSize = c.maxSize ∧ c'.data.size < c'.maxSize ∧
    c'.keyOrder = (if c.maxSize ≤ c.keyOrder.length then c.keyOrder.tail else c.keyOrder) ∧
    ∀ k b, c'.data.get k = some b → c.data.get k = some b := by
  rw [makeRoom, ← h.size]
  cases hf : c.isFull_ with
  | true =>
    obtain ⟨c', he, h', hmax, hroom, horder, hkept⟩ := removeFirstAddedElement_spec h hf
    refine ⟨c', he, h', hmax, hroom, ?_, hkept⟩
    rw [horder, if_pos (by simpa [isFull_] using hf)]
  | false =>
    have hroom : c.data.size < c.maxSize := by simpa [isFull_] using hf
    refine ⟨c, rfl, h, rfl, hroom, ?_, fun _ _ hb => hb⟩
    rw [if_neg (Nat.not_le.mpr hroom)]

/-- **A new block goes in, at the back of the queue, and nothing else comes in with
it.** -/
theorem put_spec {c : Cache} (h : Ok c) {k : Key} (hk : c.data.get k = none) (val : Block) :
    ∃ c', c.put k val = some c' ∧ Ok c' ∧ c'.data.get k = some val ∧ c'.maxSize = c.maxSize ∧
      c'.keyOrder = Fifo.access c.maxSize c.keyOrder k ∧
      ∀ k' b, c'.data.get k' = some b → k' = k ∧ b = val ∨ c.data.get k' = some b := by
  -- the cache after the eviction has room, and still no block under `k`
  obtain ⟨c₁, he, h₁, hmax, hroom, horder, hkept⟩ := makeRoom_spec h
  have hk₁ : c₁.data.get k = none := by
    cases hg : c₁.data.get k with
    | none => rfl
    | some b =>
      rw [hkept k b hg] at hk
      cases hk
  have hsize := Table.size_put hk₁ val
  have hlen : (c₁.data.put k val).size = (c₁.keyOrder ++ [k]).length := by
    rw [hsize, h₁.size, List.length_append]
    rfl
  refine ⟨⟨c₁.maxSize, c₁.data.put k val, c₁.keyOrder ++ [k]⟩, ?_, ?_, ?_, hmax, ?_, ?_⟩
  · rw [put, he]
    exact if_pos hlen
  · refine ⟨?_, ?_, hlen, h₁.pos, ?_⟩
    · intro k'
      show ((c₁.data.put k val).get k').isSome ↔ k' ∈ c₁.keyOrder ++ [k]
      rw [Table.get_put, List.mem_append, List.mem_singleton]
      split
      · rename_i hkk
        simp [hkk]
      · rename_i hkk
        rw [h₁.keys]
        exact (or_iff_left (Ne.symm hkk)).symm
    · refine List.nodup_append.mpr ⟨h₁.nodup, List.nodup_singleton k, ?_⟩
      intro k' hk' k'' hk'' hne
      rw [List.mem_singleton.mp hk''] at hne
      rw [hne, ← h₁.keys, hk₁] at hk'
      cases hk'
    · show (c₁.data.put k val).size ≤ c₁.maxSize
      omega
  · show (c₁.data.put k val).get k = some val
    rw [Table.get_put, if_pos rfl]
  · have hmem : k ∉ c.keyOrder := by
      rw [← h.keys, hk]
      exact Bool.false_ne_true
    show c₁.keyOrder ++ [k] = _
    rw [Fifo.access, if_neg hmem, horder]
  · intro k' b hb
    replace hb : (c₁.data.put k val).get k' = some b := hb
    rw [Table.get_put] at hb
    split at hb
    · rename_i hkk
      exact Or.inl ⟨hkk.symm, (Option.some.inj hb).symm⟩
    · exact Or.inr (hkept k' b hb)

end Cache

structure DistributedArray where
  keyList : List Key
  cache : Cache

namespace DistributedArray

def new : DistributedArray := ⟨[], Cache.new⟩

def addKey (da : DistributedArray) (k : Key) : DistributedArray :=
  { da with keyList := da.keyList ++ [k] }

def length (da : DistributedArray) : Nat := da.keyList.length

def serialize (da : DistributedArray) : SerM Unit := do
  writeSizeT (UInt64.ofNat da.length)
  da.keyList.forM Key.serialize

/-- `KeyArr::deserialize`, into a distributed array that has read nothing yet. -/
def deserialize : SerM DistributedArray := do
  let len ← readSizeT
  let keyList ← readTimes Key.deserialize len.toNat
  pure ⟨keyList, Cache.new⟩

/-- The block stored under `k`, decoded: `getIntBlockFromStore_` and its three
siblings. -/
def getBlockFromStore_ (store : Store) (t : DataType) (k : Key) : Option Block := do
  let val ← store k
  val.read (Block.deserialize t)

def fetch (store : Store) (t : DataType) (k : Key) (da : DistributedArray) :
    Option DistributedArray :=
  if da.cache.containsKey k then some da
  else do
    let val ← getBlockFromStore_ store t k
    let cache ← da.cache.put k val
    pure { da with cache := cache }

/-- `getInt`, `getBool`, `getDouble` and `getString`, through the cache.  A block of
another type under `k` fails the cast and exits. -/
def getItem (store : Store) (t : DataType) (k : Key) (itemIdx : Nat) (da : DistributedArray) :
    Option (Cell × DistributedArray) := do
  let da ← da.fetch store t k
  let block ← da.cache.getBlock k
  if block.type = t then
    let cell ← block.get itemIdx
    pure (cell, da)
  else none

/-- Every cached block is the one that is stored. -/
structure Coherent (store : Store) (t : DataType) (da : DistributedArray) : Prop where
  ok : da.cache.Ok
  stored : ∀ k b, da.cache.data.get k = some b → getBlockFromStore_ store t k = some b

theorem coherent_of_new (store : Store) (t : DataType) (keys : List Key) :
    Coherent store t ⟨keys, Cache.new⟩ :=
  ⟨Cache.ok_new, fun k b h => by simp [Cache.new] at h⟩

/-- `Coherent` for an array whose keys hold blocks of different types. -/
structure CoherentAt (store : Store) (ty : Key → DataType) (da : DistributedArray) : Prop where
  ok : da.cache.Ok
  stored : ∀ k b, da.cache.data.get k = some b → getBlockFromStore_ store (ty k) k = some b

theorem fetch_spec {store : Store} {ty : Key → DataType} {da : DistributedArray}
    (h : CoherentAt store ty da) {k : Key} {b : Block}
    (hb : getBlockFromStore_ store (ty k) k = some b) :
    ∃ da', fetch store (ty k) k da = some da' ∧ CoherentAt store ty da' ∧
      da'.cache.data.get k = some b ∧ da'.keyList = da.keyList ∧
      da'.cache.maxSize = da.cache.maxSize ∧
      da'.cache.keyOrder = Fifo.access da.cache.maxSize da.cache.keyOrder k := by
  rw [fetch, Cache.containsKey, Table.containsKey_eq]
  cases hg : da.cache.data.get k with
  | some b' =>
    have hmem : k ∈ da.cache.keyOrder := (h.ok.keys k).mp (by rw [hg]; rfl)
    refine ⟨da, rfl, h, ?_, rfl, rfl, (Fifo.access_hit hmem).symm⟩
    rw [hg, ← hb, h.stored k b' hg]
  | none =>
    obtain ⟨cache, hput, hok, hgot, hmax, horder, honly⟩ := Cache.put_spec h.ok hg b
    refine ⟨{ da with cache := cache }, ?_, ⟨hok, ?_⟩, hgot, rfl, hmax, horder⟩
    · rw [hb]
      show (da.cache.put k b).bind _ = _
      rw [hput]
      rfl
    · intro k' b' hb'
      rcases honly k' b' hb' with ⟨rfl, rfl⟩ | hold
      · exact hb
      · exact h.stored k' b' hold

theorem getItem_eq {store : Store} {ty : Key → DataType} {da : DistributedArray}
    (h : CoherentAt store ty da) {k : Key} {b : Block}
    (hb : getBlockFromStore_ store (ty k) k = some b) (itemIdx : Nat) :
    ∃ da', getItem store (ty k) k itemIdx da =
        (if b.type = ty k then (b.get itemIdx).map fun c => (c, da') else none) ∧
      CoherentAt store ty da' ∧ da'.keyList = da.keyList ∧
      da'.cache.maxSize = da.cache.maxSize ∧
      da'.cache.keyOrder = Fifo.access da.cache.maxSize da.cache.keyOrder k := by
  obtain ⟨da', hda, hcoh, hget, hkeys, hmax, horder⟩ := fetch_spec h hb
  refine ⟨da', ?_, hcoh, hkeys, hmax, horder⟩
  rw [getItem, hda]
  show (da'.cache.data.get k).bind _ = _
  rw [hget]
  show (if b.type = ty k then (b.get itemIdx).bind _ else none) = _
  rw [Option.map_eq_bind]
  rfl

/-- **A cached read is an uncached read.** -/
theorem getItem_spec {store : Store} {t : DataType} {da : DistributedArray}
    (h : Coherent store t da) {k : Key} {b : Block} (hb : getBlockFromStore_ store t k = some b)
    (ht : b.type = t) {itemIdx : Nat} {c : Cell} (hc : b.get itemIdx = some c) :
    ∃ da', getItem store t k itemIdx da = some (c, da') ∧ Coherent store t da' ∧
      da'.keyList = da.keyList := by
  have hat : CoherentAt store (fun _ => t) da := ⟨h.ok, h.stored⟩
  obtain ⟨da', hda, hcoh, hkeys, -⟩ := getItem_eq hat hb itemIdx
  refine ⟨da', ?_, ⟨hcoh.ok, hcoh.stored⟩, hkeys⟩
  rw [hda, if_pos ht, hc]
  rfl

def bytes (da : DistributedArray) : List UInt8 :=
  Bytes.le 8 (UInt64.ofNat da.length).toNat ++ da.keyList.flatMap Key.bytes

theorem writes_serialize (da : DistributedArray) : Writes (serialize da) (bytes da) :=
  (writes_writeLE 8 _).bind (Writes.forM da.keyList fun k _ => k.writes_serialize)

theorem reads_deserialize {da : DistributedArray} (h : da.length < 2 ^ 64) :
    Reads deserialize (bytes da) ⟨da.keyList, Cache.new⟩ := by
  refine (reads_readSizeT _).bind ?_
  have hlen : (UInt64.ofNat da.length).toNat = da.keyList.length := UInt64.toNat_ofNat_of_lt' h
  have hread := Reads.readTimes (g := id) _ da.keyList fun k _ => k.reads_deserialize
  rw [List.map_id] at hread
  rw [hlen]
  exact hread.map (Reads.pure _)

end DistributedArray

end Eau2
