import Eau2.Base.Served
import Eau2.Dataframe.DistributedArray

/-!
# The block cache is transparent

A sequence of reads of a distributed array over a store that does not change.  Every
key is read with the getter of the type of its block.

* `agree_readItem`: a read through the cache returns what a read of the store returns,
  and moves the queue of the keys as `Fifo.access` does.
* `reads_transparent`: so does every sequence of reads, and the cache keeps its
  invariant, its bound and its order throughout.
-/

namespace Eau2

namespace Cache

/-- `Cache(max)`, which exits when `max` is zero. -/
def withMax (max : ℕ) : Cache := ⟨max, Table.new, []⟩

theorem ok_withMax {max : ℕ} (h : 0 < max) : Ok (withMax max) where
  keys k := by simp [withMax]
  nodup := List.nodup_nil
  size := rfl
  pos := h
  le := Nat.zero_le max

end Cache

namespace DistributedArray

/-- Element `itemIdx` of the block decoded from the value stored under `k`. -/
def uncached (store : Store) (t : DataType) (k : Key) (itemIdx : ℕ) : Option Cell := do
  let block ← getBlockFromStore_ store t k
  if block.type = t then block.get itemIdx else none

/-- A read through the cache, of an array whose key `k` holds a block of type `ty k`. -/
def readItem (store : Store) (ty : Key → DataType) (da : DistributedArray) (r : Key × ℕ) :
    Option (Cell × DistributedArray) :=
  getItem store (ty r.1) r.1 r.2 da

/-- A read of the store, next to a queue of the last `max` keys that were inserted. -/
def readUncached (store : Store) (ty : Key → DataType) (max : ℕ) (q : List Key) (r : Key × ℕ) :
    Option (Cell × List Key) :=
  (uncached store (ty r.1) r.1 r.2).map fun c => (c, Fifo.access max q r.1)

/-- A coherent cache of size `max` whose queue is `q`. -/
structure Follows (store : Store) (ty : Key → DataType) (max : ℕ) (da : DistributedArray)
    (q : List Key) : Prop where
  coherent : CoherentAt store ty da
  maxSize : da.cache.maxSize = max
  keyOrder : da.cache.keyOrder = q

variable {store : Store} {ty : Key → DataType} {max : ℕ}

theorem follows_withMax (h : 0 < max) (keys : List Key) :
    Follows store ty max ⟨keys, Cache.withMax max⟩ [] where
  coherent := ⟨Cache.ok_withMax h, fun k b hb => by simp [Cache.withMax] at hb⟩
  maxSize := rfl
  keyOrder := rfl

theorem readItem_eq_none {da : DistributedArray} (h : CoherentAt store ty da) {r : Key × ℕ}
    (hb : getBlockFromStore_ store (ty r.1) r.1 = none) : readItem store ty da r = none := by
  have hget : da.cache.data.get r.1 = none := by
    cases hg : da.cache.data.get r.1 with
    | none => rfl
    | some b =>
      rw [h.stored r.1 b hg] at hb
      cases hb
  unfold readItem getItem fetch
  rw [Cache.containsKey, Table.containsKey_eq, hget, hb]
  rfl

/-- **One read.** -/
theorem agree_readItem {da : DistributedArray} {q : List Key} (h : Follows store ty max da q)
    (r : Key × ℕ) :
    Option.Rel (Agree (Follows store ty max)) (readItem store ty da r)
      (readUncached store ty max q r) := by
  obtain ⟨k, itemIdx⟩ := r
  cases hb : getBlockFromStore_ store (ty k) k with
  | none =>
    rw [readItem_eq_none h.coherent hb, readUncached, uncached, hb]
    exact Option.Rel.none
  | some b =>
    obtain ⟨da', hread, hcoh, -, hmax, horder⟩ := getItem_eq h.coherent hb itemIdx
    rw [h.maxSize] at hmax horder
    rw [h.keyOrder] at horder
    rw [readItem, hread, readUncached, uncached, hb]
    show Option.Rel _ _ (Option.map _ (if b.type = ty k then b.get itemIdx else none))
    split
    · cases b.get itemIdx with
      | none => exact Option.Rel.none
      | some c => exact Option.Rel.some ⟨rfl, hcoh, hmax, horder⟩
    · exact Option.Rel.none

theorem serve_readUncached (q : List Key) {reads : List (Key × ℕ)} {cells : List Cell}
    (h : reads.map (fun r => uncached store (ty r.1) r.1 r.2) = cells.map some) :
    serve (readUncached store ty max) q reads =
      some (cells, (reads.map Prod.fst).foldl (Fifo.access max) q) := by
  induction reads generalizing q cells with
  | nil =>
    cases cells with
    | nil => rfl
    | cons c cells => cases h
  | cons r reads ih =>
    cases cells with
    | nil => cases h
    | cons c cells =>
      obtain ⟨hr, hrest⟩ := List.cons.inj h
      replace hr : uncached store (ty r.1) r.1 r.2 = some c := hr
      have hstep : readUncached store ty max q r = some (c, Fifo.access max q r.1) := by
        unfold readUncached
        rw [hr]
        rfl
      unfold serve
      rw [hstep]
      show (serve (readUncached store ty max) (Fifo.access max q r.1) reads).bind _ = _
      rw [ih (Fifo.access max q r.1) hrest]
      rfl

theorem follows_serve (hmax : 0 < max) (keys : List Key) {reads : List (Key × ℕ)}
    {cells : List Cell}
    (h : reads.map (fun r => uncached store (ty r.1) r.1 r.2) = cells.map some) :
    ∃ da, serve (readItem store ty) ⟨keys, Cache.withMax max⟩ reads = some (cells, da) ∧
      Follows store ty max da (Fifo.resident max (reads.map Prod.fst)) := by
  have hstart : Follows store ty max ⟨keys, Cache.withMax max⟩ [] := follows_withMax hmax keys
  have hall := serve_refines agree_readItem hstart reads
  rw [serve_readUncached [] h] at hall
  generalize serve (readItem store ty) ⟨keys, Cache.withMax max⟩ reads = x at hall ⊢
  cases hall with
  | some hpq =>
    rename_i p
    obtain ⟨cells', da⟩ := p
    obtain ⟨rfl, hf⟩ : cells' = cells ∧ Follows store ty max da _ := hpq
    exact ⟨da, rfl, hf⟩

/-- **After each of a sequence of reads: the cells returned are those of uncached reads;
the cache holds at most `max` blocks, under the keys of `keyOrder_`, each once; and
`keyOrder_` is the queue from which a full cache gives up the front, that is the last
`max` keys that were inserted.** -/
theorem reads_transparent (hmax : 0 < max) (keys : List Key) {reads : List (Key × ℕ)}
    {cells : List Cell}
    (h : reads.map (fun r => uncached store (ty r.1) r.1 r.2) = cells.map some) (n : ℕ) :
    ∃ da, serve (readItem store ty) ⟨keys, Cache.withMax max⟩ (reads.take n) =
        some (cells.take n, da) ∧
      da.cache.data.size ≤ max ∧ da.cache.data.size = da.cache.keyOrder.length ∧
      (∀ k, da.cache.containsKey k = true ↔ k ∈ da.cache.keyOrder) ∧ da.cache.keyOrder.Nodup ∧
      da.cache.keyOrder = Fifo.resident max ((reads.take n).map Prod.fst) ∧
      da.cache.keyOrder = (Fifo.insertions max [] ((reads.take n).map Prod.fst)).rtake max := by
  have htake : (reads.take n).map (fun r => uncached store (ty r.1) r.1 r.2) =
      (cells.take n).map some := by
    rw [List.map_take, List.map_take, h]
  obtain ⟨da, hserve, hf⟩ := follows_serve hmax keys htake
  have hok := hf.coherent.ok
  refine ⟨da, hserve, ?_, hok.size, hok.keys, hok.nodup, hf.keyOrder, ?_⟩
  · rw [← hf.maxSize]
    exact hok.le
  · rw [hf.keyOrder, Fifo.resident_eq_rtake hmax]

def sampleBlock : Block := ⟨.Integer, 2, [.int 5, .int 7]⟩

def sampleReads : List (Key × ℕ) :=
  [(⟨⟨[97], CStr.nulFree_a⟩, 0⟩, 1), (⟨⟨[97], CStr.nulFree_a⟩, 1⟩, 0),
    (⟨⟨[97], CStr.nulFree_a⟩, 0⟩, 0)]

/-- The sample block under every key, and a cache of one block. -/
theorem reads_transparent_sample :
    ∃ da, serve (readItem (fun _ => some ⟨sampleBlock.bytes⟩) fun _ => .Integer)
        ⟨[], Cache.withMax 1⟩ (sampleReads.take 3) = some ([.int 7, .int 5, .int 5].take 3, da) ∧
      da.cache.data.size ≤ 1 ∧ da.cache.data.size = da.cache.keyOrder.length ∧
      (∀ k, da.cache.containsKey k = true ↔ k ∈ da.cache.keyOrder) ∧ da.cache.keyOrder.Nodup ∧
      da.cache.keyOrder = Fifo.resident 1 ((sampleReads.take 3).map Prod.fst) ∧
      da.cache.keyOrder = (Fifo.insertions 1 [] ((sampleReads.take 3).map Prod.fst)).rtake 1 :=
  reads_transparent Nat.one_pos [] (by decide +kernel) 3

end DistributedArray

end Eau2
