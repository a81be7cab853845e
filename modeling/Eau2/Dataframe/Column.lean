import Eau2.Dataframe.DistributedArray
import Eau2.Dataframe.Schema

/-!
# Columns

`dataframe/column/column.h`.  A column is cut into blocks of `args.blockSize`; block
`b` is stored under the base key followed by the column's index and `b`, on node
`b % args.numNodes`.  `add_all` numbers the blocks on the way in and `get_*` on the way
out, in code of their own; that the two agree is `addAll_filled` on one side and
`get_spec` on the other, both about the blocks `blockAt`.

* `addAll_filled`: a column that ends with a full block takes more elements.
* `Shows`, `get_spec`: a column whose blocks are in the store gives its elements back,
  read after read.
* `reads_deserialize`: a column comes back with the same keys.
-/

namespace Eau2

open Bytes Serializer

abbrev Put := Key × Value

structure Column where
  size : SizeT
  blocks : DistributedArray
  type : DataType
  baseKey : Key

namespace Column

def new (baseKey : Key) (t : DataType) : Column := ⟨0, DistributedArray.new, t, baseKey⟩

/-- `genKey_`; no node to put the block on is a division by zero. -/
def genKey_ (args : Args) (baseKey : Key) (blockNum colIdx : Nat) : Option Key := do
  let s ← Key.joinPieces
    [baseKey.kStr.val, [Key.dash], decimal colIdx, [Key.dash], decimal blockNum]
  if h : NulFree s ∧ args.numNodes ≠ 0 then
    pure ⟨⟨s, h.1⟩, UInt64.ofNat (blockNum % args.numNodes.toNat)⟩
  else none

def addBlockToStore_ (args : Args) (block : Block) (keyIdx colIdx : Nat) (col : Column) :
    Option (Column × Put) := do
  let k ← genKey_ args col.baseKey keyIdx colIdx
  let val ← Value.of block.serialize
  pure ({ col with blocks := col.blocks.addKey k }, (k, val))

/-- The loop of `add_all`, bounded by its first argument, from `len_added` on.  It
returns the column, the puts and `len_added` at the end. -/
def addLoop (args : Args) (vals : List Cell) (blockCountBefore colIdx : Nat) :
    Nat → Nat → Block → Column → Option (Column × List Put × Nat)
  | 0, _, _, _ => none
  | fuel + 1, lenAdded, block, col =>
    if lenAdded < vals.length then do
      let amountToAdd := min (vals.length - lenAdded) args.blockSize.toNat
      let block := ((vals.drop lenAdded).take amountToAdd).foldl Block.add block
      let (col, put) ← addBlockToStore_ args block
        (blockCountBefore + lenAdded / args.blockSize.toNat) colIdx col
      let (col, puts, total) ← addLoop args vals blockCountBefore colIdx fuel
        (lenAdded + amountToAdd) block.clear col
      pure (col, put :: puts, total)
    else some (col, [], lenAdded)

/-- `add_all` for elements of type `t`; a column of another type exits. -/
def addAll (args : Args) (t : DataType) (vals : List Cell) (colIdx : Nat) (col : Column) :
    Option (Column × List Put) :=
  if col.type = t then do
    let (col, puts, lenAdded) ← addLoop args vals col.blocks.length colIdx (vals.length + 1) 0
      (Block.new args t) col
    pure ({ col with size := col.size + UInt64.ofNat lenAdded }, puts)
  else none

/-- What `get_int`, `get_bool` and `get_double` return on a column of another type;
`get_string` exits. -/
def wrongType : DataType → Option Cell
  | .Integer => some (.int (-1))
  | .Boolean => some (.bool true)
  | .Double => some (.double 0xBFF0000000000000)
  | _ => none

def get (args : Args) (store : Store) (t : DataType) (idx colIdx : Nat) (col : Column) :
    Option (Cell × Column) :=
  if col.type ≠ t then do
    let c ← wrongType t
    pure (c, col)
  else if args.blockSize = 0 then none
  else do
    let k ← genKey_ args col.baseKey (idx / args.blockSize.toNat) colIdx
    let (c, blocks) ← col.blocks.getItem store t k (idx % args.blockSize.toNat)
    pure (c, { col with blocks := blocks })

def serialize (col : Column) : SerM Unit := do
  writeSizeT col.size
  col.blocks.serialize
  let c ← col.type.typeToChar
  writeChar c
  col.baseKey.serialize

def deserialize : SerM Column := do
  let size ← readSizeT
  let blocks ← DistributedArray.deserialize
  let c ← readChar
  let type ← DataType.charToType c
  let baseKey ← Key.deserialize
  pure ⟨size, blocks, type, baseKey⟩

/-! ### Block keys -/

def blockKey (args : Args) (baseKey : Key) (colIdx b : Nat) : Key :=
  ⟨Key.glue [baseKey.kStr.val, [Key.dash], decimal colIdx, [Key.dash], decimal b],
    UInt64.ofNat (b % args.numNodes.toNat)⟩

theorem genKey_eq {args : Args} (hn : args.numNodes ≠ 0) (baseKey : Key) (b colIdx : Nat) :
    genKey_ args baseKey b colIdx = some (blockKey args baseKey colIdx b) := by
  rw [genKey_, Key.joinPieces_eq]
  exact dif_pos ⟨Key.nulFree_flatMap_cstr _, hn⟩

theorem blockKey_kStr (args : Args) (baseKey : Key) (colIdx b : Nat) :
    (blockKey args baseKey colIdx b).kStr.val =
      baseKey.kStr.val ++ Key.dash :: (decimal colIdx ++ Key.dash :: decimal b) := by
  show List.flatMap _ _ = _
  simp only [List.flatMap_cons, List.flatMap_nil, cstr_of_nulFree (decimal_nulFree _),
    cstr_of_nulFree baseKey.kStr.2, List.append_nil]
  rfl

theorem dash_not_mem_decimal (n : Nat) : Key.dash ∉ decimal n :=
  not_mem_decimal (Or.inl (by decide))

/-- **Two blocks have the same text only as the same block of the same column**, under base
keys of the same text. -/
theorem blockKey_kStr_inj {args args' : Args} {base base' : Key} {c c' b b' : Nat}
    (h : (blockKey args base c b).kStr = (blockKey args' base' c' b').kStr) :
    base.kStr = base'.kStr ∧ c = c' ∧ b = b' := by
  have hs : (blockKey args base c b).kStr.val = (blockKey args' base' c' b').kStr.val := by rw [h]
  rw [blockKey_kStr, blockKey_kStr, ← List.cons_append, ← List.append_assoc, ← List.cons_append,
    ← List.append_assoc] at hs
  obtain ⟨hc, hb⟩ := append_sep_inj (dash_not_mem_decimal b) (dash_not_mem_decimal b') hs
  obtain ⟨hbase, hc⟩ := append_sep_inj (dash_not_mem_decimal c) (dash_not_mem_decimal c') hc
  exact ⟨Subtype.ext hbase, decimal_inj hc, decimal_inj hb⟩

/-- **Blocks of one base key have keys of their own.** -/
theorem blockKey_inj {args : Args} {baseKey : Key} {c c' b b' : Nat}
    (h : blockKey args baseKey c b = blockKey args baseKey c' b') : c = c' ∧ b = b' :=
  (blockKey_kStr_inj (congrArg Key.kStr h)).2

/-! ### Writing -/

section Writing

variable (args : Args) (baseKey : Key) (t : DataType) (colIdx : Nat)

def blockAt (vals : List Cell) (b : Nat) : Block :=
  ⟨t, args.blockSize, chunk args.blockSize.toNat vals b⟩

def blockCount (vals : List Cell) : Nat := chunkCount args.blockSize.toNat vals.length

def blockPut (b : Nat) (block : Block) : Put := (blockKey args baseKey colIdx b, ⟨block.bytes⟩)

def colPuts (vals : List Cell) : List Put :=
  (List.range (blockCount args vals)).map fun b =>
    blockPut args baseKey colIdx b (blockAt args t vals b)

/-- A column that holds `vals` and has not been read. -/
def filled (vals : List Cell) : Column :=
  ⟨UInt64.ofNat vals.length,
    ⟨(List.range (blockCount args vals)).map (blockKey args baseKey colIdx), Cache.new⟩,
    t, baseKey⟩

end Writing

def addKeys (col : Column) (keys : List Key) : Column :=
  { col with blocks := { col.blocks with keyList := col.blocks.keyList ++ keys } }

theorem ok_blockAt {args : Args} {t : DataType} {vals : List Cell}
    (ht : ∀ c ∈ vals, c.type = t) (b : Nat) : (blockAt args t vals b).Ok :=
  ⟨Chunk.length_le _ _ _, fun c hc => ht c (Chunk.mem_of_mem hc)⟩

theorem addBlockToStore_eq {args : Args} (hn : args.numNodes ≠ 0) (block : Block)
    (keyIdx colIdx : Nat) (col : Column) : addBlockToStore_ args block keyIdx colIdx col =
      some (col.addKeys [blockKey args col.baseKey colIdx keyIdx],
        blockPut args col.baseKey colIdx keyIdx block) := by
  rw [addBlockToStore_, genKey_eq hn, Value.of_eq block.writes_serialize]
  rfl

/-- **The loop stores the blocks from the `j`-th on.** -/
theorem addLoop_spec {args : Args} (hn : args.numNodes ≠ 0) (hb : args.blockSize ≠ 0)
    (t : DataType) (vals : List Cell) (before colIdx : Nat) {fuel j : Nat} (col : Column)
    (hf : vals.length - j * args.blockSize.toNat < fuel) :
    addLoop args vals before colIdx fuel (min (j * args.blockSize.toNat) vals.length)
      (Block.new args t) col =
      some (col.addKeys ((List.range' j (blockCount args vals - j)).map fun b =>
          blockKey args col.baseKey colIdx (before + b)),
        (List.range' j (blockCount args vals - j)).map fun b =>
          blockPut args col.baseKey colIdx (before + b) (blockAt args t vals b),
        vals.length) := by
  have hpos := toNat_pos hb
  induction fuel generalizing j col with
  | zero => omega
  | succ fuel ih =>
    rw [addLoop]
    by_cases hlt : min (j * args.blockSize.toNat) vals.length < vals.length
    · have hj : j * args.blockSize.toNat < vals.length := by omega
      rw [if_pos hlt, Nat.min_eq_left (Nat.le_of_lt hj), Nat.mul_div_cancel _ hpos]
      -- the block that is filled is the `j`-th chunk
      have htake : ((vals.drop (j * args.blockSize.toNat)).take
          (min (vals.length - j * args.blockSize.toNat) args.blockSize.toNat)) =
            chunk args.blockSize.toNat vals j := by
        rw [chunk, ← List.take_take, List.take_of_length_le (by
          rw [List.length_take, List.length_drop]
          omega)]
      have hblock : (chunk args.blockSize.toNat vals j).foldl Block.add (Block.new args t) =
          blockAt args t vals j := by
        rw [Block.foldl_add _ (by
          show 0 + _ ≤ _
          rw [Nat.zero_add]
          exact Chunk.length_le _ _ _)]
        rfl
      have hnext : j * args.blockSize.toNat +
          min (vals.length - j * args.blockSize.toNat) args.blockSize.toNat =
            min ((j + 1) * args.blockSize.toNat) vals.length := by
        rw [Nat.succ_mul]
        omega
      have hclear : (blockAt args t vals j).clear = Block.new args t := rfl
      have hcount : blockCount args vals - j = blockCount args vals - (j + 1) + 1 := by
        have := Chunk.div_lt_count hpos hj
        rw [Nat.mul_div_cancel _ hpos] at this
        unfold blockCount
        omega
      have hrec := ih (j := j + 1)
        (col.addKeys [blockKey args col.baseKey colIdx (before + j)]) (by
          rw [Nat.succ_mul]
          omega)
      simp only [htake, hblock, addBlockToStore_eq hn, hnext, hclear, Option.bind_eq_bind,
        Option.bind_some, hrec, hcount, List.range'_succ, List.map_cons]
      show some (_, _, _) = some (_, _, _)
      rw [addKeys, addKeys, addKeys, List.append_assoc]
      rfl
    · have hle : blockCount args vals ≤ j := by
        by_contra hc
        have := Chunk.mul_lt_of_lt_count (n := args.blockSize.toNat) (m := vals.length)
          (show j < _ by unfold blockCount at hc; omega)
        omega
      rw [if_neg hlt, Nat.sub_eq_zero_of_le hle, List.range'_zero, List.map_nil, List.map_nil,
        addKeys, List.append_nil]
      have hmin : min (j * args.blockSize.toNat) vals.length = vals.length := by omega
      rw [hmin]

/-- **A column that ends with a full block takes more elements**, and the puts made so
far are those of a column with all of them. -/
theorem addAll_filled {args : Args} (hn : args.numNodes ≠ 0) (hb : args.blockSize ≠ 0)
    (baseKey : Key) (t : DataType) (colIdx : Nat) (old : List Cell) {k : Nat}
    (hold : old.length = k * args.blockSize.toNat) (vals : List Cell) :
    ∃ puts, addAll args t vals colIdx (filled args baseKey t colIdx old) =
        some (filled args baseKey t colIdx (old ++ vals), puts) ∧
      colPuts args baseKey t colIdx (old ++ vals) = colPuts args baseKey t colIdx old ++ puts := by
  have hpos := toNat_pos hb
  have hk : blockCount args old = k := by rw [blockCount, hold, Chunk.count_mul hpos]
  have hcount : blockCount args (old ++ vals) = k + blockCount args vals := by
    rw [blockCount, List.length_append, hold, Chunk.count_add hpos]
    rfl
  have hlen : (filled args baseKey t colIdx old).blocks.length = k := by
    show (List.map _ (List.range _)).length = k
    rw [List.length_map, List.length_range, hk]
  have hloop := addLoop_spec hn hb t vals k colIdx (j := 0) (filled args baseKey t colIdx old)
    (show vals.length - 0 * args.blockSize.toNat < vals.length + 1 by omega)
  rw [Nat.zero_mul, Nat.zero_min, Nat.sub_zero, ← List.range_eq_range'] at hloop
  refine ⟨(List.range (blockCount args vals)).map fun b =>
    blockPut args baseKey colIdx (k + b) (blockAt args t vals b), ?_, ?_⟩
  · have htype : (filled args baseKey t colIdx old).type = t := rfl
    rw [addAll, if_pos htype, hlen, hloop]
    show some (_, _) = some (_, _)
    congr 2
    rw [filled, addKeys, filled, hcount, hk, List.range_add, List.map_append, List.map_map,
      List.length_append, UInt64.ofNat_add]
    rfl
  · rw [colPuts, hcount, List.range_add, List.map_append, List.map_map, colPuts, hk]
    congr 1
    · refine List.map_congr_left fun b hmem => ?_
      have hlt := List.mem_range.mp hmem
      rw [blockAt, blockAt, Chunk.chunk_append_left]
      rw [hold]
      exact Nat.mul_le_mul_right _ hlt
    · refine List.map_congr_left fun b _ => ?_
      show blockPut args baseKey colIdx (k + b) (blockAt args t (old ++ vals) (k + b)) = _
      rw [blockAt, Chunk.chunk_append_right hold]
      rfl

theorem filled_nil {args : Args} (hb : args.blockSize ≠ 0) (baseKey : Key) (t : DataType)
    (colIdx : Nat) : filled args baseKey t colIdx [] = new baseKey t := by
  have hpos := toNat_pos hb
  rw [filled, blockCount, List.length_nil, Chunk.count_zero hpos]
  rfl

/-! ### Reading -/

/-- A column that holds `vals`, whose blocks are in the store. -/
structure Shows (args : Args) (store : Store) (t : DataType) (colIdx : Nat) (vals : List Cell)
    (col : Column) : Prop where
  type : col.type = t
  coherent : DistributedArray.Coherent store t col.blocks
  stored : ∀ b, b < blockCount args vals →
    DistributedArray.getBlockFromStore_ store t (blockKey args col.baseKey colIdx b) =
      some (blockAt args t vals b)

theorem getBlock_of_put {args : Args} {store : Store} {baseKey : Key} {t : DataType}
    {colIdx b : Nat} {block : Block} (hok : block.Ok) (ht : block.type = t)
    (h : store (blockPut args baseKey colIdx b block).1 =
      some (blockPut args baseKey colIdx b block).2) :
    DistributedArray.getBlockFromStore_ store t (blockKey args baseKey colIdx b) = some block := by
  have hs : store (blockKey args baseKey colIdx b) = some ⟨block.bytes⟩ := h
  rw [DistributedArray.getBlockFromStore_, hs, Option.bind_eq_bind, Option.bind_some, ← ht]
  exact Value.read_eq (Block.reads_deserialize hok)

theorem shows_filled {args : Args} {store : Store} {baseKey : Key} {t : DataType} {colIdx : Nat}
    {vals : List Cell} (ht : ∀ c ∈ vals, c.type = t)
    (h : ∀ p ∈ colPuts args baseKey t colIdx vals, store p.1 = some p.2) :
    Shows args store t colIdx vals (filled args baseKey t colIdx vals) where
  type := rfl
  coherent := DistributedArray.coherent_of_new store t _
  stored b hb := getBlock_of_put (ok_blockAt ht b) rfl
    (h _ (List.mem_map.mpr ⟨b, List.mem_range.mpr hb, rfl⟩))

/-- **A read returns the element, and the column still shows its elements.** -/
theorem get_spec {args : Args} (hn : args.numNodes ≠ 0) (hb : args.blockSize ≠ 0) {store : Store}
    {t : DataType} {colIdx : Nat} {vals : List Cell} {col : Column}
    (h : Shows args store t colIdx vals col) {idx : Nat} (hidx : idx < vals.length) :
    ∃ col', get args store t idx colIdx col = some (vals[idx], col') ∧
      Shows args store t colIdx vals col' := by
  have hpos := toNat_pos hb
  have hcell : (blockAt args t vals (idx / args.blockSize.toNat)).get
      (idx % args.blockSize.toNat) = some vals[idx] := by
    show (chunk args.blockSize.toNat vals (idx / args.blockSize.toNat))[_]? = _
    rw [Chunk.getElem?_chunk hpos, List.getElem?_eq_getElem hidx]
  obtain ⟨blocks, hget, hcoh, -⟩ := DistributedArray.getItem_spec h.coherent
    (h.stored _ (Chunk.div_lt_count hpos hidx)) rfl hcell
  refine ⟨{ col with blocks := blocks }, ?_, ⟨h.type, hcoh, h.stored⟩⟩
  rw [get, if_neg (not_not.mpr h.type), if_neg hb, genKey_eq hn]
  show (col.blocks.getItem _ _ _ _).bind _ = _
  rw [hget]
  rfl

/-! ### On the wire -/

def bytes (col : Column) : List UInt8 :=
  le 8 col.size.toNat ++ (col.blocks.bytes ++ (Schema.typeBytes col.type ++ col.baseKey.bytes))

theorem writes_serialize {col : Column} (h : col.type ≠ .Field) :
    Writes (serialize col) (bytes col) := by
  refine (writes_writeLE 8 _).bind ((DistributedArray.writes_serialize _).bind ?_)
  obtain ⟨c, hc⟩ := DataType.typeToChar_isSome h
  rw [Schema.typeBytes, hc]
  exact (writes_writeLE 1 _).bind col.baseKey.writes_serialize

def uncached (col : Column) : Column := { col with blocks := ⟨col.blocks.keyList, Cache.new⟩ }

/-- **A column comes back, unread.** -/
theorem reads_deserialize {col : Column} (h : col.type ≠ .Field) (hk : col.blocks.length < 2 ^ 64) :
    Reads deserialize (bytes col) col.uncached := by
  refine (reads_readSizeT _).bind ((DistributedArray.reads_deserialize hk).bind ?_)
  obtain ⟨c, hc⟩ := DataType.typeToChar_isSome h
  rw [Schema.typeBytes, hc]
  refine (reads_readChar c).bind ?_
  rw [DataType.charToType_typeToChar hc]
  exact Reads.map (k := fun baseKey => (pure ⟨_, _, _, baseKey⟩ : SerM Column))
    (Key.reads_deserialize _) (Reads.pure _)

theorem length_filled_lt {args : Args} {baseKey : Key} {t : DataType} {colIdx : Nat}
    {vals : List Cell} (h : vals.length < 2 ^ 64) :
    (filled args baseKey t colIdx vals).blocks.length < 2 ^ 64 := by
  refine Nat.lt_of_le_of_lt ?_ h
  show (List.map _ (List.range _)).length ≤ _
  rw [List.length_map, List.length_range]
  exact Chunk.count_le _ _

end Column

end Eau2
