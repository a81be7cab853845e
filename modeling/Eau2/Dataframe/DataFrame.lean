import Eau2.Dataframe.Column
import Eau2.Dataframe.Row

/-!
# Dataframes

`dataframe/column/columnarray.h` and `dataframe/dataframe.h`, without the visitors.
`dfKey_` of the column array is the `key_` of its dataframe, one object, so it is one
field here and is written and read twice.

`frame` is the dataframe that holds `rows` and has not been read; `framePuts` are the
puts that store its blocks.

* `shows_frame`: where those puts are in the store, the dataframe shows its rows.
* `get_spec`, `getAll_spec`: a dataframe that shows its rows gives them back, read after
  read.
* `reads_deserialize`: a `frame` comes back from its bytes.
-/

namespace Eau2

open Bytes Serializer

structure DataFrame where
  /-- `colList_` of `columns_`. -/
  columns : List Column
  schema : Schema
  key : Key

namespace DataFrame

/-- `DataFrame(k, kv)`. -/
def ofKey (k : Key) : DataFrame := ⟨[], Schema.new, k⟩

/-- `DataFrame(scm, k, kv)`. -/
def ofTypes (scm : Str) (k : Key) : Option DataFrame := do
  let schema ← Schema.ofTypes scm
  let types ← scm.mapM DataType.charToType
  pure ⟨types.map (Column.new k), schema, k⟩

def nrows (df : DataFrame) : SizeT := df.schema.numRows

def ncols (df : DataFrame) : Nat := df.schema.width

/-- `add_array`, which goes through `add_column_fromarray`, for elements of type `t`. -/
def addArray (args : Args) (t : DataType) (elements : List Cell) (df : DataFrame) :
    Option (DataFrame × List Put) := do
  let baseKey ← df.key.addIndex df.columns.length
  let (c, puts) ← (Column.new baseKey t).addAll args t elements df.columns.length
  let schema ← df.schema.addColumn t
  pure (⟨df.columns ++ [c], schema.addRows (UInt64.ofNat elements.length), df.key⟩, puts)

def get (args : Args) (store : Store) (t : DataType) (col row : Nat) (df : DataFrame) :
    Option (Cell × DataFrame) := do
  let c ← df.columns[col]?
  let (cell, c) ← c.get args store t row col
  pure (cell, { df with columns := df.columns.set col c })

def getInt (args : Args) (store : Store) := get args store .Integer
def getBool (args : Args) (store : Store) := get args store .Boolean
def getDouble (args : Args) (store : Store) := get args store .Double
def getString (args : Args) (store : Store) := get args store .Str

def getAll (args : Args) (store : Store) :
    List (Nat × Nat) → DataFrame → Option (List Cell × DataFrame)
  | [], df => some ([], df)
  | (col, row) :: qs, df => do
    let t ← df.schema.colType col
    let (cell, df) ← df.get args store t col row
    let (cells, df) ← getAll args store qs df
    pure (cell :: cells, df)

/-- `serialize`, of the column array, the schema and the key. -/
def serialize (df : DataFrame) : SerM Unit := do
  writeSizeT (UInt64.ofNat df.columns.length)
  df.columns.forM Column.serialize
  df.key.serialize
  df.schema.serialize
  df.key.serialize

def deserialize : SerM DataFrame := do
  let len ← readSizeT
  let columns ← readTimes Column.deserialize len.toNat
  let _ ← Key.deserialize
  let schema ← Schema.deserialize
  let key ← Key.deserialize
  pure ⟨columns, schema, key⟩

/-! ### The dataframe that holds some rows -/

def colOf (rows : List (List Cell)) (c : Nat) : List Cell :=
  rows.map fun cells => cells.getD c (.int 0)

@[simp] theorem length_colOf (rows : List (List Cell)) (c : Nat) :
    (colOf rows c).length = rows.length := List.length_map _

theorem colOf_append (rows rows' : List (List Cell)) (c : Nat) :
    colOf (rows ++ rows') c = colOf rows c ++ colOf rows' c := List.map_append ..

def Typed (types : List DataType) (rows : List (List Cell)) : Prop :=
  ∀ cells ∈ rows, cells.map Cell.type = types

instance (types : List DataType) (rows : List (List Cell)) : Decidable (Typed types rows) :=
  inferInstanceAs (Decidable (∀ cells ∈ rows, cells.map Cell.type = types))

theorem Typed.getD {types : List DataType} {rows : List (List Cell)} (h : Typed types rows)
    {cells : List Cell} (hmem : cells ∈ rows) {c : Nat} {t : DataType}
    (ht : types[c]? = some t) :
    cells[c]? = some (cells.getD c (.int 0)) ∧ (cells.getD c (.int 0)).type = t := by
  rw [← h cells hmem, List.getElem?_map, Option.map_eq_some_iff] at ht
  obtain ⟨cell, hc, rfl⟩ := ht
  rw [List.getD_eq_getElem?_getD, hc]
  exact ⟨rfl, rfl⟩

theorem Typed.colOf {types : List DataType} {rows : List (List Cell)} (h : Typed types rows)
    {c : Nat} {t : DataType} (ht : types[c]? = some t) :
    ∀ cell ∈ colOf rows c, cell.type = t := by
  intro cell hmem
  obtain ⟨cells, hcells, rfl⟩ := List.mem_map.mp hmem
  exact (h.getD hcells ht).2

section Frame

variable (args : Args) (base : Key) (types : List DataType) (rows : List (List Cell))

def columnsFrom (i : Nat) (types : List DataType) : List Column :=
  (types.zipIdx i).map fun p => Column.filled args base p.1 p.2 (colOf rows p.2)

def putsFrom (i : Nat) (types : List DataType) : List Put :=
  (types.zipIdx i).flatMap fun p => Column.colPuts args base p.1 p.2 (colOf rows p.2)

/-- The dataframe that holds `rows` and has not been read; its columns' base key is
`base`. -/
def frame (capCols : SizeT) (key : Key) : DataFrame :=
  ⟨columnsFrom args base rows 0 types, ⟨types, capCols, UInt64.ofNat rows.length⟩, key⟩

def framePuts : List Put := putsFrom args base rows 0 types

end Frame

theorem columnsFrom_nil {args : Args} (hb : args.blockSize ≠ 0) (base : Key)
    (types : List DataType) (i : Nat) :
    columnsFrom args base [] i types = types.map (Column.new base) := by
  have hfst : (types.zipIdx i).map ((Column.new base) ∘ Prod.fst) =
      types.map (Column.new base) := by
    rw [← List.map_map, List.zipIdx_map_fst]
  rw [columnsFrom, ← hfst]
  exact List.map_congr_left fun p _ => Column.filled_nil hb base p.1 p.2

theorem putsFrom_nil {args : Args} (hb : args.blockSize ≠ 0) (base : Key) (types : List DataType)
    (i : Nat) : putsFrom args base [] i types = [] := by
  refine List.flatMap_eq_nil_iff.mpr fun p _ => ?_
  rw [Column.colPuts, Column.blockCount, length_colOf, List.length_nil,
    Chunk.count_zero (toNat_pos hb)]
  rfl

theorem ofTypes_spec {args : Args} (hb : args.blockSize ≠ 0) (k : Key) {scm : Str}
    {types : List DataType} (hlen : scm.length < 2 ^ 64)
    (h : scm.mapM DataType.charToType = some types) :
    ∃ capCols, ofTypes scm k = some (frame args k types [] capCols k) ∧
      (Schema.mk types capCols 0).Ok := by
  obtain ⟨⟨types', capCols, numRows⟩, hschema, hok, htypes, hrows⟩ := Schema.ofTypes_spec hlen h
  dsimp only at htypes hrows
  subst htypes hrows
  refine ⟨capCols, ?_, hok⟩
  rw [ofTypes, hschema, h, frame, columnsFrom_nil hb]
  rfl

/-- **`add_array` makes a new dataframe the one that holds the elements.** -/
theorem addArray_spec {args : Args} (hn : args.numNodes ≠ 0) (hb : args.blockSize ≠ 0) (k : Key)
    (t : DataType) (elements : List Cell) :
    ∃ puts, addArray args t elements (ofKey k) =
        some (frame args (k.indexed 0) [t] (elements.map fun c => [c]) 2 k, puts) ∧
      framePuts args (k.indexed 0) [t] (elements.map fun c => [c]) = puts := by
  obtain ⟨puts, hadd, hputs⟩ := Column.addAll_filled hn hb (k.indexed 0) t 0 []
    (show ([] : List Cell).length = 0 * args.blockSize.toNat by simp) elements
  have hcol : colOf (elements.map fun c => [c]) 0 = elements := by
    rw [colOf, List.map_map]
    exact List.map_id _
  refine ⟨puts, ?_, ?_⟩
  · have hschema : Schema.new.addColumn t = some ⟨[t], 2, 0⟩ := rfl
    rw [List.nil_append, Column.filled_nil hb] at hadd
    simp only [addArray, ofKey, List.length_nil, Key.addIndex_eq, hadd, hschema, frame,
      columnsFrom, List.zipIdx_cons, List.zipIdx_nil, List.map_cons, List.map_nil, hcol,
      Schema.addRows, UInt64.zero_add, List.length_map, List.nil_append, Option.bind_eq_bind,
      Option.bind_some]
    rfl
  · have hnil : Column.colPuts args (k.indexed 0) t 0 [] = [] := by
      rw [Column.colPuts, Column.blockCount, List.length_nil, Chunk.count_zero (toNat_pos hb)]
      rfl
    rw [hnil, List.nil_append, List.nil_append] at hputs
    rw [framePuts, putsFrom, List.zipIdx_cons, List.zipIdx_nil, List.flatMap_cons,
      List.flatMap_nil, List.append_nil, hcol, hputs]

theorem columnsFrom_getElem? {args : Args} {base : Key} {rows : List (List Cell)}
    {types : List DataType} {c : Nat} {t : DataType} (ht : types[c]? = some t) :
    (columnsFrom args base rows 0 types)[c]? =
      some (Column.filled args base t c (colOf rows c)) := by
  rw [columnsFrom, List.getElem?_map, List.getElem?_zipIdx, ht, Nat.zero_add]
  rfl

theorem mem_framePuts {args : Args} {base : Key} {types : List DataType}
    {rows : List (List Cell)} {p : Put} : p ∈ framePuts args base types rows ↔
      ∃ c t, types[c]? = some t ∧ p ∈ Column.colPuts args base t c (colOf rows c) := by
  rw [framePuts, putsFrom, List.mem_flatMap]
  constructor
  · rintro ⟨⟨t, c⟩, hmem, hp⟩
    rw [List.mk_mem_zipIdx_iff_getElem?] at hmem
    exact ⟨c, t, hmem, hp⟩
  · rintro ⟨c, t, ht, hp⟩
    exact ⟨(t, c), List.mk_mem_zipIdx_iff_getElem?.mpr ht, hp⟩

/-- **Every block of a dataframe has a key of its own.** -/
theorem framePuts_key_inj {args : Args} {base : Key} {types : List DataType}
    {rows : List (List Cell)} {p q : Put} (hp : p ∈ framePuts args base types rows)
    (hq : q ∈ framePuts args base types rows) (h : p.1 = q.1) : p = q := by
  obtain ⟨c, t, ht, hp⟩ := mem_framePuts.mp hp
  obtain ⟨c', t', ht', hq⟩ := mem_framePuts.mp hq
  obtain ⟨b, -, rfl⟩ := List.mem_map.mp hp
  obtain ⟨b', -, rfl⟩ := List.mem_map.mp hq
  obtain ⟨rfl, rfl⟩ := Column.blockKey_inj h
  rw [ht] at ht'
  cases ht'
  rfl

/-! ### Reading -/

/-- A dataframe that holds `rows`, whose blocks are in the store. -/
structure Shows (args : Args) (store : Store) (types : List DataType) (rows : List (List Cell))
    (df : DataFrame) : Prop where
  schema : df.schema.types = types
  nrows : df.nrows = UInt64.ofNat rows.length
  columns : ∀ (c : Nat) (t : DataType), types[c]? = some t →
    ∃ col : Column, df.columns[c]? = some col ∧ col.Shows args store t c (colOf rows c)

theorem shows_frame {args : Args} {store : Store} {base : Key} {types : List DataType}
    {rows : List (List Cell)} (ht : Typed types rows) (capCols : SizeT) (key : Key)
    (h : ∀ p ∈ framePuts args base types rows, store p.1 = some p.2) :
    Shows args store types rows (frame args base types rows capCols key) where
  schema := rfl
  nrows := rfl
  columns c t hc := ⟨_, columnsFrom_getElem? hc, Column.shows_filled (ht.colOf hc)
    fun p hp => h p (mem_framePuts.mpr ⟨c, t, hc, hp⟩)⟩

/-- **A read returns the cell, and the dataframe still shows its rows.** -/
theorem get_spec {args : Args} (hn : args.numNodes ≠ 0) (hb : args.blockSize ≠ 0)
    {store : Store} {types : List DataType} {rows : List (List Cell)} {df : DataFrame}
    (h : Shows args store types rows df) (ht : Typed types rows) {c r : Nat} {cells : List Cell}
    {cell : Cell} (hr : rows[r]? = some cells) (hc : cells[c]? = some cell) :
    types[c]? = some cell.type ∧ ∃ df', df.get args store cell.type c r = some (cell, df') ∧
      Shows args store types rows df' := by
  have htype : types[c]? = some cell.type := by
    rw [← ht cells (List.mem_of_getElem? hr), List.getElem?_map, hc]
    rfl
  obtain ⟨col, hcol, hshows⟩ := h.columns c _ htype
  obtain ⟨hlt, hrow⟩ := List.getElem?_eq_some_iff.mp hr
  have hidx : r < (colOf rows c).length := by rwa [length_colOf]
  obtain ⟨col', hget, hshows'⟩ := Column.get_spec hn hb hshows hidx
  have hcell : (colOf rows c)[r] = cell := by
    have : (colOf rows c)[r] = (rows[r]).getD c (.int 0) := List.getElem_map ..
    rw [this, hrow, List.getD_eq_getElem?_getD, hc]
    rfl
  rw [hcell] at hget
  refine ⟨htype, { df with columns := df.columns.set c col' }, ?_, h.schema, h.nrows, ?_⟩
  · rw [get, hcol]
    show (col.get args store cell.type r c).bind _ = _
    rw [hget]
    rfl
  · intro c' t' ht'
    obtain ⟨col₀, hcol₀, hshows₀⟩ := h.columns c' t' ht'
    show ∃ col, (df.columns.set c col')[c']? = some col ∧ _
    rw [List.getElem?_set]
    by_cases hcc : c = c'
    · subst hcc
      have hlen := (List.getElem?_eq_some_iff.mp hcol).1
      rw [htype] at ht'
      cases ht'
      rw [if_pos rfl, if_pos hlen]
      exact ⟨col', rfl, hshows'⟩
    · rw [if_neg hcc]
      exact ⟨col₀, hcol₀, hshows₀⟩

/-- **Whatever is read, in whatever order, is what was written.** -/
theorem getAll_spec {args : Args} (hn : args.numNodes ≠ 0) (hb : args.blockSize ≠ 0)
    {store : Store} {types : List DataType} {rows : List (List Cell)} {df : DataFrame}
    (h : Shows args store types rows df) (ht : Typed types rows) {qs : List (Nat × Nat)}
    {cells : List Cell}
    (hq : List.Forall₂ (fun q cell => rows[q.2]?.bind (·[q.1]?) = some cell) qs cells) :
    ∃ df', getAll args store qs df = some (cells, df') ∧ Shows args store types rows df' := by
  induction hq generalizing df with
  | nil => exact ⟨df, rfl, h⟩
  | @cons q cell qs cells hcell hrest ih =>
    obtain ⟨row, hr, hc⟩ := Option.bind_eq_some_iff.mp hcell
    obtain ⟨htype, df₁, hget, h₁⟩ := get_spec hn hb h ht hr hc
    obtain ⟨df₂, hall, h₂⟩ := ih h₁
    refine ⟨df₂, ?_, h₂⟩
    have hcol : df.schema.colType q.1 = some cell.type := by rwa [Schema.colType, h.schema]
    simp only [getAll, hcol, hget, hall, Option.bind_eq_bind, Option.bind_some]
    rfl

/-! ### On the wire -/

def bytes (df : DataFrame) : List UInt8 :=
  le 8 (UInt64.ofNat df.columns.length).toNat ++ (df.columns.flatMap Column.bytes ++
    (df.key.bytes ++ (df.schema.bytes ++ df.key.bytes)))

theorem writes_serialize {df : DataFrame} (hs : df.schema.Ok)
    (hc : ∀ col ∈ df.columns, col.type ≠ .Field) : Writes (serialize df) (bytes df) :=
  (writes_writeLE 8 _).bind ((Writes.forM df.columns fun col hcol =>
    Column.writes_serialize (hc col hcol)).bind (df.key.writes_serialize.bind
      ((Schema.writes_serialize hs).bind df.key.writes_serialize)))

theorem type_of_mem_columnsFrom {args : Args} {base : Key} {rows : List (List Cell)}
    {types : List DataType} {i : Nat} {col : Column}
    (h : col ∈ columnsFrom args base rows i types) :
    ∃ t c, t ∈ types ∧ col = Column.filled args base t c (colOf rows c) := by
  obtain ⟨⟨t, c⟩, hmem, rfl⟩ := List.mem_map.mp h
  exact ⟨t, c, List.fst_mem_of_mem_zipIdx hmem, rfl⟩

/-- **A dataframe comes back from its bytes, unread.** -/
theorem reads_deserialize_uncached {df : DataFrame} (hs : df.schema.Ok)
    (hlen : df.columns.length < 2 ^ 64)
    (hc : ∀ col ∈ df.columns, col.type ≠ .Field ∧ col.blocks.length < 2 ^ 64) :
    Reads deserialize df.bytes { df with columns := df.columns.map Column.uncached } := by
  have hwidth : (UInt64.ofNat df.columns.length).toNat = df.columns.length :=
    UInt64.toNat_ofNat_of_lt' hlen
  have hcols := Reads.readTimes (m := Column.deserialize) (g := Column.uncached) Column.bytes
    df.columns fun col hcol => Column.reads_deserialize (hc col hcol).1 (hc col hcol).2
  refine (reads_readSizeT _).bind ?_
  rw [hwidth]
  exact hcols.bind ((Key.reads_deserialize _).bind ((Schema.reads_deserialize hs).bind
    ((Key.reads_deserialize _).map (Reads.pure _))))

/-- **A dataframe that has not been read comes back from its bytes.** -/
theorem reads_deserialize {args : Args} {base : Key} {types : List DataType}
    {rows : List (List Cell)} {capCols : SizeT} {key : Key}
    (hs : (frame args base types rows capCols key).schema.Ok) (hr : rows.length < 2 ^ 64) :
    Reads deserialize (frame args base types rows capCols key).bytes
      (frame args base types rows capCols key) := by
  have hlen : (columnsFrom args base rows 0 types).length < 2 ^ 64 := by
    rw [columnsFrom, List.length_map, List.length_zipIdx]
    exact Schema.width_lt hs
  have hread := reads_deserialize_uncached hs hlen fun col hcol => by
    obtain ⟨t, c, ht, rfl⟩ := type_of_mem_columnsFrom hcol
    exact ⟨hs.typed t ht, Column.length_filled_lt (by rwa [length_colOf])⟩
  have hcols : (columnsFrom args base rows 0 types).map Column.uncached =
      columnsFrom args base rows 0 types := by
    refine (List.map_congr_left fun col hcol => ?_).trans (List.map_id _)
    obtain ⟨t, c, -, rfl⟩ := type_of_mem_columnsFrom hcol
    rfl
  have heq : { frame args base types rows capCols key with
      columns := (frame args base types rows capCols key).columns.map Column.uncached } =
        frame args base types rows capCols key := by
    show DataFrame.mk ((columnsFrom args base rows 0 types).map Column.uncached) _ _ = _
    rw [hcols]
    rfl
  rwa [heq] at hread

end DataFrame

end Eau2
