import Eau2.Dataframe.DataFrame

/-!
# Filling a dataframe row by row

`DataFrame::visit` and `addRowChunk_`.  Rows are collected in an array of
`args.blockSize` rows that are used again and again; when it is full, and once more at
the end, its rows are appended column by column.  The loop carries the rows that are
in the columns (`written`, full chunks), the rows that are waiting in the array
(`pending`), and behind them rows with nothing set.

* `addRowChunk_spec`: the waiting rows become rows of the dataframe.
* `visitLoop_spec`: **a writer that fills `rows` makes the dataframe that holds them**.
* `emits_of_visitLoop`: a loop that ends was driven by a writer that set every column
  of every row.
-/

namespace Eau2

namespace DataFrame

/-- The loop of `addRowChunk_` over the columns, from column `i` on. -/
def chunkColumns (args : Args) (rowChunk : List Row) (numRowsInChunk : Nat) :
    Nat → List DataType → List Column → Option (List Column × List Put)
  | _, [], columns => some (columns, [])
  | _, _ :: _, [] => none
  | i, colType :: types, column :: columns => do
    let vals ← (rowChunk.take numRowsInChunk).mapM fun r => r.get colType i
    let (column, puts) ← column.addAll args colType vals i
    let (columns, puts') ← chunkColumns args rowChunk numRowsInChunk (i + 1) types columns
    pure (column :: columns, puts ++ puts')

/-- `addRowChunk_`; a row behind the end of the array exits. -/
def addRowChunk_ (args : Args) (rowChunk : List Row) (numRowsInChunk : Nat) (df : DataFrame) :
    Option (DataFrame × List Put) :=
  if numRowsInChunk ≤ rowChunk.length then do
    let (columns, puts) ← chunkColumns args rowChunk numRowsInChunk 0 df.schema.types df.columns
    pure (⟨columns, df.schema.addRows (UInt64.ofNat numRowsInChunk), df.key⟩, puts)
  else none

/-- The head of the loop of `visit`: a full array is appended and its rows are cleared. -/
def flush (args : Args) (rowChunk : List Row) (idxInCurBlock : Nat) (df : DataFrame) :
    Option (List Row × Nat × DataFrame × List Put) :=
  if idxInCurBlock = args.blockSize.toNat then do
    let (df, puts) ← df.addRowChunk_ args rowChunk idxInCurBlock
    pure (rowChunk.map Row.clear, 0, df, puts)
  else some (rowChunk, idxInCurBlock, df, [])

/-- The loop of `visit`, bounded by its first argument. -/
def visitLoop {σ : Type} (args : Args) (wr : Writer σ) :
    Nat → σ → List Row → Nat → SizeT → DataFrame → Option (DataFrame × List Put)
  | 0, _, _, _, _, _ => none
  | fuel + 1, s, rowChunk, idxInCurBlock, rowIdx, df => do
    let (done, s) ← wr.done s
    if done then
      if 0 < idxInCurBlock then df.addRowChunk_ args rowChunk idxInCurBlock
      else pure (df, [])
    else
      let (rowChunk, idxInCurBlock, df, puts) ← flush args rowChunk idxInCurBlock df
      let row ← rowChunk[idxInCurBlock]?
      let (s, row) ← wr.visit s (row.setIdx rowIdx)
      let (df, puts') ← visitLoop args wr fuel s (rowChunk.set idxInCurBlock row)
        (idxInCurBlock + 1) (rowIdx + 1) df
      pure (df, puts ++ puts')

def visit {σ : Type} (args : Args) (wr : Writer σ) (fuel : Nat) (s : σ) (df : DataFrame) :
    Option (DataFrame × List Put) := do
  let row ← Row.new df.schema
  visitLoop args wr fuel s (List.replicate args.blockSize.toNat row) 0 0 df

/-! ### The rows of a chunk -/

theorem mapM_get {types : List DataType} {rows : List Row} {chunk : List (List Cell)}
    (hset : List.Forall₂ Row.IsSet rows chunk) (ht : Typed types chunk) {i : Nat} {t : DataType}
    (hi : types[i]? = some t) : rows.mapM (fun r => r.get t i) = some (colOf chunk i) := by
  rw [mapM_eq_some_iff]
  induction hset with
  | nil => exact List.Forall₂.nil
  | @cons r cells rows chunk hr hrest ih =>
    refine List.Forall₂.cons ?_ (ih fun cells' hmem => ht cells' (List.mem_cons_of_mem _ hmem))
    obtain ⟨hc, htype⟩ := ht.getD List.mem_cons_self hi
    obtain ⟨hlt, hget⟩ := List.getElem?_eq_some_iff.mp hc
    have := hr.get hlt
    rwa [hget, htype] at this

/-- **The rows of a chunk are appended to every column.** -/
theorem chunkColumns_spec {args : Args} (hn : args.numNodes ≠ 0) (hb : args.blockSize ≠ 0)
    (base : Key) {types : List DataType} {written chunk : List (List Cell)} {k : Nat}
    (hk : written.length = k * args.blockSize.toNat) {rowChunk : List Row} {n : Nat}
    (hset : List.Forall₂ Row.IsSet (rowChunk.take n) chunk) (ht : Typed types chunk) {i : Nat}
    (ts : List DataType) (hts : ∀ (j : Nat) (t : DataType), ts[j]? = some t →
      types[i + j]? = some t) :
    ∃ puts, chunkColumns args rowChunk n i ts (columnsFrom args base written i ts) =
        some (columnsFrom args base (written ++ chunk) i ts, puts) ∧
      ∀ p, p ∈ putsFrom args base (written ++ chunk) i ts ↔
        p ∈ putsFrom args base written i ts ∨ p ∈ puts := by
  induction ts generalizing i with
  | nil => exact ⟨[], rfl, fun p => by simp [putsFrom]⟩
  | cons t ts ih =>
    obtain ⟨puts', hrec, hmem'⟩ := ih (i := i + 1) (by
      intro j t' hj
      rw [Nat.add_assoc, Nat.add_comm 1 j]
      exact hts (j + 1) t' (by rwa [List.getElem?_cons_succ]))
    obtain ⟨puts, hadd, hputs⟩ := Column.addAll_filled hn hb base t i (k := k)
      (colOf written i) (by rw [length_colOf, hk]) (colOf chunk i)
    have hi : types[i]? = some t := hts 0 t rfl
    refine ⟨puts ++ puts', ?_, ?_⟩
    · simp only [columnsFrom] at hrec
      simp only [columnsFrom, List.zipIdx_cons, List.map_cons, chunkColumns, mapM_get hset ht hi,
        Option.bind_eq_bind, Option.bind_some, hadd, hrec, colOf_append]
      rfl
    · intro p
      simp only [putsFrom, List.zipIdx_cons, List.flatMap_cons, List.mem_append] at hmem' ⊢
      rw [hmem', colOf_append, hputs, List.mem_append]
      tauto

/-- **The waiting rows become rows of the dataframe.** -/
theorem addRowChunk_spec {args : Args} (hn : args.numNodes ≠ 0) (hb : args.blockSize ≠ 0)
    (base : Key) {types : List DataType} {written chunk : List (List Cell)} {k : Nat}
    (hk : written.length = k * args.blockSize.toNat) {rows : List Row} (rest : List Row)
    (hset : List.Forall₂ Row.IsSet rows chunk) (ht : Typed types chunk) (capCols : SizeT)
    (key : Key) :
    ∃ puts, addRowChunk_ args (rows ++ rest) chunk.length
        (frame args base types written capCols key) =
          some (frame args base types (written ++ chunk) capCols key, puts) ∧
      ∀ p, p ∈ framePuts args base types (written ++ chunk) ↔
        p ∈ framePuts args base types written ∨ p ∈ puts := by
  have hlen : rows.length = chunk.length := hset.length_eq
  have htake : (rows ++ rest).take chunk.length = rows := by rw [← hlen, List.take_left]
  have hset' : List.Forall₂ Row.IsSet ((rows ++ rest).take chunk.length) chunk := by
    rwa [htake]
  obtain ⟨puts, hcols, hmem⟩ := chunkColumns_spec hn hb base hk hset' ht (i := 0) types
    (fun j t hj => by rwa [Nat.zero_add])
  refine ⟨puts, ?_, hmem⟩
  rw [addRowChunk_, if_pos (by rw [List.length_append]; omega)]
  show (chunkColumns args _ _ 0 types (columnsFrom args base written 0 types)).bind _ = _
  rw [hcols]
  show some (_, _) = some (_, _)
  congr 2
  simp only [frame, Schema.addRows, List.length_append, UInt64.ofNat_add]

/-- Rows that are in the array: set, over the writer's schema. -/
def Waiting (scm : Schema) : List Row → List (List Cell) → Prop :=
  List.Forall₂ fun r cells => r.scm = scm ∧ r.IsSet cells

theorem Waiting.isSet {scm : Schema} {rows : List Row} {pending : List (List Cell)}
    (h : Waiting scm rows pending) : List.Forall₂ Row.IsSet rows pending :=
  h.imp fun _ _ => And.right

theorem Waiting.scm_eq {scm : Schema} {rows : List Row} {pending : List (List Cell)}
    (h : Waiting scm rows pending) : ∀ r ∈ rows, r.scm = scm := by
  induction h with
  | nil => simp
  | cons hr hrest ih => exact List.forall_mem_cons.mpr ⟨hr.1, ih⟩

theorem map_clear {scm : Schema} {rows : List Row} (h : ∀ r ∈ rows, r.scm = scm) :
    rows.map Row.clear = List.replicate rows.length (Row.unset scm 0) := by
  refine List.eq_replicate_iff.mpr ⟨List.length_map _, fun r hr => ?_⟩
  obtain ⟨r', hr', rfl⟩ := List.mem_map.mp hr
  rw [Row.clear, h r' hr']

/-- The array of `visit`: the waiting rows, and cleared ones behind them. -/
def rowArray (args : Args) (scm : Schema) (rows : List Row) : List Row :=
  rows ++ List.replicate (args.blockSize.toNat - rows.length) (Row.unset scm 0)

theorem rowArray_next {args : Args} (scm : Schema) {rows : List Row}
    (h : rows.length < args.blockSize.toNat) :
    (rowArray args scm rows)[rows.length]? = some (Row.unset scm 0) := by
  rw [rowArray, List.getElem?_append_right (Nat.le_refl _), Nat.sub_self, List.getElem?_replicate,
    if_pos (by omega)]

theorem rowArray_set {args : Args} (scm : Schema) {rows : List Row}
    (h : rows.length < args.blockSize.toNat) (r : Row) :
    (rowArray args scm rows).set rows.length r = rowArray args scm (rows ++ [r]) := by
  rw [rowArray, rowArray, List.set_append_right _ _ (Nat.le_refl _), Nat.sub_self,
    List.append_assoc, List.length_append, List.length_singleton]
  congr 1
  obtain ⟨d, hdiff⟩ : ∃ d, args.blockSize.toNat - rows.length = d + 1 :=
    ⟨args.blockSize.toNat - rows.length - 1, by omega⟩
  rw [hdiff, List.replicate_succ, List.set_cons_zero,
    show args.blockSize.toNat - (rows.length + 1) = d by omega]
  rfl

theorem flush_spec {args : Args} (hn : args.numNodes ≠ 0) (hb : args.blockSize ≠ 0)
    (base : Key) {types : List DataType} {scm : Schema} {written pending : List (List Cell)}
    {k : Nat} (hk : written.length = k * args.blockSize.toNat) {rows : List Row}
    (hw : Waiting scm rows pending) (hle : pending.length ≤ args.blockSize.toNat)
    (ht : Typed types pending) (capCols : SizeT) (key : Key) :
    ∃ written' pending' rows' k' puts,
      flush args (rowArray args scm rows) pending.length
          (frame args base types written capCols key) =
        some (rowArray args scm rows', pending'.length,
          frame args base types written' capCols key, puts) ∧
      written' ++ pending' = written ++ pending ∧ written'.length = k' * args.blockSize.toNat ∧
      Waiting scm rows' pending' ∧ pending'.length < args.blockSize.toNat ∧ Typed types pending' ∧
      ∀ p, p ∈ framePuts args base types written' ↔
        p ∈ framePuts args base types written ∨ p ∈ puts := by
  have hpos := toNat_pos hb
  by_cases hfull : pending.length = args.blockSize.toNat
  · obtain ⟨puts, hadd, hmem⟩ := addRowChunk_spec hn hb base hk
      (List.replicate (args.blockSize.toNat - rows.length) (Row.unset scm 0)) hw.isSet ht capCols
      key
    refine ⟨written ++ pending, [], [], k + 1, puts, ?_, List.append_nil _, ?_,
      List.Forall₂.nil, hpos, (fun cells hmem => by cases hmem), hmem⟩
    · have hlen : rows.length = args.blockSize.toNat := hw.length_eq.trans hfull
      rw [flush, if_pos hfull, rowArray, hadd, Option.bind_eq_bind, Option.bind_some]
      show some (List.map Row.clear _, _, _, _) = _
      rw [List.map_append, map_clear hw.scm_eq, hlen, Nat.sub_self, List.replicate_zero,
        List.map_nil, List.append_nil]
      rfl
    · rw [List.length_append, hk, hfull, Nat.succ_mul]
  · refine ⟨written, pending, rows, k, [], ?_, rfl, hk, hw, by omega, ht, fun p => by simp⟩
    rw [flush, if_neg hfull]

/-- **A writer that fills `rows` makes the dataframe that holds them.** -/
theorem visitLoop_spec {σ : Type} {args : Args} (hn : args.numNodes ≠ 0)
    (hb : args.blockSize ≠ 0) {wr : Writer σ} (base : Key) {scm : Schema} (capCols : SizeT)
    (key : Key) {i : SizeT} {s : σ} {rows : List (List Cell)} (h : wr.Emits scm i s rows)
    {fuel : Nat} (hf : rows.length < fuel) {written pending : List (List Cell)} {k : Nat}
    (hk : written.length = k * args.blockSize.toNat) {waiting : List Row}
    (hw : Waiting scm waiting pending) (hle : pending.length ≤ args.blockSize.toNat)
    (ht : Typed scm.types pending) :
    ∃ puts, visitLoop args wr fuel s (rowArray args scm waiting) pending.length i
        (frame args base scm.types written capCols key) =
          some (frame args base scm.types (written ++ pending ++ rows) capCols key, puts) ∧
      ∀ p, p ∈ framePuts args base scm.types (written ++ pending ++ rows) ↔
        p ∈ framePuts args base scm.types written ∨ p ∈ puts := by
  have htypes := h.types
  induction h generalizing fuel written pending k waiting with
  | done i s s' hd =>
    obtain ⟨fuel, rfl⟩ : ∃ f, fuel = f + 1 := ⟨fuel - 1, by omega⟩
    have hend : visitLoop args wr (fuel + 1) s (rowArray args scm waiting) pending.length i
        (frame args base scm.types written capCols key) =
          if 0 < pending.length then
            addRowChunk_ args (rowArray args scm waiting) pending.length
              (frame args base scm.types written capCols key)
          else some (frame args base scm.types written capCols key, []) := by
      rw [visitLoop, hd]
      rfl
    rw [List.append_nil, hend]
    by_cases hpos : 0 < pending.length
    · obtain ⟨puts, hadd, hmem⟩ := addRowChunk_spec hn hb base hk
        (List.replicate (args.blockSize.toNat - waiting.length) (Row.unset scm 0)) hw.isSet ht
        capCols key
      exact ⟨puts, (if_pos hpos).trans hadd, hmem⟩
    · have hnil : pending = [] := List.length_eq_zero_iff.mp (by omega)
      subst hnil
      refine ⟨[], ?_, fun p => by simp⟩
      rw [if_neg hpos, List.append_nil]
  | visit i s s₁ s₂ r cells rows hd hv hset hrest ih =>
    obtain ⟨fuel, rfl⟩ : ∃ f, fuel = f + 1 := ⟨fuel - 1, by omega⟩
    obtain ⟨written', pending', waiting', k', puts, hflush, happ, hk', hw', hlt, ht', hmem⟩ :=
      flush_spec hn hb base hk hw hle ht capCols key
    have hlen : waiting'.length = pending'.length := hw'.length_eq
    have hroom : waiting'.length < args.blockSize.toNat := by rwa [hlen]
    have hnext := rowArray_next scm hroom
    have hfill := rowArray_set scm hroom r
    rw [hlen] at hnext hfill
    have hscm : r.scm = scm := wr.scm_eq _ _ _ _ hv
    have hpend : (pending' ++ [cells]).length = pending'.length + 1 := by
      rw [List.length_append]
      rfl
    have hw'' : Waiting scm (waiting' ++ [r]) (pending' ++ [cells]) :=
      List.rel_append hw' (List.Forall₂.cons ⟨hscm, hset⟩ List.Forall₂.nil)
    obtain ⟨puts', hloop, hmem'⟩ := ih (Nat.lt_of_succ_lt_succ hf) hk' hw''
      (by rw [hpend]; omega)
      (fun cells' hc => by
        rcases List.mem_append.mp hc with hc | hc
        · exact ht' cells' hc
        · rw [List.mem_singleton.mp hc]
          exact htypes cells List.mem_cons_self)
      (fun cells' hc => htypes cells' (List.mem_cons_of_mem _ hc))
    have hrows : written' ++ (pending' ++ [cells]) ++ rows =
        written ++ pending ++ cells :: rows := by
      rw [← List.append_assoc, happ, List.append_assoc, List.singleton_append]
    rw [hrows] at hloop hmem'
    refine ⟨puts ++ puts', ?_, ?_⟩
    · rw [visitLoop, hd, Option.bind_eq_bind, Option.bind_some]
      show (flush args _ _ _).bind _ = _
      rw [hflush]
      show ((rowArray args scm waiting')[pending'.length]?).bind _ = _
      rw [hnext]
      show (wr.visit s₁ (Row.unset scm i)).bind _ = _
      rw [hv]
      show (visitLoop args wr fuel s₂ ((rowArray args scm waiting').set pending'.length r)
        (pending'.length + 1) (i + 1) _).bind _ = _
      rw [hfill, ← hpend, hloop]
      rfl
    · intro p
      rw [hmem', hmem, List.mem_append]
      tauto

/-- **`visit` fills a new dataframe with the rows of the writer.** -/
theorem visit_spec {σ : Type} {args : Args} (hn : args.numNodes ≠ 0) (hb : args.blockSize ≠ 0)
    {wr : Writer σ} (base : Key) {types : List DataType} {capCols : SizeT} (key : Key) {s : σ}
    {rows : List (List Cell)} (hok : (Schema.mk types capCols 0).Ok)
    (h : wr.Emits (Schema.ofCols types) 0 s rows) {fuel : Nat} (hf : rows.length < fuel) :
    ∃ puts, visit args wr fuel s (frame args base types [] capCols key) =
        some (frame args base types rows capCols key, puts) ∧
      ∀ p, p ∈ framePuts args base types rows ↔ p ∈ puts := by
  have hk : ([] : List (List Cell)).length = 0 * args.blockSize.toNat := by simp
  obtain ⟨puts, hloop, hmem⟩ := visitLoop_spec hn hb base capCols key h hf hk List.Forall₂.nil
    (Nat.zero_le _) (fun cells hc => by cases hc)
  refine ⟨puts, ?_, fun p => ?_⟩
  · have hcopy : (Schema.mk types capCols 0).copy = some (Schema.ofCols types) := Schema.copy_eq hok
    have hschema : (frame args base types [] capCols key).schema = ⟨types, capCols, 0⟩ := rfl
    rw [visit, Row.new, hschema, hcopy]
    exact hloop
  · refine (hmem p).trans (or_iff_right fun hp => ?_)
    rw [framePuts, putsFrom_nil hb] at hp
    cases hp

/-! ### Loops that end -/

theorem get_of_chunkColumns {args : Args} {rowChunk : List Row} {n i : Nat}
    {types : List DataType} {columns : List Column} {r : List Column × List Put}
    (h : chunkColumns args rowChunk n i types columns = some r) {j : Nat} {t : DataType}
    (hj : types[j]? = some t) : ∀ row ∈ rowChunk.take n, (row.get t (i + j)).isSome := by
  induction types generalizing i j columns r with
  | nil => cases hj
  | cons t' types ih =>
    cases columns with
    | nil => cases h
    | cons column columns =>
      obtain ⟨vals, hvals, h⟩ := Option.bind_eq_some_iff.mp h
      obtain ⟨⟨column', puts⟩, -, h⟩ := Option.bind_eq_some_iff.mp h
      obtain ⟨r', hrec, -⟩ := Option.bind_eq_some_iff.mp h
      cases j with
      | zero =>
        cases hj
        exact fun row hrow => isSome_of_mapM hvals hrow
      | succ j =>
        rw [Nat.add_comm j 1, ← Nat.add_assoc]
        exact ih hrec (by rwa [List.getElem?_cons_succ] at hj)

theorem isSet_of_addRowChunk {args : Args} {rows rest : List Row} {df : DataFrame}
    {r : DataFrame × List Put} (h : addRowChunk_ args (rows ++ rest) rows.length df = some r)
    (hscm : ∀ row ∈ rows, row.scm.types = df.schema.types) :
    r.1.schema.types = df.schema.types ∧ ∀ row ∈ rows, ∃ cells, row.IsSet cells := by
  rw [addRowChunk_] at h
  split at h
  · obtain ⟨⟨columns, puts⟩, hcols, h⟩ := Option.bind_eq_some_iff.mp h
    cases h
    refine ⟨rfl, fun row hrow => Row.isSet_of_get fun i t ht => ?_⟩
    rw [hscm row hrow] at ht
    have := get_of_chunkColumns hcols ht row (by rwa [List.take_left])
    rwa [Nat.zero_add] at this
  · cases h

theorem rows_of_flush {args : Args} (hb : args.blockSize ≠ 0) {scm : Schema} {rows : List Row}
    {df : DataFrame} {r : List Row × Nat × DataFrame × List Put}
    (h : flush args (rowArray args scm rows) rows.length df = some r)
    (hscm : ∀ row ∈ rows, row.scm = scm) (htypes : df.schema.types = scm.types)
    (hle : rows.length ≤ args.blockSize.toNat) :
    ∃ rows', r.1 = rowArray args scm rows' ∧ r.2.1 = rows'.length ∧
      rows'.length < args.blockSize.toNat ∧ (∀ row ∈ rows', row.scm = scm) ∧
      r.2.2.1.schema.types = scm.types ∧
      ((∀ row ∈ rows', ∃ cells, row.IsSet cells) → ∀ row ∈ rows, ∃ cells, row.IsSet cells) := by
  rw [flush] at h
  split at h
  · rename_i hfull
    obtain ⟨⟨df', puts⟩, hadd, h⟩ := Option.bind_eq_some_iff.mp h
    cases h
    obtain ⟨ht, hset⟩ := isSet_of_addRowChunk hadd fun row hrow => by rw [hscm row hrow, htypes]
    refine ⟨[], ?_, rfl, toNat_pos hb, by simp, ht.trans htypes, fun _ => hset⟩
    show (rowArray args scm rows).map Row.clear = _
    rw [rowArray, List.map_append, map_clear hscm, hfull, Nat.sub_self, List.replicate_zero,
      List.map_nil, List.append_nil]
    rfl
  · cases h
    exact ⟨rows, rfl, rfl, by omega, hscm, htypes, id⟩

/-- **A loop that ends was driven by a writer that sets every column of every row.** -/
theorem emits_of_visitLoop {σ : Type} {args : Args} (hb : args.blockSize ≠ 0) {wr : Writer σ}
    {scm : Schema} {fuel : Nat} {s : σ} {rows : List Row} {i : SizeT} {df : DataFrame}
    {r : DataFrame × List Put}
    (h : visitLoop args wr fuel s (rowArray args scm rows) rows.length i df = some r)
    (hscm : ∀ row ∈ rows, row.scm = scm) (htypes : df.schema.types = scm.types)
    (hle : rows.length ≤ args.blockSize.toNat) :
    (∀ row ∈ rows, ∃ cells, row.IsSet cells) ∧
      ∃ emitted, wr.Emits scm i s emitted ∧ emitted.length < fuel := by
  induction fuel generalizing s rows i df r with
  | zero => cases h
  | succ fuel ih =>
    rw [visitLoop] at h
    obtain ⟨⟨done, s₁⟩, hd, h⟩ := Option.bind_eq_some_iff.mp h
    cases done with
    | true =>
      refine ⟨?_, [], Writer.Emits.done i s s₁ hd, Nat.succ_pos fuel⟩
      replace h : (if 0 < rows.length then df.addRowChunk_ args (rowArray args scm rows)
        rows.length else some (df, [])) = some r := h
      split at h
      · exact (isSet_of_addRowChunk h fun row hrow => by rw [hscm row hrow, htypes]).2
      · have hnil : rows = [] := List.length_eq_zero_iff.mp (by omega)
        simp [hnil]
    | false =>
      obtain ⟨⟨rowChunk, idx, df₁, puts⟩, hflush, h⟩ := Option.bind_eq_some_iff.mp h
      obtain ⟨rows', hchunk, hidx, hlt, hscm', htypes', hset⟩ :=
        rows_of_flush hb hflush hscm htypes hle
      dsimp only at hchunk hidx htypes' h
      subst hchunk hidx
      obtain ⟨row, hrow, h⟩ := Option.bind_eq_some_iff.mp h
      rw [rowArray_next scm hlt] at hrow
      cases hrow
      obtain ⟨⟨s₂, row'⟩, hv, h⟩ := Option.bind_eq_some_iff.mp h
      obtain ⟨r', hloop, -⟩ := Option.bind_eq_some_iff.mp h
      dsimp only at hloop
      rw [rowArray_set scm hlt] at hloop
      have hlen : rows'.length + 1 = (rows' ++ [row']).length := by rw [List.length_append]; rfl
      rw [hlen] at hloop
      have hscm₂ : row'.scm = scm := wr.scm_eq _ _ _ _ hv
      obtain ⟨hall, emitted, hemits, hfuel⟩ := ih hloop
        (fun r hr => by
          rcases List.mem_append.mp hr with hr | hr
          · exact hscm' r hr
          · rwa [List.mem_singleton.mp hr]) htypes' (by rw [← hlen]; omega)
      obtain ⟨cells, hcells⟩ := hall row' (List.mem_append_right _ List.mem_cons_self)
      exact ⟨hset fun r hr => hall r (List.mem_append_left _ hr), cells :: emitted,
        Writer.Emits.visit i s s₁ s₂ row' cells emitted hd hv hcells hemits,
        Nat.succ_lt_succ hfuel⟩

theorem emits_of_visit {σ : Type} {args : Args} (hb : args.blockSize ≠ 0) {wr : Writer σ}
    {fuel : Nat} {s : σ} {df : DataFrame} (hok : df.schema.Ok) {r : DataFrame × List Put}
    (h : visit args wr fuel s df = some r) :
    ∃ emitted, wr.Emits (Schema.ofCols df.schema.types) 0 s emitted ∧ emitted.length < fuel := by
  obtain ⟨row, hrow, h⟩ := Option.bind_eq_some_iff.mp h
  rw [Row.new, Schema.copy_eq hok] at hrow
  cases hrow
  have hnone : ∀ r ∈ ([] : List Row), r.scm = Schema.ofCols df.schema.types := by simp
  exact (emits_of_visitLoop hb h hnone rfl (Nat.zero_le _)).2

end DataFrame

end Eau2
