import Eau2.Dataframe.Append
import Eau2.Dataframe.Build

/-!
# The position of a column

`add_all` is told the index of the column, a column array takes it from the position of
the column, and both go into the block keys.

* `get_same`, `get_other`: a column that was filled as column `c` shows its elements at
  position `c`; at another position it asks for keys of its base key that it never put.
* `position_iff`: a column that is added to a column array or a dataframe gives its
  elements back, whatever else is in the store, exactly when the two agree or it is empty.
-/

namespace Eau2

/-- `colList_`, with the methods that do not look at the key. -/
abbrev ColumnArray := List Column

namespace ColumnArray

def addColumn (c : Column) (ca : ColumnArray) : ColumnArray := ca ++ [c]

/-- `get_int`, `get_bool`, `get_double` and `get_string`; a column out of bounds exits. -/
def get (args : Args) (store : Store) (t : DataType) (col row : Nat) (ca : ColumnArray) :
    Option (Cell × ColumnArray) := do
  let c ← ca[col]?
  let (cell, c) ← c.get args store t row col
  pure (cell, ca.set col c)

end ColumnArray

def storeOf (puts : List Put) : Store := fun k => (puts.find? fun p => p.1 = k).map Prod.snd

theorem storeOf_eq_none {puts : List Put} {k : Key} (h : ∀ p ∈ puts, p.1 ≠ k) :
    storeOf puts k = none := by
  have hfind : puts.find? (fun p => p.1 = k) = none := by
    rw [List.find?_eq_none]
    intro p hp
    simpa using h p hp
  rw [storeOf, hfind]
  rfl

theorem storeOf_eq_some {puts : List Put} {p : Put} (hp : p ∈ puts)
    (h : ∀ q ∈ puts, q.1 = p.1 → q = p) : storeOf puts p.1 = some p.2 := by
  cases hfind : puts.find? fun q => q.1 = p.1 with
  | none =>
    have hne := List.find?_eq_none.mp hfind p hp
    simp at hne
  | some q =>
    have heq : q.1 = p.1 := by simpa using List.find?_some hfind
    rw [storeOf, hfind, ← h q (List.mem_of_find?_eq_some hfind) heq]
    rfl

namespace Column

variable {args : Args} {baseKey : Key} {t : DataType} {c : Nat} {vals : List Cell}

theorem addAll_new (hn : args.numNodes ≠ 0) (hb : args.blockSize ≠ 0) (baseKey : Key)
    (t : DataType) (c : Nat) (vals : List Cell) :
    addAll args t vals c (new baseKey t) =
      some (filled args baseKey t c vals, colPuts args baseKey t c vals) := by
  have hempty : ([] : List Cell).length = 0 * args.blockSize.toNat := by simp
  obtain ⟨puts, hadd, hputs⟩ := addAll_filled hn hb baseKey t c [] hempty vals
  have hnone : colPuts args baseKey t c [] = [] := by
    rw [colPuts, blockCount, List.length_nil, Chunk.count_zero (toNat_pos hb)]
    rfl
  rw [List.nil_append, hnone, List.nil_append] at hputs
  rw [filled_nil hb, List.nil_append] at hadd
  rw [hadd, hputs]

theorem storeOf_colPuts {p : Put} (hp : p ∈ colPuts args baseKey t c vals) :
    storeOf (colPuts args baseKey t c vals) p.1 = some p.2 := by
  refine storeOf_eq_some hp fun q hq he => ?_
  obtain ⟨b, -, rfl⟩ := List.mem_map.mp hp
  obtain ⟨b', -, rfl⟩ := List.mem_map.mp hq
  obtain ⟨-, rfl⟩ : c = c ∧ b' = b := blockKey_inj he
  rfl

/-- **At another position nothing of the column is found.** -/
theorem get_other (hn : args.numNodes ≠ 0) (hb : args.blockSize ≠ 0) {p : Nat} (hp : p ≠ c)
    (r : Nat) :
    get args (storeOf (colPuts args baseKey t c vals)) t r p (filled args baseKey t c vals) =
      none := by
  have hnone : storeOf (colPuts args baseKey t c vals)
      (blockKey args baseKey p (r / args.blockSize.toNat)) = none := by
    refine storeOf_eq_none fun q hq he => ?_
    obtain ⟨b, -, rfl⟩ := List.mem_map.mp hq
    exact hp (blockKey_inj (b := b) he).1.symm
  have htype : (filled args baseKey t c vals).type = t := rfl
  rw [get, if_neg (not_not.mpr htype), if_neg hb]
  show (genKey_ args baseKey _ p).bind _ = none
  rw [genKey_eq hn, Option.bind_some, DistributedArray.getItem, DistributedArray.fetch,
    DistributedArray.getBlockFromStore_, hnone]
  rfl

end Column

variable {args : Args} {baseKey : Key} {t : DataType} {c : Nat} {vals : List Cell}

/-- The column at position `p` gives `vals` back, whatever else is in the store. -/
def ColumnArray.Gives (args : Args) (t : DataType) (puts : List Put) (vals : List Cell) (p : Nat)
    (ca : ColumnArray) : Prop :=
  ∀ store : Store, (∀ q ∈ puts, store q.1 = some q.2) →
    ReadsBack (fun ca r => ColumnArray.get args store t p r ca) vals ca

def DataFrame.Gives (args : Args) (t : DataType) (puts : List Put) (vals : List Cell) (p : Nat)
    (df : DataFrame) : Prop :=
  ∀ store : Store, (∀ q ∈ puts, store q.1 = some q.2) →
    ReadsBack (fun df r => DataFrame.get args store t p r df) vals df

namespace ColumnArray

theorem get_same (hn : args.numNodes ≠ 0) (hb : args.blockSize ≠ 0) {store : Store}
    {ca : ColumnArray} {col : Column} (hcol : ca[c]? = some col)
    (h : Column.Shows args store t c vals col) {r : Nat} (hr : r < vals.length) :
    ∃ col', get args store t c r ca = some (vals[r], ca.set c col') ∧
      Column.Shows args store t c vals col' := by
  obtain ⟨col', hget, h'⟩ := Column.get_spec hn hb h hr
  refine ⟨col', ?_, h'⟩
  rw [get, hcol]
  show (col.get args store t r c).bind _ = _
  rw [hget]
  rfl

/-- **A column at position `p` that was filled as column `c`.** -/
theorem gives_iff (hn : args.numNodes ≠ 0) (hb : args.blockSize ≠ 0) (baseKey : Key)
    (ht : ∀ x ∈ vals, x.type = t) {ca : ColumnArray} {p : Nat}
    (hp : ca[p]? = some (Column.filled args baseKey t c vals)) :
    Gives args t (Column.colPuts args baseKey t c vals) vals p ca ↔ p = c ∨ vals = [] := by
  constructor
  · intro h
    by_contra hc
    obtain ⟨hne, hvals⟩ := not_or.mp hc
    have hpos := List.length_pos_of_ne_nil hvals
    obtain ⟨ca', hget⟩ := (h _ fun q hq => Column.storeOf_colPuts hq).read hpos
    replace hget : get args _ t p 0 ca = _ := hget
    rw [get, hp] at hget
    obtain ⟨col, hcol, hget⟩ := Option.bind_eq_some_iff.mp hget
    cases hcol
    obtain ⟨x, hx, -⟩ := Option.bind_eq_some_iff.mp hget
    rw [Column.get_other hn hb hne 0] at hx
    cases hx
  · intro h store hstore
    rcases h with rfl | rfl
    · refine readsBack_of_invariant
        (I := fun ca => ∃ col, ca[p]? = some col ∧ Column.Shows args store t p vals col) ?_
        ⟨_, hp, Column.shows_filled ht hstore⟩
      rintro ca ⟨col, hcol, hshows⟩ r hr
      obtain ⟨col', hget, hshows'⟩ := get_same hn hb hcol hshows hr
      refine ⟨ca.set p col', hget, col', ?_, hshows'⟩
      exact List.getElem?_set_self (List.getElem?_eq_some_iff.mp hcol).1
    · intro is his
      cases is with
      | nil => exact ⟨[], ca, rfl, rfl⟩
      | cons i is => exact absurd (his i List.mem_cons_self) (Nat.not_lt_zero i)

end ColumnArray

theorem DataFrame.get_eq (args : Args) (store : Store) (t : DataType) (col row : Nat)
    (df : DataFrame) :
    df.get args store t col row = (ColumnArray.get args store t col row df.columns).map fun x =>
      (x.1, { df with columns := x.2 }) := by
  unfold DataFrame.get ColumnArray.get
  cases df.columns[col]? with
  | none => rfl
  | some c => cases hget : c.get args store t row col <;> simp [hget]

theorem DataFrame.serve_get (args : Args) (store : Store) (t : DataType) (p : Nat)
    (df : DataFrame) (rs : List Nat) :
    serve (fun df r => DataFrame.get args store t p r df) df rs =
      (serve (fun ca r => ColumnArray.get args store t p r ca) df.columns rs).map fun x =>
        (x.1, { df with columns := x.2 }) := by
  induction rs generalizing df with
  | nil => rfl
  | cons r rs ih =>
    unfold serve
    rw [DataFrame.get_eq]
    cases ColumnArray.get args store t p r df.columns with
    | none => rfl
    | some x =>
      show (serve _ _ rs).bind _ = Option.map _ ((serve _ _ rs).bind _)
      rw [ih]
      show (Option.map _ (serve _ x.2 rs)).bind _ = _
      cases serve (fun ca r => ColumnArray.get args store t p r ca) x.2 rs <;> rfl

theorem DataFrame.gives_iff_columns (args : Args) (t : DataType) (puts : List Put)
    (vals : List Cell) (p : Nat) (df : DataFrame) :
    df.Gives args t puts vals p ↔ ColumnArray.Gives args t puts vals p df.columns := by
  refine forall₂_congr fun store _ => forall₂_congr fun rs _ => ?_
  rw [DataFrame.serve_get]
  constructor
  · rintro ⟨cells, df', h, hcells⟩
    obtain ⟨x, hx, he⟩ := Option.map_eq_some_iff.mp h
    cases he
    exact ⟨x.1, x.2, hx, hcells⟩
  · rintro ⟨cells, ca, h, hcells⟩
    refine ⟨cells, { df with columns := ca }, ?_, hcells⟩
    rw [h]
    rfl

theorem DataFrame.addColumn_columns {col : Column} {df df' : DataFrame}
    (h : df.addColumn col = some df') : df'.columns = df.columns ++ [col] := by
  obtain ⟨-, h⟩ := Option.ite_none_right_eq_some.mp h
  obtain ⟨type, -, h⟩ := Option.bind_eq_some_iff.mp h
  obtain ⟨schema, -, h⟩ := Option.bind_eq_some_iff.mp h
  cases h
  rfl

/-- **A column that was filled as column `c` and is added as the next column of a column
array (with any columns behind it) or of a dataframe gives its elements back at that
position, whatever else is in the store, exactly when the position is `c` or there are
no elements.** -/
theorem position_iff (hn : args.numNodes ≠ 0) (hb : args.blockSize ≠ 0) (baseKey : Key)
    (t : DataType) (c : Nat) {vals : List Cell} (ht : ∀ x ∈ vals, x.type = t) {col : Column}
    {puts : List Put} (hadd : Column.addAll args t vals c (Column.new baseKey t) = some (col, puts)) :
    (∀ ca more : ColumnArray,
      (ColumnArray.Gives args t puts vals ca.length (ColumnArray.addColumn col ca ++ more) ↔
        ca.length = c ∨ vals = [])) ∧
    ∀ df df' : DataFrame, df.addColumn col = some df' →
      (df'.Gives args t puts vals df.columns.length ↔ df.columns.length = c ∨ vals = []) := by
  rw [Column.addAll_new hn hb] at hadd
  cases hadd
  constructor
  · intro ca more
    refine ColumnArray.gives_iff hn hb baseKey ht ?_
    rw [ColumnArray.addColumn, List.append_assoc, List.getElem?_append_right (Nat.le_refl _),
      Nat.sub_self]
    rfl
  · intro df df' h
    rw [DataFrame.gives_iff_columns]
    refine ColumnArray.gives_iff hn hb baseKey ht ?_
    rw [DataFrame.addColumn_columns h, List.getElem?_append_right (Nat.le_refl _), Nat.sub_self]
    rfl

/-- One integer, filled as column 1 and added as the second column. -/
theorem position_iff_one : ∃ df df' col puts puts',
    (DataFrame.ofKey ⟨⟨[97], CStr.nulFree_a⟩, 0⟩).addArray ⟨1, 2⟩ .Integer [.int 5] =
        some (df, puts) ∧
      Column.addAll ⟨1, 2⟩ .Integer [.int 7] 1 (Column.new ⟨⟨[98], CStr.nulFree_b⟩, 0⟩ .Integer) =
        some (col, puts') ∧
      df.addColumn col = some df' ∧ df'.Gives ⟨1, 2⟩ .Integer puts' [.int 7] 1 ∧
      ColumnArray.Gives ⟨1, 2⟩ .Integer puts' [.int 7] 1
        (ColumnArray.addColumn col df.columns ++ []) := by
  have hn : (⟨1, 2⟩ : Args).numNodes ≠ 0 := by decide
  have hadd := Column.addAll_new hn (by decide) ⟨⟨[98], CStr.nulFree_b⟩, 0⟩ .Integer 1 [.int 7]
  have hsome : (do
      let p ← (DataFrame.ofKey ⟨⟨[97], CStr.nulFree_a⟩, 0⟩).addArray ⟨1, 2⟩ .Integer [.int 5]
      let _ ← p.1.addColumn (Column.filled ⟨1, 2⟩ ⟨⟨[98], CStr.nulFree_b⟩, 0⟩ .Integer 1 [.int 7])
      pure (decide (p.1.columns.length = 1))) = some true := by decide +kernel
  obtain ⟨⟨df, puts⟩, harray, hrest⟩ := Option.bind_eq_some_iff.mp hsome
  obtain ⟨df', hcolumn, hlen⟩ := Option.bind_eq_some_iff.mp hrest
  have hlen : df.columns.length = 1 := of_decide_eq_true (Option.some.inj hlen)
  obtain ⟨hca, hdf⟩ := position_iff hn (by decide) ⟨⟨[98], CStr.nulFree_b⟩, 0⟩ .Integer 1
    (by decide) hadd
  have hgives := (hdf df df' hcolumn).mpr (Or.inl hlen)
  have hgives' := (hca df.columns []).mpr (Or.inl hlen)
  rw [hlen] at hgives hgives'
  exact ⟨df, df', _, puts, _, harray, hadd, hcolumn, hgives, hgives'⟩

/-- **A column that was filled as column 0 and becomes the second column of a dataframe
is looked for under keys that are not there.** -/
theorem position_lost : ∃ df df' col puts puts',
    (DataFrame.ofKey ⟨⟨[97], CStr.nulFree_a⟩, 0⟩).addArray ⟨1, 2⟩ .Integer [.int 5] =
        some (df, puts) ∧
      Column.addAll ⟨1, 2⟩ .Integer [.int 7] 0 (Column.new ⟨⟨[98], CStr.nulFree_b⟩, 0⟩ .Integer) =
        some (col, puts') ∧
      df.addColumn col = some df' ∧
      df'.get ⟨1, 2⟩ (storeOf (puts ++ puts')) .Integer 1 0 = none := by
  refine ⟨_, _, _, _, _, rfl, rfl, rfl, ?_⟩
  exact Option.isNone_iff_eq_none.mp (by decide +kernel)

end Eau2
