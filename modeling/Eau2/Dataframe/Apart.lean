import Eau2.Dataframe.DataToDf

/-!
# Two dataframes in one store

Block keys are made by joining a key with numbers, and dataframe keys are whatever an
application chooses, so two dataframes may name the same block.  They are `Apart` when
neither's key names a block of the other, and their columns do not have base keys of one
text; the home node of a base key makes no difference to its blocks.

* `apart_iff`: dataframes share no storage key exactly when they are apart.
* `unchanged_of_apart`: then creating one changes nothing that is read through the other.
* `interference`: two dataframes that are not apart.
-/

namespace Eau2

open Bytes

namespace Column

theorem blockKey_eq_iff {args : Args} {base base' : Key} {c c' b b' : Nat} :
    blockKey args base c b = blockKey args base' c' b' ↔
      base.kStr = base'.kStr ∧ c = c' ∧ b = b' := by
  constructor
  · intro h
    exact blockKey_kStr_inj (congrArg Key.kStr h)
  · rintro ⟨hbase, rfl, rfl⟩
    rw [blockKey, blockKey, hbase]

end Column

namespace DataToDf

structure Apart (df df' : DataFrame) : Prop where
  key : ∀ col ∈ df.columns, df'.key ∉ col.blocks.keyList
  key' : ∀ col ∈ df'.columns, df.key ∉ col.blocks.keyList
  base : ∀ col ∈ df.columns, ∀ col' ∈ df'.columns,
    col.baseKey.kStr = col'.baseKey.kStr → col.blocks.keyList = [] ∨ col'.blocks.keyList = []

def IsBlockKey (args : Args) (base : Key) (types : List DataType) (rows : List (List Cell))
    (k : Key) : Prop :=
  ∃ c b, c < types.length ∧ b < chunkCount args.blockSize.toNat rows.length ∧
    Column.blockKey args base c b = k

section Created

variable {args : Args} {k base : Key} {types : List DataType} {capCols : SizeT}
  {rows : List (List Cell)} {df : DataFrame} {puts : List Put}

theorem Created.mem_columns (h : Created args k base types capCols rows df puts) {col : Column} :
    col ∈ df.columns ↔ ∃ c t, types[c]? = some t ∧
      col = Column.filled args base t c (DataFrame.colOf rows c) := by
  rw [h.df_eq]
  show col ∈ DataFrame.columnsFrom args base rows 0 types ↔ _
  rw [DataFrame.columnsFrom, List.mem_map]
  constructor
  · rintro ⟨⟨t, c⟩, hmem, rfl⟩
    exact ⟨c, t, List.mk_mem_zipIdx_iff_getElem?.mp hmem, rfl⟩
  · rintro ⟨c, t, ht, rfl⟩
    exact ⟨(t, c), List.mk_mem_zipIdx_iff_getElem?.mpr ht, rfl⟩

theorem Created.mem_keyList (h : Created args k base types capCols rows df puts) {k' : Key} :
    (∃ col ∈ df.columns, k' ∈ col.blocks.keyList) ↔ IsBlockKey args base types rows k' := by
  constructor
  · rintro ⟨col, hcol, hk⟩
    obtain ⟨c, t, ht, rfl⟩ := h.mem_columns.mp hcol
    obtain ⟨b, hb, rfl⟩ := List.mem_map.mp hk
    rw [List.mem_range, Column.blockCount, DataFrame.length_colOf] at hb
    exact ⟨c, b, (List.getElem?_eq_some_iff.mp ht).1, hb, rfl⟩
  · rintro ⟨c, b, hc, hb, rfl⟩
    refine ⟨_, h.mem_columns.mpr ⟨c, _, List.getElem?_eq_getElem hc, rfl⟩,
      List.mem_map.mpr ⟨b, ?_, rfl⟩⟩
    rwa [List.mem_range, Column.blockCount, DataFrame.length_colOf]

theorem Created.mem_keys (h : Created args k base types capCols rows df puts) {k' : Key} :
    (∃ p ∈ puts, p.1 = k') ↔ k' = k ∨ IsBlockKey args base types rows k' := by
  constructor
  · rintro ⟨p, hp, rfl⟩
    rcases (h.mem_puts p).mp hp with hp | rfl
    · obtain ⟨c, t, ht, hp⟩ := DataFrame.mem_framePuts.mp hp
      obtain ⟨b, hb, rfl⟩ := List.mem_map.mp hp
      rw [List.mem_range, Column.blockCount, DataFrame.length_colOf] at hb
      exact Or.inr ⟨c, b, (List.getElem?_eq_some_iff.mp ht).1, hb, rfl⟩
    · exact Or.inl rfl
  · rintro (rfl | ⟨c, b, hc, hb, rfl⟩)
    · exact ⟨_, (h.mem_puts _).mpr (Or.inr rfl), rfl⟩
    · refine ⟨_, (h.mem_puts _).mpr (Or.inl (DataFrame.mem_framePuts.mpr
        ⟨c, _, List.getElem?_eq_getElem hc, List.mem_map.mpr ⟨b, ?_, rfl⟩⟩)), rfl⟩
      rwa [List.mem_range, Column.blockCount, DataFrame.length_colOf]

theorem Created.key_eq (h : Created args k base types capCols rows df puts) : df.key = k := by
  rw [h.df_eq]
  rfl

theorem Created.keyList_eq_nil (h : Created args k base types capCols rows df puts)
    {col : Column} (hcol : col ∈ df.columns) : col.baseKey = base ∧ 0 < types.length ∧
      (col.blocks.keyList = [] ↔ chunkCount args.blockSize.toNat rows.length = 0) := by
  obtain ⟨c, t, ht, rfl⟩ := h.mem_columns.mp hcol
  refine ⟨rfl, Nat.lt_of_le_of_lt (Nat.zero_le c) (List.getElem?_eq_some_iff.mp ht).1, ?_⟩
  show List.map _ (List.range _) = [] ↔ _
  rw [List.map_eq_nil_iff, List.range_eq_nil, Column.blockCount, DataFrame.length_colOf]

end Created

/-- **Dataframes under different keys share no storage key exactly when they are apart.** -/
theorem apart_iff {args : Args} {k k' base base' : Key} {types types' : List DataType}
    {capCols capCols' : SizeT} {rows rows' : List (List Cell)} {df df' : DataFrame}
    {puts puts' : List Put} (h : Created args k base types capCols rows df puts)
    (h' : Created args k' base' types' capCols' rows' df' puts') (hk : k ≠ k') :
    Apart df df' ↔ ∀ p ∈ puts, ∀ q ∈ puts', p.1 ≠ q.1 := by
  constructor
  · intro hapart p hp q hq he
    rcases h.mem_keys.mp ⟨p, hp, rfl⟩ with hpk | hpb
    · rcases h'.mem_keys.mp ⟨q, hq, rfl⟩ with hqk | hqb
      · exact hk (by rw [← hpk, ← hqk, he])
      · obtain ⟨col, hcol, hmem⟩ := h'.mem_keyList.mpr hqb
        exact hapart.key' col hcol (by rwa [h.key_eq, ← hpk, he])
    · rcases h'.mem_keys.mp ⟨q, hq, rfl⟩ with hqk | hqb
      · obtain ⟨col, hcol, hmem⟩ := h.mem_keyList.mpr hpb
        exact hapart.key col hcol (by rwa [h'.key_eq, ← hqk, ← he])
      · -- two blocks of one key: their base keys have one text
        obtain ⟨col, hcol, hmem⟩ := h.mem_keyList.mpr hpb
        obtain ⟨col', hcol', hmem'⟩ := h'.mem_keyList.mpr hqb
        obtain ⟨c, b, -, -, hpe⟩ := hpb
        obtain ⟨c', b', -, -, hqe⟩ := hqb
        obtain ⟨hbase, -, -⟩ := Column.blockKey_eq_iff.mp (hpe.trans (he.trans hqe.symm))
        rcases hapart.base col hcol col' hcol'
          (by rw [(h.keyList_eq_nil hcol).1, (h'.keyList_eq_nil hcol').1, hbase]) with hnil | hnil
        · rw [hnil] at hmem
          cases hmem
        · rw [hnil] at hmem'
          cases hmem'
  · intro hdisj
    refine ⟨fun col hcol hmem => ?_, fun col hcol hmem => ?_, fun col hcol col' hcol' hbase => ?_⟩
    · obtain ⟨p, hp, hpe⟩ := h.mem_keys.mpr (Or.inr (h.mem_keyList.mp ⟨col, hcol, hmem⟩))
      obtain ⟨q, hq, hqe⟩ := h'.mem_keys.mpr (Or.inl h'.key_eq)
      exact hdisj p hp q hq (hpe.trans hqe.symm)
    · obtain ⟨q, hq, hqe⟩ := h'.mem_keys.mpr (Or.inr (h'.mem_keyList.mp ⟨col, hcol, hmem⟩))
      obtain ⟨p, hp, hpe⟩ := h.mem_keys.mpr (Or.inl h.key_eq)
      exact hdisj p hp q hq (hpe.trans hqe.symm)
    · -- if both have blocks, both have a first block of their first column
      obtain ⟨hb, hc, hnil⟩ := h.keyList_eq_nil hcol
      obtain ⟨hb', hc', hnil'⟩ := h'.keyList_eq_nil hcol'
      by_contra hne
      rw [not_or, hnil, hnil'] at hne
      rw [hb, hb'] at hbase
      obtain ⟨p, hp, hpe⟩ := h.mem_keys.mpr (Or.inr ⟨0, 0, hc, by omega, rfl⟩)
      obtain ⟨q, hq, hqe⟩ := h'.mem_keys.mpr (Or.inr ⟨0, 0, hc', by omega, rfl⟩)
      exact hdisj p hp q hq (hpe.trans ((Column.blockKey_eq_iff.mpr ⟨hbase, rfl, rfl⟩).trans
        hqe.symm))

theorem Undisturbed.append {puts log log' : List Put} (h : Undisturbed puts log)
    (hdisj : ∀ p ∈ puts, ∀ q ∈ log', p.1 ≠ q.1) : Undisturbed puts (log ++ log') where
  mem p hp := List.mem_append_left _ (h.mem p hp)
  only p hp q hq he := by
    rcases List.mem_append.mp hp with hp | hp
    · exact h.only p hp q hq he
    · exact absurd he.symm (hdisj q hq p hp)

/-- **Creating a dataframe changes nothing that is read through the key of another**, apart
from it: not after all its puts, and not after some of them. -/
theorem unchanged_of_apart {args : Args} (hn : args.numNodes ≠ 0) (hb : args.blockSize ≠ 0)
    {k k' : Key} {df df' : DataFrame} {puts puts' : List Put} (h : Makes args k df puts)
    (h' : Makes args k' df' puts') (hk : k ≠ k') :
    (Apart df df' ↔ ∀ p ∈ puts, ∀ q ∈ puts', p.1 ≠ q.1) ∧
    (Apart df df' → ∃ types rows, ∀ log, Undisturbed puts log →
      ∀ log', (∀ q ∈ log', q ∈ puts') → ∃ df₁, waitAndGet (applied log) k = some df₁ ∧
        waitAndGet (applied (log ++ log')) k = some df₁ ∧
        Gives args (applied log) types rows df₁ ∧
        Gives args (applied (log ++ log')) types rows df₁) := by
  obtain ⟨base, types, capCols, rows, hc, hr⟩ := created_of_makes hn hb h
  obtain ⟨base', types', capCols', rows', hc', -⟩ := created_of_makes hn hb h'
  have hiff := apart_iff hc hc' hk
  refine ⟨hiff, fun hapart => ⟨types, rows, fun log hlog log' hlog' => ?_⟩⟩
  have happ : Undisturbed puts (log ++ log') :=
    hlog.append fun p hp q hq => hiff.mp hapart p hp q (hlog' q hq)
  exact ⟨df, (hc.shows hlog hr).1, (hc.shows happ hr).1, (hc.readsBack hn hb hr log hlog).1,
    (hc.readsBack hn hb hr _ happ).1⟩

/-- `a` -/
def keyA : Key := ⟨⟨[97], CStr.nulFree_a⟩, 0⟩

/-- `b` -/
def keyB : Key := ⟨⟨[98], CStr.nulFree_b⟩, 0⟩

/-- `a-0` -/
def keyA0 : Key := ⟨⟨[97, 45, 48], by decide⟩, 0⟩

/-- Two integers under two keys. -/
theorem unchanged_of_apart_pair : ∃ df puts df' puts', fromInt ⟨2, 1⟩ keyA 7 = some (df, puts) ∧
    fromInt ⟨2, 1⟩ keyB 8 = some (df', puts') ∧ ∃ types rows df₁,
      waitAndGet (applied (puts ++ puts')) keyA = some df₁ ∧
        Gives ⟨2, 1⟩ (applied (puts ++ puts')) types rows df₁ := by
  have hrun : (do
      let made ← fromInt ⟨2, 1⟩ keyA 7
      let made' ← fromInt ⟨2, 1⟩ keyB 8
      pure (decide (∀ p ∈ made.2, ∀ q ∈ made'.2, p.1 ≠ q.1))) = some true := by decide +kernel
  obtain ⟨⟨df, puts⟩, hmade, hrun⟩ := Option.bind_eq_some_iff.mp hrun
  obtain ⟨⟨df', puts'⟩, hmade', hrun⟩ := Option.bind_eq_some_iff.mp hrun
  have hn : (⟨2, 1⟩ : Args).numNodes ≠ 0 := by decide
  have hb : (⟨2, 1⟩ : Args).blockSize ≠ 0 := by decide
  obtain ⟨hiff, hsame⟩ := unchanged_of_apart hn hb
    (.fromArray (.ints [7]) (by decide) hmade) (.fromArray (.ints [8]) (by decide) hmade')
    (show keyA ≠ keyB by decide)
  obtain ⟨types, rows, hlogs⟩ := hsame (hiff.mpr (of_decide_eq_true (Option.some.inj hrun)))
  obtain ⟨df₁, -, hget, -, hgives⟩ := hlogs puts (undisturbed_self puts) puts' fun _ hq => hq
  exact ⟨df, puts, df', puts', hmade, hmade', types, rows, df₁, hget, hgives⟩

def valuesAt (args : Args) (log : List Put) (k : Key) (qs : List (Nat × Nat)) :
    Option (List Cell) := do
  let df ← waitAndGet (applied log) k
  let (cells, _) ← df.getAll args (applied log) qs
  pure cells

/-- **Two dataframes that are not apart**: the array under `a` and the column under `a-0`
have one block in common, and the integer that was stored first is gone. -/
theorem interference : ∃ df puts df' puts', keyA ≠ keyA0 ∧
    fromInt ⟨1, 1⟩ keyA 7 = some (df, puts) ∧
    fromVisitor ⟨1, 1⟩ 2 keyA0 [73] (upTo 1) 0 = some (df', puts') ∧
    valuesAt ⟨1, 1⟩ puts keyA [(0, 0)] = some [.int 7] ∧
    valuesAt ⟨1, 1⟩ (puts ++ puts') keyA [(0, 0)] = some [.int 0] := by
  have hrun : (do
      let made ← fromInt ⟨1, 1⟩ keyA 7
      let made' ← fromVisitor ⟨1, 1⟩ 2 keyA0 [73] (upTo 1) 0
      let before ← valuesAt ⟨1, 1⟩ made.2 keyA [(0, 0)]
      let after ← valuesAt ⟨1, 1⟩ (made.2 ++ made'.2) keyA [(0, 0)]
      pure (before, after)) = some ([.int 7], [.int 0]) := by decide +kernel
  obtain ⟨⟨df, puts⟩, hmade, hrun⟩ := Option.bind_eq_some_iff.mp hrun
  obtain ⟨⟨df', puts'⟩, hmade', hrun⟩ := Option.bind_eq_some_iff.mp hrun
  obtain ⟨before, hbefore, hrun⟩ := Option.bind_eq_some_iff.mp hrun
  obtain ⟨after, hafter, hrun⟩ := Option.bind_eq_some_iff.mp hrun
  cases hrun
  exact ⟨df, puts, df', puts', by decide, hmade, hmade', hbefore, hafter⟩

end DataToDf

end Eau2
