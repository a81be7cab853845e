import Eau2.Base.Served
import Eau2.Dataframe.Build
import Eau2.Dataframe.Divides

/-!
# Block keys

Column `c` of a dataframe stores its block `b` under its base key followed by `c` and `b`.
The base key is the key of the dataframe, for a column of the constructor, or this key
followed by `c`, for one of `add_array`; the number of a block goes on from the number of
blocks that the column has.

* `Numbered`: block `b` of every column has the key of number `b`.
* `fill_stores`: every call stores the blocks that it adds, numbered on.
* `block_keys_distinct`: **no two blocks of a dataframe get the same key.**
-/

namespace Eau2

open Bytes

namespace Column

/-- The text that `genKey_` joins, on any base key string. -/
def blockText (base : Str) (blockNum colIdx : Nat) : Option Str :=
  Key.joinPieces [base, [Key.dash], decimal colIdx, [Key.dash], decimal blockNum]

/-- **Whatever is in the base key string, the text tells block and column.** -/
theorem blockText_inj {base : Str} {b₁ c₁ b₂ c₂ : Nat}
    (h : blockText base b₁ c₁ = blockText base b₂ c₂) : b₁ = b₂ ∧ c₁ = c₂ := by
  have htext : ∀ b c, blockText base b c =
      some (cstr base ++ Key.dash :: (decimal c ++ Key.dash :: decimal b)) := by
    intro b c
    rw [blockText, Key.joinPieces_eq]
    simp only [List.flatMap_cons, List.flatMap_nil, cstr_of_nulFree (decimal_nulFree _),
      List.append_nil]
    rfl
  rw [htext, htext] at h
  have htail := (List.cons.inj (List.append_cancel_left (Option.some.inj h))).2
  obtain ⟨hc, hb⟩ := append_sep_inj (dash_not_mem_decimal b₁) (dash_not_mem_decimal b₂) htail
  exact ⟨decimal_inj hb, decimal_inj hc⟩

/-- **A block has the key of another only as the same block of the same column.** -/
theorem genKey_inj {args : Args} (hn : args.numNodes ≠ 0) {baseKey : Key} {b₁ c₁ b₂ c₂ : Nat}
    (h : genKey_ args baseKey b₁ c₁ = genKey_ args baseKey b₂ c₂) : b₁ = b₂ ∧ c₁ = c₂ := by
  rw [genKey_eq hn, genKey_eq hn] at h
  exact (blockKey_inj (Option.some.inj h)).symm

def Numbered (args : Args) (c : Nat) (col : Column) : Prop :=
  col.blocks.keyList = (List.range col.blocks.length).map (blockKey args col.baseKey c)

/-- **`add_all` stores the blocks that follow.** -/
theorem Numbered.addAll {args : Args} (hn : args.numNodes ≠ 0) {c : Nat} {col col' : Column}
    (h : col.Numbered args c) {t : DataType} {vals : List Cell} {puts : List Put}
    (hadd : addAll args t vals c col = some (col', puts)) : col'.Numbered args c ∧
      col'.blocks.keyList = col.blocks.keyList ++ puts.map Prod.fst := by
  obtain ⟨ht, h₁⟩ := Option.ite_none_right_eq_some.mp hadd
  by_cases hv : vals = []
  · subst hv
    cases h₁
    exact ⟨h, (List.append_nil _).symm⟩
  · have hb : args.blockSize ≠ 0 := by
      intro hz
      rw [addAll_of_zero (.inl hz) hv] at hadd
      cases hadd
    have hloop := addLoop_spec hn hb t vals col.blocks.length c (j := 0) col
      (show vals.length - 0 * args.blockSize.toNat < vals.length + 1 by omega)
    rw [Nat.zero_mul, Nat.zero_min, Nat.sub_zero, ← List.range_eq_range'] at hloop
    rw [hloop] at h₁
    cases h₁
    have hkeys : (col.addKeys ((List.range (blockCount args vals)).map fun b =>
        blockKey args col.baseKey c (col.blocks.length + b))).blocks.keyList =
          (List.range (col.blocks.length + blockCount args vals)).map
            (blockKey args col.baseKey c) := by
      rw [List.range_add, List.map_append, List.map_map, ← h]
      rfl
    refine ⟨?_, ?_⟩
    · show _ = List.map (blockKey args col.baseKey c) (List.range (List.length _))
      rw [hkeys, List.length_map, List.length_range]
    · rw [List.map_map]
      rfl

end Column

namespace DataFrame

/-- The calls that fill a dataframe; `visit` fills it by `addRowChunk_`. -/
inductive Fill : Type 1
  /-- `add_array` for one of the four types. -/
  | addArray (t : DataType) (ht : t ≠ .Field) (elements : List Cell)
  | addRowChunk_ (rowChunk : List Row) (numRowsInChunk : Nat)
  | visit {σ : Type} (wr : Writer σ) (fuel : Nat) (s : σ)

def fill (args : Args) (df : DataFrame) : Fill → Option (List Put × DataFrame)
  | .addArray t _ elements => (df.addArray args t elements).map Prod.swap
  | .addRowChunk_ rowChunk n => (df.addRowChunk_ args rowChunk n).map Prod.swap
  | .visit wr fuel s => (df.visit args wr fuel s).map Prod.swap

def blockKeys (columns : List Column) : List Key := columns.flatMap fun col => col.blocks.keyList

def Numbered (args : Args) : Nat → List Column → Prop
  | _, [] => True
  | c, col :: columns => col.Numbered args c ∧ Numbered args (c + 1) columns

/-- What was put are the blocks, and no two of them under one text. -/
structure KeysDistinct (df : DataFrame) (puts : List Put) : Prop where
  blocks : (blockKeys df.columns).Perm (puts.map Prod.fst)
  nodup : (puts.map fun p => p.1.kStr).Nodup

variable {args : Args} {df df' : DataFrame}

/-! ### Columns whose blocks are numbered -/

theorem numbered_append {c : Nat} {columns columns' : List Column} :
    Numbered args c (columns ++ columns') ↔
      Numbered args c columns ∧ Numbered args (c + columns.length) columns' := by
  induction columns generalizing c with
  | nil => simp [Numbered]
  | cons col columns ih =>
    rw [List.cons_append, Numbered, Numbered, ih, List.length_cons, and_assoc]
    simp only [Nat.add_assoc, Nat.add_comm 1]

theorem numbered_new {c : Nat} {k : Key} (types : List DataType) :
    Numbered args c (types.map (Column.new k)) := by
  induction types generalizing c with
  | nil => exact trivial
  | cons t types ih => exact ⟨rfl, ih⟩

theorem Numbered.of_mem {c : Nat} {columns : List Column} (h : Numbered args c columns) {k : Key}
    (hk : k ∈ blockKeys columns) :
    ∃ base c' b, c ≤ c' ∧ k = Column.blockKey args base c' b := by
  induction columns generalizing c with
  | nil => cases hk
  | cons col columns ih =>
    obtain ⟨hcol, hrest⟩ := h
    rcases List.mem_append.mp hk with hk | hk
    · have hmem : k ∈ col.blocks.keyList := hk
      rw [hcol] at hmem
      obtain ⟨b, -, rfl⟩ := List.mem_map.mp hmem
      exact ⟨col.baseKey, c, b, le_rfl, rfl⟩
    · obtain ⟨base, c', b, hle, rfl⟩ := ih hrest hk
      exact ⟨base, c', b, by omega, rfl⟩

/-- **Numbered blocks have texts of their own.** -/
theorem Numbered.nodup {c : Nat} {columns : List Column} (h : Numbered args c columns) :
    ((blockKeys columns).map Key.kStr).Nodup := by
  induction columns generalizing c with
  | nil => exact List.nodup_nil
  | cons col columns ih =>
    obtain ⟨hcol, hrest⟩ := h
    show ((col.blocks.keyList ++ blockKeys columns).map Key.kStr).Nodup
    rw [List.map_append, hcol, List.map_map]
    refine List.nodup_append.mpr ⟨?_, ih hrest, ?_⟩
    · refine List.Nodup.map (fun b b' hb => ?_) List.nodup_range
      exact (Column.blockKey_kStr_inj hb).2.2
    · intro text htext text' htext' heq
      obtain ⟨b, -, rfl⟩ := List.mem_map.mp htext
      obtain ⟨k, hk, rfl⟩ := List.mem_map.mp htext'
      obtain ⟨base, c', b', hle, rfl⟩ := hrest.of_mem hk
      have hc := (Column.blockKey_kStr_inj heq).2.1
      omega

/-! ### What a call stores -/

/-- The puts store the blocks that come to numbered ones, which stay numbered. -/
structure Stores (args : Args) (c : Nat) (puts : List Put) (columns columns' : List Column) :
    Prop where
  numbered : Numbered args c columns'
  blocks : (blockKeys columns').Perm (blockKeys columns ++ puts.map Prod.fst)

theorem Stores.trans {c : Nat} {puts puts' : List Put} {cs cs' cs'' : List Column}
    (h : Stores args c puts cs cs') (h' : Stores args c puts' cs' cs'') :
    Stores args c (puts ++ puts') cs cs'' where
  numbered := h'.numbered
  blocks := by
    rw [List.map_append, ← List.append_assoc]
    exact h'.blocks.trans (h.blocks.append_right _)

theorem Numbered.stores_nil {c : Nat} {columns : List Column} (h : Numbered args c columns) :
    Stores args c [] columns columns where
  numbered := h
  blocks := by rw [List.map_nil, List.append_nil]

theorem addArray_stores (hn : args.numNodes ≠ 0) (h : Numbered args 0 df.columns) {t : DataType}
    {elements : List Cell} {puts : List Put}
    (hadd : df.addArray args t elements = some (df', puts)) :
    Stores args 0 puts df.columns df'.columns := by
  obtain ⟨baseKey, -, h₁⟩ := Option.bind_eq_some_iff.mp hadd
  obtain ⟨⟨col, puts₁⟩, hcol, h₂⟩ := Option.bind_eq_some_iff.mp h₁
  obtain ⟨schema, -, h₃⟩ := Option.bind_eq_some_iff.mp h₂
  cases h₃
  have hnew : (Column.new baseKey t).Numbered args df.columns.length := rfl
  obtain ⟨hnum, hkeys⟩ := hnew.addAll hn hcol
  refine ⟨numbered_append.mpr ⟨h, ?_, trivial⟩, ?_⟩
  · rwa [Nat.zero_add]
  · show (blockKeys (df.columns ++ [col])).Perm _
    rw [blockKeys, List.flatMap_append, List.flatMap_singleton, hkeys]
    exact List.Perm.refl _

theorem chunkColumns_stores (hn : args.numNodes ≠ 0) {rowChunk : List Row} {n c : Nat}
    {types : List DataType} {columns columns' : List Column} {puts : List Put}
    (h : Numbered args c columns)
    (hchunk : chunkColumns args rowChunk n c types columns = some (columns', puts)) :
    Stores args c puts columns columns' := by
  induction types generalizing c columns columns' puts with
  | nil =>
    cases hchunk
    exact h.stores_nil
  | cons t types ih =>
    cases columns with
    | nil => cases hchunk
    | cons col columns =>
      obtain ⟨vals, -, h₁⟩ := Option.bind_eq_some_iff.mp hchunk
      obtain ⟨⟨col', puts₁⟩, hadd, h₂⟩ := Option.bind_eq_some_iff.mp h₁
      obtain ⟨⟨columns₁, puts₂⟩, hrec, h₃⟩ := Option.bind_eq_some_iff.mp h₂
      cases h₃
      obtain ⟨hnum, hkeys⟩ := h.1.addAll hn hadd
      have hrest := ih h.2 hrec
      refine ⟨⟨hnum, hrest.numbered⟩, ?_⟩
      show (col'.blocks.keyList ++ blockKeys columns₁).Perm
        (col.blocks.keyList ++ blockKeys columns ++ (puts₁ ++ puts₂).map Prod.fst)
      rw [hkeys, List.map_append, List.append_assoc, List.append_assoc]
      refine List.Perm.append_left _ ((hrest.blocks.append_left _).trans ?_)
      -- the puts of this column come in front of the blocks of the later ones
      rw [← List.append_assoc, ← List.append_assoc]
      exact List.perm_append_comm.append_right _

theorem addRowChunk_stores (hn : args.numNodes ≠ 0) (h : Numbered args 0 df.columns)
    {rowChunk : List Row} {n : Nat} {puts : List Put}
    (hadd : df.addRowChunk_ args rowChunk n = some (df', puts)) :
    Stores args 0 puts df.columns df'.columns := by
  obtain ⟨-, h₁⟩ := Option.ite_none_right_eq_some.mp hadd
  obtain ⟨⟨columns, puts₁⟩, hcols, h₂⟩ := Option.bind_eq_some_iff.mp h₁
  cases h₂
  exact chunkColumns_stores hn h hcols

theorem visitLoop_stores (hn : args.numNodes ≠ 0) {σ : Type} {wr : Writer σ} {fuel : Nat} {s : σ}
    {rowChunk : List Row} {idx : Nat} {rowIdx : SizeT} {puts : List Put}
    (h : Numbered args 0 df.columns)
    (hloop : visitLoop args wr fuel s rowChunk idx rowIdx df = some (df', puts)) :
    Stores args 0 puts df.columns df'.columns := by
  refine visitLoop_rule (R := fun puts df df' => Numbered args 0 df.columns →
    Stores args 0 puts df.columns df'.columns) (fun _ h => h.stores_nil) ?_ ?_ hloop h
  · intro _ _ df₀ df₁ df₂ h₁ h₂ h
    have hfirst := h₁ h
    exact hfirst.trans (h₂ hfirst.numbered)
  · intro _ _ _ _ _ hadd h
    exact addRowChunk_stores hn h hadd

/-- **A call stores the blocks that it adds**, and numbers them on. -/
theorem fill_stores (hn : args.numNodes ≠ 0) (h : Numbered args 0 df.columns) {c : Fill}
    {puts : List Put} (hfill : fill args df c = some (puts, df')) :
    Stores args 0 puts df.columns df'.columns := by
  cases c with
  | addArray t ht elements =>
    obtain ⟨⟨df₁, puts₁⟩, hadd, he⟩ := Option.map_eq_some_iff.mp hfill
    cases he
    exact addArray_stores hn h hadd
  | addRowChunk_ rowChunk n =>
    obtain ⟨⟨df₁, puts₁⟩, hadd, he⟩ := Option.map_eq_some_iff.mp hfill
    cases he
    exact addRowChunk_stores hn h hadd
  | visit wr fuel s =>
    obtain ⟨⟨df₁, puts₁⟩, hvisit, he⟩ := Option.map_eq_some_iff.mp hfill
    cases he
    obtain ⟨row, -, hloop⟩ := Option.bind_eq_some_iff.mp hvisit
    exact visitLoop_stores hn h hloop

/-! ### All calls -/

theorem Fresh.numbered (h : Fresh df) :
    Numbered args 0 df.columns ∧ blockKeys df.columns = [] := by
  cases h with
  | ofKey k => exact ⟨trivial, rfl⟩
  | @ofTypes scm k df hlen h =>
    obtain ⟨schema, -, h₁⟩ := Option.bind_eq_some_iff.mp h
    obtain ⟨types, -, h₂⟩ := Option.bind_eq_some_iff.mp h₁
    cases h₂
    refine ⟨numbered_new types, List.flatMap_eq_nil_iff.mpr fun col hcol => ?_⟩
    obtain ⟨t, -, rfl⟩ := List.mem_map.mp hcol
    rfl

theorem serve_stores (hn : args.numNodes ≠ 0) (h : Numbered args 0 df.columns) {cs : List Fill}
    {putss : List (List Put)} (hserve : serve (fill args) df cs = some (putss, df')) :
    Stores args 0 putss.flatten df.columns df'.columns := by
  induction cs generalizing df putss with
  | nil =>
    cases hserve
    exact h.stores_nil
  | cons c cs ih =>
    unfold serve at hserve
    obtain ⟨⟨puts, df₁⟩, hfill, h₁⟩ := Option.bind_eq_some_iff.mp hserve
    obtain ⟨⟨putss₁, df₂⟩, hrec, h₂⟩ := Option.bind_eq_some_iff.mp h₁
    cases h₂
    have hfirst := fill_stores hn h hfill
    exact hfirst.trans (ih hfirst.numbered hrec)

/-- **No two blocks of a dataframe get the same key**: the key of a base key tells column and
block, and a dataframe from any constructor, filled in any order, numbers every block once. -/
theorem block_keys_distinct (hn : args.numNodes ≠ 0) :
    (∀ (baseKey : Key) (b₁ c₁ b₂ c₂ : Nat),
      Column.genKey_ args baseKey b₁ c₁ = Column.genKey_ args baseKey b₂ c₂ →
        b₁ = b₂ ∧ c₁ = c₂) ∧
    (∀ (base : Str) (b₁ c₁ b₂ c₂ : Nat),
      Column.blockText base b₁ c₁ = Column.blockText base b₂ c₂ → b₁ = b₂ ∧ c₁ = c₂) ∧
    ∀ (df₀ df : DataFrame) (cs : List Fill) (putss : List (List Put)), Fresh df₀ →
      serve (fill args) df₀ cs = some (putss, df) → KeysDistinct df putss.flatten := by
  refine ⟨fun _ _ _ _ _ h => Column.genKey_inj hn h, fun _ _ _ _ _ h => Column.blockText_inj h,
    fun df₀ df cs putss h₀ hserve => ?_⟩
  obtain ⟨hnum, hnil⟩ := @Fresh.numbered args df₀ h₀
  have hstores := serve_stores hn hnum hserve
  have hperm := hstores.blocks
  rw [hnil, List.nil_append] at hperm
  refine ⟨hperm, ?_⟩
  have htexts := (hperm.map Key.kStr).nodup_iff.mp hstores.numbered.nodup
  rwa [List.map_map] at htexts

/-- A dataframe of one column of its constructor and one of `add_array`, on two nodes. -/
theorem block_keys_distinct_two : ∃ df₀, ofTypes [0x49] ⟨⟨[97], by decide⟩, 0⟩ = some df₀ ∧
    ∃ putss df, serve (fill ⟨2, 1⟩) df₀ [.addArray .Boolean (by decide) [.bool true, .bool false]] =
      some (putss, df) ∧ KeysDistinct df putss.flatten := by
  obtain ⟨df₀, h₀, putss, df, hserve⟩ : ∃ df₀, ofTypes [0x49] ⟨⟨[97], by decide⟩, 0⟩ = some df₀ ∧
      ∃ putss df, serve (fill ⟨2, 1⟩) df₀
        [.addArray .Boolean (by decide) [.bool true, .bool false]] = some (putss, df) :=
    ⟨_, rfl, _, _, rfl⟩
  exact ⟨df₀, h₀, putss, df, hserve,
    (block_keys_distinct (by decide)).2.2 df₀ df _ putss (Fresh.ofTypes (by decide) h₀) hserve⟩

end DataFrame

end Eau2
