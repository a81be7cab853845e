import Eau2.Base.Blocks
import Eau2.Base.Served
import Eau2.Dataframe.Column

/-!
# Appending to a column

A column takes several lists, one `add_all` each.  Every `add_all` starts a block of
its own, and a read looks for element `i` at `i % args.blockSize` of block
`i / args.blockSize`.

* `grown`: the column that holds given blocks (`serve_append`: what a history of
  appends leaves).
* `get_eq`: a read of it is `readAt`.
* `appends_iff`: the elements come back exactly when every append with a non-empty one
  behind it fills its blocks.
-/

namespace Eau2

namespace Column

def append (args : Args) (t : DataType) (colIdx : Nat) (col : Column) (vals : List Cell) :
    Option (List Put × Column) :=
  (addAll args t vals colIdx col).map Prod.swap

section Grown

variable (args : Args) (baseKey : Key) (t : DataType) (colIdx : Nat)

def grown (bs : List (List Cell)) : Column :=
  ⟨UInt64.ofNat bs.flatten.length,
    ⟨(List.range bs.length).map (blockKey args baseKey colIdx), Cache.new⟩, t, baseKey⟩

def grownPuts (bs : List (List Cell)) : List Put :=
  (List.range bs.length).map fun b =>
    blockPut args baseKey colIdx b ⟨t, args.blockSize, bs.getD b []⟩

end Grown

variable {args : Args} {baseKey : Key} {t : DataType} {colIdx : Nat}

theorem length_cut (vals : List Cell) :
    (cut args.blockSize.toNat vals).length = blockCount args vals := by
  rw [cut, List.length_map, List.length_range, blockCount]

theorem append_grown (hn : args.numNodes ≠ 0) (hb : args.blockSize ≠ 0) (baseKey : Key)
    (t : DataType) (colIdx : Nat) (bs : List (List Cell)) (vals : List Cell) :
    ∃ puts, append args t colIdx (grown args baseKey t colIdx bs) vals =
        some (puts, grown args baseKey t colIdx (bs ++ cut args.blockSize.toNat vals)) ∧
      grownPuts args baseKey t colIdx (bs ++ cut args.blockSize.toNat vals) =
        grownPuts args baseKey t colIdx bs ++ puts := by
  have hpos := toNat_pos hb
  have hlen : (grown args baseKey t colIdx bs).blocks.length = bs.length := by
    show (List.map _ (List.range _)).length = _
    rw [List.length_map, List.length_range]
  have hloop := addLoop_spec hn hb t vals bs.length colIdx (j := 0)
    (grown args baseKey t colIdx bs)
    (show vals.length - 0 * args.blockSize.toNat < vals.length + 1 by omega)
  rw [Nat.zero_mul, Nat.zero_min, Nat.sub_zero, ← List.range_eq_range'] at hloop
  have hall : addAll args t vals colIdx (grown args baseKey t colIdx bs) = some
      (grown args baseKey t colIdx (bs ++ cut args.blockSize.toNat vals),
        (List.range (blockCount args vals)).map fun b =>
          blockPut args baseKey colIdx (bs.length + b) (blockAt args t vals b)) := by
    have htype : (grown args baseKey t colIdx bs).type = t := rfl
    rw [addAll, if_pos htype, hlen, hloop]
    show some (_, _) = some (_, _)
    congr 2
    rw [grown, addKeys, grown, List.length_append, length_cut, List.range_add, List.map_append,
      List.map_map, List.flatten_append, flatten_cut hpos, List.length_append, UInt64.ofNat_add]
    rfl
  refine ⟨_, by rw [append, hall]; rfl, ?_⟩
  rw [grownPuts, List.length_append, length_cut, List.range_add, List.map_append, List.map_map,
    grownPuts]
  congr 1
  · refine List.map_congr_left fun b hmem => ?_
    rw [List.getD_append _ _ _ _ (List.mem_range.mp hmem)]
  · refine List.map_congr_left fun b hmem => ?_
    have hlt := List.mem_range.mp hmem
    show blockPut args baseKey colIdx (bs.length + b) _ = _
    rw [List.getD_append_right _ _ _ _ (Nat.le_add_right _ _), Nat.add_sub_cancel_left, blockAt,
      List.getD_eq_getElem _ _ (by rwa [length_cut])]
    simp only [cut, List.getElem_map, List.getElem_range]

/-- **A history of appends leaves the blocks of its lists, one list after the other.** -/
theorem serve_append (hn : args.numNodes ≠ 0) (hb : args.blockSize ≠ 0) (baseKey : Key)
    (t : DataType) (colIdx : Nat) (hist : List (List Cell)) :
    ∃ puts, serve (append args t colIdx) (new baseKey t) hist =
        some (puts, grown args baseKey t colIdx (hist.flatMap (cut args.blockSize.toNat))) ∧
      puts.flatten = grownPuts args baseKey t colIdx (hist.flatMap (cut args.blockSize.toNat)) := by
  induction hist using List.reverseRecOn with
  | nil => exact ⟨[], rfl, rfl⟩
  | append_singleton hist vals ih =>
    obtain ⟨puts, hrun, hputs⟩ := ih
    obtain ⟨more, happ, hgrown⟩ := append_grown hn hb baseKey t colIdx
      (hist.flatMap (cut args.blockSize.toNat)) vals
    refine ⟨puts ++ [more], ?_, ?_⟩
    · rw [serve_snoc hrun happ, List.flatMap_append, List.flatMap_singleton]
    · rw [List.flatten_append, List.flatten_singleton, hputs, ← hgrown, List.flatMap_append,
        List.flatMap_singleton]

/-! ### Reading -/

/-- A column whose blocks `bs` are in the store. -/
structure Holds (args : Args) (store : Store) (t : DataType) (colIdx : Nat) (bs : List (List Cell))
    (col : Column) : Prop where
  type : col.type = t
  coherent : DistributedArray.CoherentAt store (fun _ => t) col.blocks
  stored : ∀ b, b < bs.length →
    DistributedArray.getBlockFromStore_ store t (blockKey args col.baseKey colIdx b) =
      some ⟨t, args.blockSize, bs.getD b []⟩

theorem holds_grown {bs : List (List Cell)} {store : Store}
    (hbs : ∀ b ∈ bs, b.length ≤ args.blockSize.toNat) (ht : ∀ b ∈ bs, ∀ x ∈ b, x.type = t)
    (h : ∀ p ∈ grownPuts args baseKey t colIdx bs, store p.1 = some p.2) :
    Holds args store t colIdx bs (grown args baseKey t colIdx bs) where
  type := rfl
  coherent := ⟨Cache.ok_new, fun k b hk => by simp [grown, Cache.new] at hk⟩
  stored b hlt := by
    have hmem : bs.getD b [] ∈ bs := by
      rw [List.getD_eq_getElem _ _ hlt]
      exact List.getElem_mem hlt
    exact getBlock_of_put ⟨hbs _ hmem, ht _ hmem⟩ rfl
      (h _ (List.mem_map.mpr ⟨b, List.mem_range.mpr hlt, rfl⟩))

theorem get_eq (hn : args.numNodes ≠ 0) (hb : args.blockSize ≠ 0) {store : Store}
    {bs : List (List Cell)} {col : Column} (h : Holds args store t colIdx bs col) {i : Nat}
    (hi : i / args.blockSize.toNat < bs.length) :
    ∃ col', get args store t i colIdx col =
        (readAt args.blockSize.toNat bs i).map (fun c => (c, col')) ∧
      Holds args store t colIdx bs col' := by
  obtain ⟨blocks, hget, hcoh, -⟩ := DistributedArray.getItem_eq h.coherent (h.stored _ hi)
    (i % args.blockSize.toNat)
  rw [if_pos rfl] at hget
  refine ⟨{ col with blocks := blocks }, ?_, ⟨h.type, hcoh, h.stored⟩⟩
  rw [get, if_neg (not_not.mpr h.type), if_neg hb, genKey_eq hn, readAt,
    List.getElem?_eq_getElem hi]
  show (col.blocks.getItem _ _ _ _).bind _ = _
  rw [hget, List.getD_eq_getElem _ _ hi, Option.bind_some]
  show ((bs[i / args.blockSize.toNat])[i % args.blockSize.toNat]?.map _).bind _ = _
  cases (bs[i / args.blockSize.toNat])[i % args.blockSize.toNat]? <;> rfl

theorem readsBack_iff (hn : args.numNodes ≠ 0) (hb : args.blockSize ≠ 0) {store : Store}
    {bs : List (List Cell)} (hbs : ∀ b ∈ bs, b.length ≤ args.blockSize.toNat) {col : Column}
    (h : Holds args store t colIdx bs col) :
    ReadsBack (fun col i => get args store t i colIdx col) bs.flatten col ↔
      ∀ i, i < bs.flatten.length → readAt args.blockSize.toNat bs i = bs.flatten[i]? := by
  constructor
  · intro hread i hi
    obtain ⟨col₁, hget, -⟩ := get_eq hn hb h (div_lt_length hbs hi)
    obtain ⟨col₂, hback⟩ := hread.read hi
    replace hback : get args store t i colIdx col = _ := hback
    rw [hget] at hback
    obtain ⟨c, hc, hp⟩ := Option.map_eq_some_iff.mp hback
    cases hp
    rw [hc, List.getElem?_eq_getElem hi]
  · intro hat
    refine readsBack_of_invariant ?_ h
    intro col hcol i hi
    obtain ⟨col₁, hget, h₁⟩ := get_eq hn hb hcol (div_lt_length hbs hi)
    rw [hat i hi, List.getElem?_eq_getElem hi] at hget
    exact ⟨col₁, hget, h₁⟩

/-- **A column that takes lists one after the other has their total length as its size
and gives their elements back exactly when the total fits a `size_t` and every list with
a non-empty one behind it is a multiple of `args.blockSize` long.** -/
theorem appends_iff (hn : args.numNodes ≠ 0) (hb : args.blockSize ≠ 0) (baseKey : Key)
    (t : DataType) (colIdx : Nat) {hist : List (List Cell)}
    (ht : ∀ vals ∈ hist, ∀ x ∈ vals, x.type = t) :
    ∃ puts col, serve (append args t colIdx) (new baseKey t) hist = some (puts, col) ∧
      ∀ store : Store, (∀ p ∈ puts.flatten, store p.1 = some p.2) →
        (col.size.toNat = hist.flatten.length ∧
            ReadsBack (fun col i => get args store t i colIdx col) hist.flatten col ↔
          hist.flatten.length < 2 ^ 64 ∧ Aligned args.blockSize.toNat hist) := by
  have hpos := toNat_pos hb
  obtain ⟨puts, hrun, hputs⟩ := serve_append hn hb baseKey t colIdx hist
  refine ⟨puts, _, hrun, ?_⟩
  intro store hstore
  have hblocks : ∀ b ∈ hist.flatMap (cut args.blockSize.toNat),
      b ≠ [] ∧ b.length ≤ args.blockSize.toNat := by
    intro b hmem
    obtain ⟨vals, -, hcut⟩ := List.mem_flatMap.mp hmem
    exact of_mem_cut hpos hcut
  have htyped : ∀ b ∈ hist.flatMap (cut args.blockSize.toNat), ∀ x ∈ b, x.type = t := by
    intro b hmem x hx
    obtain ⟨vals, hvals, hcut⟩ := List.mem_flatMap.mp hmem
    obtain ⟨i, -, rfl⟩ := List.mem_map.mp hcut
    exact ht vals hvals x (Chunk.mem_of_mem hx)
  have hlen : ∀ b ∈ hist.flatMap (cut args.blockSize.toNat),
      b.length ≤ args.blockSize.toNat := fun b hmem => (hblocks b hmem).2
  have hholds := holds_grown hlen htyped (by rwa [← hputs])
  have hflat := flatten_flatMap_cut hpos hist
  have hread := readsBack_iff hn hb hlen hholds
  rw [hflat] at hread
  have hat := readAt_iff hpos hblocks
  rw [hflat] at hat
  rw [hread, hat, fullButLast_cuts hpos]
  apply and_congr_left'
  show (UInt64.ofNat (hist.flatMap (cut args.blockSize.toNat)).flatten.length).toNat = _ ↔ _
  rw [hflat, UInt64.toNat_ofNat']
  constructor
  · intro h
    rw [← h]
    exact Nat.mod_lt _ (Nat.two_pow_pos 64)
  · exact Nat.mod_eq_of_lt

/-- Two appends to a column of blocks of two, the first of which fills its block. -/
theorem appends_iff_aligned :
    ∃ puts col, serve (append ⟨1, 2⟩ .Integer 0) (new ⟨⟨[97], CStr.nulFree_a⟩, 0⟩ .Integer)
        [[.int 1, .int 2], [.int 3]] = some (puts, col) ∧
      ∀ store : Store, (∀ p ∈ puts.flatten, store p.1 = some p.2) →
        col.size = 3 ∧ ReadsBack (fun col i => get ⟨1, 2⟩ store .Integer i 0 col)
          [.int 1, .int 2, .int 3] col := by
  have hn : (⟨1, 2⟩ : Args).numNodes ≠ 0 := by decide
  have ht : ∀ vals ∈ [[Cell.int 1, .int 2], [.int 3]], ∀ x ∈ vals, x.type = .Integer := by decide
  obtain ⟨puts, col, hrun, hiff⟩ := appends_iff hn (by decide) ⟨⟨[97], CStr.nulFree_a⟩, 0⟩ _ 0 ht
  refine ⟨puts, col, hrun, fun store hstore => ?_⟩
  have haligned : Aligned 2 [[Cell.int 1, .int 2], [.int 3]] :=
    ⟨Or.inr ⟨1, rfl⟩, Or.inl rfl, trivial⟩
  obtain ⟨hsize, hread⟩ := (hiff store hstore).mpr ⟨by decide, haligned⟩
  exact ⟨UInt64.toNat_inj.mp hsize, hread⟩

/-- **Two appends of one element to a column of blocks of two: element 1 is looked for in
the first block, which has no such element.** -/
theorem append_short : ∃ puts col, ∃ store : Store,
    serve (append ⟨1, 2⟩ .Integer 0) (new ⟨⟨[97], CStr.nulFree_a⟩, 0⟩ .Integer)
        [[.int 1], [.int 2]] = some (puts, col) ∧
      (∀ p ∈ puts.flatten, store p.1 = some p.2) ∧ col.size = 2 ∧
      get ⟨1, 2⟩ store .Integer 1 0 col = none := by
  let puts := grownPuts ⟨1, 2⟩ ⟨⟨[97], CStr.nulFree_a⟩, 0⟩ .Integer 0 [[.int 1], [.int 2]]
  refine ⟨_, _, fun k => (puts.find? fun p => p.1 = k).map Prod.snd, rfl, ?_, rfl, ?_⟩
  · decide +kernel
  · exact Option.isNone_iff_eq_none.mp (by decide +kernel)

end Column

end Eau2
