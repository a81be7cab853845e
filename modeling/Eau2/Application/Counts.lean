import Eau2.Application.WordCount

/-!
# What the word count counts

The `Adder` of `reduce` adds one for each row of counts, not the count in the row.  So the
map at the end of `reduce` has the number of nodes that have a word, which is the number
of its occurrences only as long as no node has the word twice.

* `counts_iff`: **the words are counted exactly when no node has a word twice**.
* `miscount`: one node and a word that occurs twice.
-/

namespace Eau2

namespace WordCount

/-- The map has the words as its keys, with the numbers of their occurrences. -/
def Counts (map : SIMap) (words : List CStr) : Prop :=
  ∀ w, (map.get w).map Int32.toInt = if w ∈ words then some (words.count w : ℤ) else none

section Sums

variable {cfg : Config}

theorem sum_count (hn : cfg.args.numNodes ≠ 0) (w : CStr) :
    ∑ j ∈ Finset.range cfg.args.numNodes.toNat, (localWords cfg j).count w = cfg.words.count w := by
  have key : ∀ is : List ℕ, ∑ j ∈ Finset.range cfg.args.numNodes.toNat,
      ((is.filter fun i => i / cfg.args.blockSize.toNat % cfg.args.numNodes.toNat = j).map
        cfg.wordAt).count w = (is.map cfg.wordAt).count w := by
    intro is
    induction is with
    | nil => simp
    | cons i is ih =>
      have hmem : i / cfg.args.blockSize.toNat % cfg.args.numNodes.toNat ∈
          Finset.range cfg.args.numNodes.toNat :=
        Finset.mem_range.mpr (Nat.mod_lt _ (toNat_pos hn))
      have hcons : ∀ j, (((i :: is).filter fun i =>
          i / cfg.args.blockSize.toNat % cfg.args.numNodes.toNat = j).map cfg.wordAt).count w =
          (if i / cfg.args.blockSize.toNat % cfg.args.numNodes.toNat = j then
            if w = cfg.wordAt i then 1 else 0 else 0) +
          ((is.filter fun i =>
            i / cfg.args.blockSize.toNat % cfg.args.numNodes.toNat = j).map cfg.wordAt).count w := by
        intro j
        by_cases hj : i / cfg.args.blockSize.toNat % cfg.args.numNodes.toNat = j
        · rw [List.filter_cons_of_pos (by simpa using hj), List.map_cons, count_cons, if_pos hj]
        · rw [List.filter_cons_of_neg (by simpa using hj), if_neg hj, Nat.zero_add]
      simp only [hcons, Finset.sum_add_distrib, ih, List.map_cons, count_cons]
      rw [Finset.sum_ite_eq, if_pos hmem]
  rw [← map_wordAt]
  exact key _

theorem ite_mem_le_count (w : CStr) (ws : List CStr) :
    (if w ∈ ws then 1 else 0) ≤ ws.count w := by
  split
  · rename_i h
    exact List.count_pos_iff.mpr h
  · exact Nat.zero_le _

theorem nodesWith_eq_iff (hn : cfg.args.numNodes ≠ 0) :
    (∀ w, nodesWith cfg cfg.args.numNodes.toNat w = cfg.words.count w) ↔
      ∀ j, j < cfg.args.numNodes.toNat → (localWords cfg j).Nodup := by
  have hsum : ∀ w, nodesWith cfg cfg.args.numNodes.toNat w = cfg.words.count w ↔
      ∀ j, j < cfg.args.numNodes.toNat →
        (if w ∈ localWords cfg j then 1 else 0) = (localWords cfg j).count w := by
    intro w
    rw [nodesWith, ← sum_count hn,
      Finset.sum_eq_sum_iff_of_le fun j _ => ite_mem_le_count w (localWords cfg j)]
    exact forall_congr' fun j => by rw [Finset.mem_range]
  simp only [hsum]
  constructor
  · intro h j hj
    rw [List.nodup_iff_count_le_one]
    intro w
    rw [← h w j hj]
    split
    · exact Nat.le_refl _
    · exact Nat.zero_le _
  · intro h w j hj
    rw [(h j hj).count]

end Sums

theorem counts_iff_of_tally {map : SIMap} {f : CStr → ℕ} (ht : Tally map f) (words : List CStr) :
    Counts map words ↔ ∀ w, f w = words.count w := by
  have hget : ∀ w, (map.get w).map Int32.toInt = if f w = 0 then none else some (f w : ℤ) := by
    intro w
    rw [ht.get]
    split
    · rfl
    · rw [Option.map_some, Int32.toInt_ofNat_of_lt (ht.lt w)]
  refine forall_congr' fun w => ?_
  have hpos : w ∈ words ↔ 0 < words.count w := List.count_pos_iff.symm
  rw [hget]
  by_cases h0 : f w = 0
  · rw [if_pos h0, h0]
    by_cases hmem : w ∈ words
    · have := hpos.mp hmem
      rw [if_pos hmem]
      exact ⟨fun h => (by cases h), fun h => (by omega)⟩
    · rw [if_neg hmem]
      exact ⟨fun _ => (by rw [hpos] at hmem; omega), fun _ => rfl⟩
  · rw [if_neg h0]
    by_cases hmem : w ∈ words
    · rw [if_pos hmem, Option.some.injEq, Nat.cast_inj]
    · rw [if_neg hmem]
      exact ⟨fun h => (by cases h), fun h => (by rw [hpos] at hmem; omega)⟩

/-! ### A run that comes to its end -/

section Progress

variable {cfg : Config}

/-- The loops come to their end, and no count overflows. -/
def Fits (cfg : Config) : Prop := cfg.words.length < 2 ^ 31

theorem count_localWords_le (hn : cfg.args.numNodes ≠ 0) {j : ℕ}
    (hj : j < cfg.args.numNodes.toNat) (w : CStr) :
    (localWords cfg j).count w ≤ cfg.words.count w := by
  rw [← sum_count hn]
  exact Finset.single_le_sum (f := fun j => (localWords cfg j).count w) (fun _ _ => Nat.zero_le _)
    (Finset.mem_range.mpr hj)

theorem nodesWith_le (hn : cfg.args.numNodes ≠ 0) {i : ℕ} (hi : i ≤ cfg.args.numNodes.toNat)
    (w : CStr) : nodesWith cfg i w ≤ cfg.words.count w := by
  rw [← sum_count hn]
  calc nodesWith cfg i w ≤ ∑ j ∈ Finset.range i, (localWords cfg j).count w :=
        Finset.sum_le_sum fun j _ => ite_mem_le_count w _
    _ ≤ ∑ j ∈ Finset.range cfg.args.numNodes.toNat, (localWords cfg j).count w :=
        Finset.sum_le_sum_of_subset (Finset.range_mono hi)

theorem step_eq {sys : System} {j : SizeT} (hj : j < cfg.args.numNodes) {fuel : Nat}
    {r : Node × Sheets} (h : stepNode cfg fuel j (sys.nodes j) sys.store = some r) :
    step cfg sys (j, fuel) = some ⟨Function.update sys.nodes j r.1, r.2⟩ := by
  rw [step, if_pos hj]
  show (stepNode cfg fuel j (sys.nodes j) sys.store).bind _ = _
  rw [h]
  rfl

theorem stepNode_count {fuel : Nat} {j : SizeT} {nd : Node} {store : Sheets} (h : nd.pc = .count) :
    stepNode cfg fuel j nd store = localCount cfg fuel j nd store := by
  rw [stepNode, h]

theorem stepNode_reduce (fuel : Nat) (j : SizeT) {i : SizeT} {map : SIMap} {nd : Node}
    {store : Sheets} (h : nd.pc = .reduce i map) : stepNode cfg fuel j nd store = merge cfg i map nd store := by
  rw [stepNode, h]

theorem localCount_isSome (hn : cfg.args.numNodes ≠ 0) (hb : cfg.args.blockSize ≠ 0)
    (hf : Fits cfg) {j : SizeT} (hj : j < cfg.args.numNodes) {nd : Node} {store : Sheets}
    (hnd : NodeOk cfg j nd) (hstore : StoreOk cfg store) :
    ∃ kbuf t, localCount cfg (cfg.words.length + 1) j nd store =
      some (⟨kbuf, if j = 0 then .reduce 0 SIMap.new else .idle⟩,
        Function.update store (countsKey j) (some t)) := by
  have hj' := UInt64.lt_iff_toNat_lt.mp hj
  have hnrows : (dataSheet cfg).nrows.toNat = cfg.words.length := by
    rw [Sheet.toNat_nrows]
    exact List.length_map _
  have hfit : cfg.words.length + min cfg.words.length cfg.args.blockSize.toNat ≤ 2 ^ 64 := by
    have hw : cfg.words.length < 2 ^ 31 := hf
    omega
  obtain ⟨is, his⟩ : ∃ is, DataFrame.localIdxs cfg.args j (dataSheet cfg).nrows
      (cfg.words.length + 1) 0 = some is :=
    ⟨_, DataFrame.localIdxs_eq hb (by rw [hnrows]; exact hfit)
      (by rw [hnrows]; exact Nat.lt_succ_of_le (Nat.sub_le _ _)) (Or.inr (Nat.zero_mod _))⟩
  have hsub := (DataFrame.mem_localIdxs hb his).1
  rw [hnrows] at hsub
  have hislen : is.length ≤ cfg.words.length := by
    have hrange : is ⊆ List.range cfg.words.length := fun i hi => List.mem_range.mpr (hsub i hi).1
    have := ((DataFrame.nodup_localIdxs his).subperm hrange).length_le
    rwa [List.length_range] at this
  obtain ⟨map, hmap⟩ : ∃ map, (dataSheet cfg).localMap cfg.args j (cfg.words.length + 1) adder
      SIMap.new = some map := by
    rw [Sheet.localMap, his]
    show ∃ map, List.foldlM adder SIMap.new _ = some map
    rw [adder_spec (mapM_data fun i hi => (hsub i hi).1)]
    refine Option.isSome_iff_exists.mp (tally_new.foldlM_isSome fun w => ?_)
    have hcount := List.count_le_length (a := w) (l := is.map cfg.wordAt)
    have hw : cfg.words.length < 2 ^ 31 := hf
    rw [List.length_map] at hcount
    omega
  have ht := localMap_words hb hmap
  obtain ⟨kbuf, hkey, -⟩ := hnd.kbuf.append_get j.toNat
  have hemits : (summer map).Emits (Schema.ofCols [.Str, .Integer]) 0 .new
      (map.entries.map Summer.cells) := Summer.emits_summer rfl ht.valid 0
  -- one entry for each word
  have hlen : map.entries.length ≤ cfg.words.length := by
    have hnodup : (map.entries.map Prod.fst).Nodup := by
      rw [List.Nodup, List.pairwise_map]
      exact ht.valid.distinct_entries.imp fun hne he => hne (ExactHashKey.equals_iff.mpr he)
    have hsub : map.entries.map Prod.fst ⊆ cfg.words := by
      intro w hw
      have hsome := Map.isSome_get_of_mem_getKeys ht.valid hw
      rw [ht.get] at hsome
      have hle := count_localWords_le hn hj' w
      refine List.count_pos_iff.mp (Nat.lt_of_lt_of_le ?_ hle)
      by_contra h0
      rw [if_pos (by omega)] at hsome
      cases hsome
    have := (hnodup.subperm hsub).length_le
    rwa [List.length_map] at this
  obtain ⟨t, ht'⟩ : ∃ t, Sheet.fromVisitor [.Str, .Integer] (summer map) (cfg.words.length + 1)
      Summer.new = some t := by
    have hrows : (map.entries.map Summer.cells).length ≤ cfg.words.length := by
      rwa [List.length_map]
    have hw := cfg.fits
    exact ⟨⟨_, _, hemits.types, by omega⟩,
      Sheet.fromVisitor_eq_some_iff.mpr ⟨rfl, hemits, Nat.lt_succ_of_le hrows⟩⟩
  refine ⟨kbuf, t, ?_⟩
  simp only [localCount, hstore.data, Option.bind_eq_bind, Option.bind_some, hmap, mkKey, hkey, ht']
  rfl

theorem merge_isSome (hn : cfg.args.numNodes ≠ 0) (hf : Fits cfg) {i : SizeT} {map : SIMap}
    {nd : Node} {store : Sheets} (hnd : NodeOk cfg 0 nd) (hpc : nd.pc = .reduce i map)
    (hstore : StoreOk cfg store) {t : Sheet} (ht : store (countsKey i) = some t) :
    ∃ kbuf map', merge cfg i map nd store = some
      (⟨kbuf, if i + 1 < cfg.args.numNodes then .reduce (i + 1) map' else .done map'⟩, store) := by
  have hok := hnd.pc
  rw [hpc] at hok
  obtain ⟨-, hi, htally⟩ := hok
  obtain ⟨kbuf, hkey, -⟩ := hnd.kbuf.append_get i.toNat
  obtain ⟨ws, hws, hnodup, hmem⟩ := hstore.counts i t ht
  obtain ⟨map', hmap'⟩ : ∃ map', t.map adder map = some map' := by
    rw [Sheet.map, adder_spec hws]
    refine Option.isSome_iff_exists.mp (htally.foldlM_isSome fun w => ?_)
    have hsucc : nodesWith cfg i.toNat w + ws.count w = nodesWith cfg (i.toNat + 1) w := by
      rw [nodesWith, nodesWith, Finset.sum_range_succ, hnodup.count]
      exact congrArg (_ + ·) (if_congr (hmem w) rfl rfl)
    have hle := nodesWith_le hn (Nat.succ_le_of_lt (UInt64.lt_iff_toNat_lt.mp hi)) w
    have hlen := List.count_le_length (a := w) (l := cfg.words)
    have hw : cfg.words.length < 2 ^ 31 := hf
    have hsucc' : nodesWith cfg i.toNat.succ w = nodesWith cfg (i.toNat + 1) w := rfl
    omega
  refine ⟨kbuf, map', ?_⟩
  simp only [merge, mkKey, hkey, Option.bind_eq_bind, Option.bind_some, ht, hmap']
  rfl

theorem run_snoc {ms : List Move} {sys sys' : System} {m : Move} (h : run cfg ms = some sys)
    (hstep : step cfg sys m = some sys') : run cfg (ms ++ [m]) = some sys' := by
  obtain ⟨sys₀, h₀, h⟩ := Option.bind_eq_some_iff.mp h
  rw [run, h₀]
  exact Schedule.run_snoc.mpr ⟨sys, h, hstep⟩

theorem exists_counted (hn : cfg.args.numNodes ≠ 0) (hb : cfg.args.blockSize ≠ 0)
    (hf : Fits cfg) {k : ℕ} (hk : k ≤ cfg.args.numNodes.toNat) :
    ∃ ms sys, run cfg ms = some sys ∧
      (∀ j : SizeT, j.toNat < k → ∃ t, sys.store (countsKey j) = some t) ∧
      (∀ j : SizeT, k ≤ j.toNat → (sys.nodes j).pc = .count) ∧
      (0 < k → (sys.nodes 0).pc = .reduce 0 SIMap.new) := by
  induction k with
  | zero =>
    obtain ⟨kbuf, hkbuf, -⟩ := KeyBuff.ready_new bufKey
    have hinit : init cfg = some ⟨fun _ => ⟨kbuf, .count⟩,
        Function.update (fun _ => none) inKey (some (dataSheet cfg))⟩ := by
      rw [init, hkbuf]
      rfl
    have hrun : run cfg [] = init cfg := by
      rw [run, hinit]
      rfl
    exact ⟨[], _, hrun.trans hinit, fun j hj => absurd hj (Nat.not_lt_zero _), fun j _ => rfl,
      fun h => absurd h (Nat.not_lt_zero _)⟩
  | succ k ih =>
    obtain ⟨ms, sys, hrun, hstored, hcount, hzero⟩ := ih (by omega)
    have hkj : (UInt64.ofNat k).toNat = k :=
      UInt64.toNat_ofNat_of_lt' (Nat.lt_trans hk cfg.args.numNodes.toNat_lt)
    have hj : UInt64.ofNat k < cfg.args.numNodes := by
      rw [UInt64.lt_iff_toNat_lt, hkj]
      exact hk
    have hinv := inv_run hn hb hrun
    have hpc := hcount (UInt64.ofNat k) (by rw [hkj])
    obtain ⟨kbuf, t, hlocal⟩ := localCount_isSome hn hb hf hj (hinv.nodes _) hinv.store
    have hnode := (stepNode_count hpc).trans hlocal
    refine ⟨_, _, run_snoc hrun (step_eq hj hnode), fun j hjk => ?_, fun j hjk => ?_, fun _ => ?_⟩
    · show ∃ t', Function.update sys.store (countsKey (UInt64.ofNat k)) (some t)
        (countsKey j) = some t'
      rw [Function.update_apply]
      split
      · exact ⟨t, rfl⟩
      · rename_i hne
        refine hstored j (Nat.lt_of_le_of_ne (Nat.lt_succ_iff.mp hjk) fun he => hne ?_)
        rw [← he, UInt64.ofNat_toNat]
    · show (Function.update sys.nodes (UInt64.ofNat k) _ j).pc = _
      have hne : j ≠ UInt64.ofNat k := by
        rintro rfl
        omega
      rw [Function.update_of_ne hne]
      exact hcount j (by omega)
    · show (Function.update sys.nodes (UInt64.ofNat k) _ 0).pc = _
      by_cases h0 : (0 : SizeT) = UInt64.ofNat k
      · rw [h0, Function.update_self, ← h0]
        show (if (0 : SizeT) = 0 then Pc.reduce 0 SIMap.new else .idle) = _
        rw [if_pos rfl]
      · rw [Function.update_of_ne h0]
        refine hzero (Nat.pos_of_ne_zero fun hk0 => h0 ?_)
        rw [hk0]
        rfl

theorem exists_reduced (hn : cfg.args.numNodes ≠ 0) (hb : cfg.args.blockSize ≠ 0)
    (hf : Fits cfg) {k : ℕ} (hk : k < cfg.args.numNodes.toNat) :
    ∃ ms sys map, run cfg ms = some sys ∧
      (∀ j : SizeT, j < cfg.args.numNodes → ∃ t, sys.store (countsKey j) = some t) ∧
      (sys.nodes 0).pc = .reduce (UInt64.ofNat k) map := by
  induction k with
  | zero =>
    obtain ⟨ms, sys, hrun, hstored, -, hzero⟩ := exists_counted hn hb hf (Nat.le_refl _)
    exact ⟨ms, sys, SIMap.new, hrun, fun j hj => hstored j (UInt64.lt_iff_toNat_lt.mp hj),
      hzero (toNat_pos hn)⟩
  | succ k ih =>
    obtain ⟨ms, sys, map, hrun, hstored, hpc⟩ := ih (by omega)
    have h0 : (0 : SizeT) < cfg.args.numNodes := UInt64.lt_iff_toNat_lt.mpr (toNat_pos hn)
    have hmax := cfg.args.numNodes.toNat_lt
    have hkj : (UInt64.ofNat k).toNat = k := UInt64.toNat_ofNat_of_lt' (show k < 2 ^ 64 by omega)
    have hkn : UInt64.ofNat k < cfg.args.numNodes := by
      rw [UInt64.lt_iff_toNat_lt, hkj]
      omega
    have hinv := inv_run hn hb hrun
    obtain ⟨t, ht⟩ := hstored _ hkn
    obtain ⟨kbuf, map', hmerge⟩ := merge_isSome hn hf (hinv.nodes 0) hpc hinv.store ht
    have hnode := (stepNode_reduce 0 0 hpc).trans hmerge
    refine ⟨_, _, map', run_snoc hrun (step_eq h0 hnode), hstored, ?_⟩
    show (Function.update sys.nodes 0 _ 0).pc = _
    have hlt : UInt64.ofNat k + 1 < cfg.args.numNodes := by
      rw [UInt64.lt_iff_toNat_lt, DataFrame.toNat_succ hkn, hkj]
      exact hk
    rw [Function.update_self, UInt64.ofNat_add]
    exact if_pos hlt

/-- **The word count comes to its end.** -/
theorem exists_done (hn : cfg.args.numNodes ≠ 0) (hb : cfg.args.blockSize ≠ 0) (hf : Fits cfg) :
    ∃ ms sys map, run cfg ms = some sys ∧ (sys.nodes 0).pc = .done map := by
  have hpos := toNat_pos hn
  have hmax := cfg.args.numNodes.toNat_lt
  obtain ⟨ms, sys, map, hrun, hstored, hpc⟩ := exists_reduced hn hb hf (Nat.sub_lt hpos Nat.one_pos)
  have h0 : (0 : SizeT) < cfg.args.numNodes := UInt64.lt_iff_toNat_lt.mpr hpos
  have hlast : (UInt64.ofNat (cfg.args.numNodes.toNat - 1)).toNat = cfg.args.numNodes.toNat - 1 :=
    UInt64.toNat_ofNat_of_lt' (show cfg.args.numNodes.toNat - 1 < 2 ^ 64 by omega)
  have hlt : UInt64.ofNat (cfg.args.numNodes.toNat - 1) < cfg.args.numNodes := by
    rw [UInt64.lt_iff_toNat_lt, hlast]
    omega
  have hinv := inv_run hn hb hrun
  obtain ⟨t, ht⟩ := hstored _ hlt
  obtain ⟨kbuf, map', hmerge⟩ := merge_isSome hn hf (hinv.nodes 0) hpc hinv.store ht
  have hnode := (stepNode_reduce 0 0 hpc).trans hmerge
  refine ⟨_, _, map', run_snoc hrun (step_eq h0 hnode), ?_⟩
  show (Function.update sys.nodes 0 _ 0).pc = _
  have hnot : ¬ UInt64.ofNat (cfg.args.numNodes.toNat - 1) + 1 < cfg.args.numNodes := by
    rw [UInt64.lt_iff_toNat_lt, DataFrame.toNat_succ hlt, hlast]
    omega
  rw [Function.update_self]
  exact if_neg hnot

end Progress

/-- **The map at the end of `reduce` counts the words exactly when no node has a word
twice in its rows**; and there is an end. -/
theorem counts_iff (cfg : Config) (hn : cfg.args.numNodes ≠ 0) (hb : cfg.args.blockSize ≠ 0) :
    (Fits cfg → ∃ ms sys map, run cfg ms = some sys ∧ (sys.nodes 0).pc = .done map) ∧
      ∀ ms sys map, run cfg ms = some sys → (sys.nodes 0).pc = .done map →
        (Counts map cfg.words ↔ ∀ j, j < cfg.args.numNodes.toNat → (localWords cfg j).Nodup) := by
  refine ⟨exists_done hn hb, fun ms sys map hrun hpc => ?_⟩
  have hok := ((inv_run hn hb hrun).nodes 0).pc
  rw [hpc] at hok
  exact (counts_iff_of_tally hok.2 cfg.words).trans (nodesWith_eq_iff hn)

def wordA : CStr := ⟨[97], CStr.nulFree_a⟩

/-- The word `a` twice, in blocks of one row. -/
def twiceConfig (numNodes : SizeT) : Config := ⟨⟨numNodes, 1⟩, [wordA, wordA], by decide⟩

/-- On two nodes each has the word once. -/
theorem counts_iff_twice : ∃ ms sys map, run (twiceConfig 2) ms = some sys ∧
    (sys.nodes 0).pc = .done map ∧ Counts map [wordA, wordA] := by
  have hn : (twiceConfig 2).args.numNodes ≠ 0 := by decide
  have hb : (twiceConfig 2).args.blockSize ≠ 0 := by decide
  obtain ⟨hend, hiff⟩ := counts_iff (twiceConfig 2) hn hb
  obtain ⟨ms, sys, map, hrun, hpc⟩ := hend (by decide : 2 < 2 ^ 31)
  have hnodup : ∀ j, j < (twiceConfig 2).args.numNodes.toNat →
      (localWords (twiceConfig 2) j).Nodup := by
    intro j hj
    have hj : j < 2 := hj
    interval_cases j <;> decide
  exact ⟨ms, sys, map, hrun, hpc, (hiff ms sys map hrun hpc).mpr hnodup⟩

/-- **Alone a node has it twice, and counts one.** -/
theorem miscount : ∃ sys map, run (twiceConfig 1) [(0, 9), (0, 9)] = some sys ∧
    (sys.nodes 0).pc = .done map ∧ map.get wordA = some 1 ∧ ¬ Counts map [wordA, wordA] := by
  have hrun : (do
      let sys ← run (twiceConfig 1) [(0, 9), (0, 9)]
      match (sys.nodes 0).pc with
      | .done map => pure (map.get wordA)
      | _ => none) = some (some 1) := by decide +kernel
  obtain ⟨sys, h, hend⟩ := Option.bind_eq_some_iff.mp hrun
  split at hend
  · rename_i map hpc
    have hget := Option.some.inj hend
    refine ⟨sys, map, h, hpc, hget, fun hc => ?_⟩
    have hone := hc wordA
    rw [hget] at hone
    exact absurd hone (by decide)
  · cases hend

end WordCount

end Eau2
