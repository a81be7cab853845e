import Eau2.Application.Counts
import Eau2.Dataframe.Stored
import Eau2.Filereader.WordRows

/-!
# The word count on a cluster

All of `application/wordcount.h`, as programs that call their stores: node `0` reads the file
into a dataframe, every node counts the words in its rows and stores the counts, and node `0`
goes through the counts of all nodes and prints how many words it has found.

* `refines_localCount`: what `local_count` does to sheets, a node does to stored dataframes.
* `alone`: the programs one after another: node `0` begins, and ends.
* `prints_words`: **in every run node `0` prints the number of different words**, whatever is
  wrong with their counts.
* `word_count_finishes`: **in a fair and orderly run it does.**
-/

namespace Eau2

namespace WordCount

/-- What the nodes are run on: the file, whether `memcpy` moves what overlaps, what the buffer
of the reader holds before, and a bound of the loops. -/
structure Input where
  file : Str
  moves : Bool
  junk : Vector UInt8 (FileReader.BUFSIZE + 1)
  fuel : Nat

namespace OnCluster

open Pseudo

section Programs

variable (args : Args) (input : Input)

/-- What only node `0` does, at first. -/
def readIn (idx_ : SizeT) : Calls Unit :=
  if idx_ = 0 then do
    let fr ← Calls.ofOption (FileReader.new input.moves input.junk input.fuel input.file)
    let _ ← Calls.fromVisitor args input.fuel inKey [83] (fileReader input.moves input.fuel) fr
    pure ()
  else pure ()

def localCount (fuel : Nat) (idx_ : SizeT) (kbuf : KeyBuff) : Calls KeyBuff := do
  let words ← Calls.waitAndGet inKey
  let (map, _) ← Calls.DataFrame.localMap args idx_ fuel adder (SIMap.new, words)
  let (localKey, kbuf) ← Calls.ofOption (mkKey kbuf idx_)
  let _ ← Calls.fromVisitor args fuel localKey [83, 73] (summer map) Summer.new
  pure kbuf

def merge (df : DataFrame) (m : SIMap) : Calls SIMap := do
  let (m, _) ← Calls.DataFrame.map args adder (m, df)
  pure m

def mergeNext (s : KeyBuff × SIMap) (i : Nat) : Calls (KeyBuff × SIMap) := do
  let (ok, kbuf) ← Calls.ofOption (mkKey s.1 (UInt64.ofNat i))
  let df ← Calls.waitAndGet ok
  let map ← merge args df s.2
  pure (kbuf, map)

/-- `reduce`: the number that is printed. -/
def reduce (idx_ : SizeT) (kbuf : KeyBuff) : Calls (Option Nat) :=
  if idx_ ≠ 0 then pure none
  else do
    let (own, kbuf) ← Calls.ofOption (mkKey kbuf 0)
    let tmp ← Calls.get own
    let map ← merge args tmp SIMap.new
    let (_, map) ← (List.range' 1 (args.numNodes.toNat - 1)).foldlM (mergeNext args) (kbuf, map)
    pure (some map.size)

/-- The constructor, and `run_` without `reduce`. -/
def count (idx_ : SizeT) : Calls KeyBuff := do
  let kbuf ← Calls.ofOption (KeyBuff.new bufKey)
  readIn args input idx_
  localCount args input.fuel idx_ kbuf

def run_ (idx_ : SizeT) : Calls (Option Nat) := do
  let kbuf ← count args input idx_
  reduce args idx_ kbuf

abbrev cluster : Pseudo.Config := .ofApps args.numNodes fun i => (run_ args input i).run

end Programs

/-! ### Keys -/

section Keys

variable {args : Args} {k' : Key}

theorem not_named_in (h : Named args inKey inKey k') (j : SizeT) :
    ¬ Named args (countsKey j) (countsKey j) k' := by
  intro hj
  obtain ⟨rest, hk, -⟩ := h.text
  obtain ⟨rest', hk', -⟩ := hj.text
  rw [hk, KeyBuff.numbered_kStr] at hk'
  cases hk'

theorem not_named_counts {i j : SizeT} (hij : i ≠ j)
    (h : Named args (countsKey i) (countsKey i) k') :
    ¬ Named args (countsKey j) (countsKey j) k' := by
  intro hj
  obtain ⟨rest, hk, hrest⟩ := h.text
  obtain ⟨rest', hk', hrest'⟩ := hj.text
  rw [hk, KeyBuff.numbered_kStr, KeyBuff.numbered_kStr, List.append_assoc, List.append_assoc]
    at hk'
  -- the number ends where there is a dash
  have hnumber : ∀ (n : ℕ) (l : List UInt8), (∀ c, l.head? = some c → c = Key.dash) →
      (Bytes.decimal n ++ l).takeWhile (fun c => decide (c ≠ Key.dash)) = Bytes.decimal n := by
    intro n l hl
    have hdigits : ∀ c ∈ Bytes.decimal n, decide (c ≠ Key.dash) = true := by
      intro c hc
      refine decide_eq_true fun he => ?_
      exact Column.dash_not_mem_decimal n (he ▸ hc)
    rw [List.takeWhile_append_of_pos hdigits]
    cases l with
    | nil => rw [List.takeWhile_nil, List.append_nil]
    | cons c l =>
      rw [List.takeWhile_cons_of_neg (by rw [hl c rfl]; decide), List.append_nil]
  have heq := congrArg (List.takeWhile fun c => decide (c ≠ Key.dash))
    (List.append_cancel_left hk')
  rw [hnumber _ _ hrest, hnumber _ _ hrest'] at heq
  exact hij (UInt64.toNat_inj.mp (Bytes.decimal_inj heq))

end Keys

/-! ### From sheets to stored dataframes -/

/-- The nodes have stored the sheets: node `0` the words, and every node its counts. -/
structure Backs (args : Args) (w : Written) (store : Sheets) : Prop where
  data : ∀ t, store inKey = some t → Holds args w 0 inKey t
  counts : ∀ j t, store (countsKey j) = some t → Holds args w j (countsKey j) t

section Refines

variable {cfg : WordCount.Config} {w : Written} {store store' : Sheets} {nd nd' : WordCount.Node}
  {fuel : Nat} {j : SizeT}

/-- **What `local_count` does to sheets, a node does to what is stored.** -/
theorem refines_localCount (hn : cfg.args.numNodes ≠ 0) (hb : cfg.args.blockSize ≠ 0)
    (h : WordCount.localCount cfg fuel j nd store = some (nd', store'))
    (hback : Backs cfg.args w store) (hready : nd.kbuf.Ready bufKey)
    (hnew : ∀ k', Named cfg.args (countsKey j) (countsKey j) k' → w k' = none) :
    ∃ w', Runs j (localCount cfg.args fuel j nd.kbuf) w nd'.kbuf w' ∧
      Backs cfg.args w' store' ∧ w.Le w' ∧
      ∀ k', w' k' ≠ none → w k' ≠ none ∨ Named cfg.args (countsKey j) (countsKey j) k' := by
  obtain ⟨words, hwords, h⟩ := Option.bind_eq_some_iff.mp h
  obtain ⟨map, hmap, h⟩ := Option.bind_eq_some_iff.mp h
  obtain ⟨⟨key, kbuf⟩, hkey, h⟩ := Option.bind_eq_some_iff.mp h
  obtain ⟨counts, hcounts, h⟩ := Option.bind_eq_some_iff.mp h
  cases h
  obtain ⟨kbuf', hkey', -⟩ := hready.append_get j.toNat
  have hmk : mkKey nd.kbuf j = some (countsKey j, kbuf') := hkey'
  rw [hmk] at hkey
  cases hkey
  obtain ⟨df, hget, hhandle⟩ := (hback.data words hwords).runs_waitAndGet (i := j)
  obtain ⟨df', hlocal⟩ := hhandle.runs_localMap hn hb hmap (i := j)
  have hlen : ([83, 73] : Str).length < 2 ^ 64 := by decide
  obtain ⟨_, w', hfrom, hholds, hle, honly⟩ := runs_fromVisitor (i := j) hn hb hlen rfl hcounts hnew
  refine ⟨w', ?_, ⟨fun t ht => ?_, fun i t ht => ?_⟩, hle, honly⟩
  · exact hget.bind (hlocal.bind ((runs_ofOption.mpr ⟨hmk, rfl⟩).bind
      (hfrom.bind (runs_pure.mpr ⟨rfl, rfl⟩))))
  · rw [Function.update_of_ne (countsKey_ne j).symm] at ht
    exact (hback.data t ht).mono hle
  · rw [Function.update_apply] at ht
    split at ht
    · rename_i he
      cases ht
      rw [countsKey_inj he]
      exact hholds
    · exact (hback.counts i t ht).mono hle

/-- **What `merge` does to sheets, node `0` does to what is stored.** -/
theorem runs_merge (hn : cfg.args.numNodes ≠ 0) (hb : cfg.args.blockSize ≠ 0) {df : DataFrame}
    {counts : Sheet} {map map' : SIMap} (hdf : Handle cfg.args w counts df)
    (hmap : counts.map adder map = some map') :
    Runs 0 (merge cfg.args df map) w map' w := by
  obtain ⟨df', hrun⟩ := hdf.runs_map hn hb hmap (i := 0)
  exact hrun.bind (runs_pure.mpr ⟨rfl, rfl⟩)

end Refines

/-! ### The programs one after another -/

section Fuel

variable {cfg : WordCount.Config}

theorem localCount_mono {fuel fuel' : Nat} {j : SizeT} {nd : WordCount.Node} {store : Sheets}
    {r : WordCount.Node × Sheets} (h : WordCount.localCount cfg fuel j nd store = some r)
    (hle : fuel ≤ fuel') : WordCount.localCount cfg fuel' j nd store = some r := by
  obtain ⟨words, hwords, h⟩ := Option.bind_eq_some_iff.mp h
  obtain ⟨map, hmap, h⟩ := Option.bind_eq_some_iff.mp h
  obtain ⟨⟨key, kbuf⟩, hkey, h⟩ := Option.bind_eq_some_iff.mp h
  obtain ⟨counts, hcounts, h⟩ := Option.bind_eq_some_iff.mp h
  have hmap' : words.localMap cfg.args j fuel' adder SIMap.new = some map := by
    obtain ⟨is, his, hfold⟩ := Option.bind_eq_some_iff.mp hmap
    rw [Sheet.localMap, DataFrame.localIdxs_mono his hle]
    exact hfold
  have hcounts' : Sheet.fromVisitor [.Str, .Integer] (summer map) fuel' Summer.new =
      some counts := by
    obtain ⟨htypes, hemits, hlt⟩ := Sheet.fromVisitor_eq_some_iff.mp hcounts
    exact Sheet.fromVisitor_eq_some_iff.mpr ⟨htypes, hemits, Nat.lt_of_lt_of_le hlt hle⟩
  simp only [WordCount.localCount, hwords, hmap', hkey, hcounts', Option.bind_eq_bind,
    Option.bind_some]
  exact h

end Fuel

section Turns

variable {cfg : WordCount.Config} {w : Written} {kbuf : KeyBuff} {i : SizeT}

/-- What has been put when the nodes below `m` have counted their words. -/
def CountedTo (cfg : WordCount.Config) (m : ℕ) (w : Written) : Prop :=
  ∃ store, StoreOk cfg store ∧ Backs cfg.args w store ∧
    (∀ j : SizeT, j.toNat < m → ∃ t, store (countsKey j) = some t) ∧
    ∀ k', w k' ≠ none → Named cfg.args inKey inKey k' ∨
      ∃ j : SizeT, j.toNat < m ∧ Named cfg.args (countsKey j) (countsKey j) k'

/-- **A node counts its words after the nodes below it.** -/
theorem CountedTo.runs_localCount (hw : CountedTo cfg i.toNat w) (hn : cfg.args.numNodes ≠ 0)
    (hb : cfg.args.blockSize ≠ 0) (hf : Fits cfg) (hi : i < cfg.args.numNodes)
    (hready : kbuf.Ready bufKey) {fuel : Nat} (hfuel : cfg.words.length < fuel) :
    ∃ kbuf' w', Runs i (localCount cfg.args fuel i kbuf) w kbuf' w' ∧ kbuf'.Ready bufKey ∧
      CountedTo cfg (i.toNat + 1) w' := by
  obtain ⟨store, hstore, hback, hall, honly⟩ := hw
  have hnode : NodeOk cfg i ⟨kbuf, .count⟩ := ⟨hready, trivial⟩
  obtain ⟨kbuf', t, hlocal⟩ := localCount_isSome hn hb hf hi hnode hstore
  obtain ⟨hnode', hstore'⟩ := localCount_ok hn hb hlocal hnode hstore
  have hnew : ∀ k', Named cfg.args (countsKey i) (countsKey i) k' → w k' = none := by
    intro k' hk'
    by_contra hne
    rcases honly k' hne with hin | ⟨j, hj, hcounts⟩
    · exact not_named_in hin i hk'
    · refine not_named_counts ?_ hcounts hk'
      rintro rfl
      omega
  obtain ⟨w', hrun, hback', -, honly'⟩ :=
    refines_localCount hn hb (localCount_mono hlocal hfuel) hback hready hnew
  refine ⟨kbuf', w', hrun, hnode'.kbuf, _, hstore', hback', fun j hj => ?_, fun k' hk' => ?_⟩
  · show ∃ t', Function.update store (countsKey i) (some t) (countsKey j) = some t'
    rw [Function.update_apply]
    split
    · exact ⟨t, rfl⟩
    · rename_i hne
      refine hall j (Nat.lt_of_le_of_ne (Nat.lt_succ_iff.mp hj) fun he => hne ?_)
      rw [UInt64.toNat_inj.mp he]
  · rcases honly' k' hk' with hk' | hk'
    · rcases honly k' hk' with hin | ⟨j, hj, hcounts⟩
      · exact Or.inl hin
      · exact Or.inr ⟨j, by omega, hcounts⟩
    · exact Or.inr ⟨i, Nat.lt_succ_self _, hk'⟩

theorem exists_merged (hn : cfg.args.numNodes ≠ 0) (hf : Fits cfg) (hi : i < cfg.args.numNodes)
    (hready : kbuf.Ready bufKey) {map : SIMap} (ht : Tally map (nodesWith cfg i.toNat))
    {store : Sheets} (hstore : StoreOk cfg store) {t : Sheet}
    (hcounts : store (countsKey i) = some t) :
    ∃ kbuf' map', mkKey kbuf i = some (countsKey i, kbuf') ∧ kbuf'.Ready bufKey ∧
      t.map adder map = some map' ∧ Tally map' (nodesWith cfg (i.toNat + 1)) := by
  have hnode : NodeOk cfg 0 ⟨kbuf, .reduce i map⟩ := ⟨hready, rfl, hi, ht⟩
  obtain ⟨kbuf', map', hmerge⟩ := merge_isSome hn hf hnode rfl hstore hcounts
  obtain ⟨hnode', -⟩ := merge_ok hmerge hnode rfl hstore
  obtain ⟨kbuf₁, hkey, -⟩ := hready.append_get i.toNat
  have hmk : mkKey kbuf i = some (countsKey i, kbuf₁) := hkey
  simp only [WordCount.merge, Option.bind_eq_bind, hmk, hcounts, Option.bind_some] at hmerge
  obtain ⟨map₁, hmap, hmerge⟩ := Option.bind_eq_some_iff.mp hmerge
  have hsucc : (i + 1).toNat = i.toNat + 1 := DataFrame.toNat_succ hi
  obtain ⟨hk, hpc⟩ := WordCount.Node.mk.inj (Prod.mk.inj (Option.some.inj hmerge)).1
  have hok := hnode'.pc
  refine ⟨kbuf', map', by rw [← hk]; exact hmk, hnode'.kbuf, ?_, ?_⟩
  · split at hpc <;> cases hpc <;> exact hmap
  · by_cases hlt : i + 1 < cfg.args.numNodes
    · simp only [if_pos hlt] at hok
      rw [← hsucc]
      exact hok.2.2
    · simp only [if_neg hlt] at hok
      have h1 := UInt64.lt_iff_toNat_lt.mp hi
      rw [UInt64.lt_iff_toNat_lt, hsucc] at hlt
      rw [show i.toNat + 1 = cfg.args.numNodes.toNat by omega]
      exact hok.2

/-- **`reduce` goes through the counts of all nodes.** -/
theorem CountedTo.runs_reduce (hw : CountedTo cfg cfg.args.numNodes.toNat w)
    (hn : cfg.args.numNodes ≠ 0) (hb : cfg.args.blockSize ≠ 0) (hf : Fits cfg)
    (hready : kbuf.Ready bufKey) :
    ∃ map, Runs 0 (reduce cfg.args 0 kbuf) w (some map.size) w ∧
      Tally map (nodesWith cfg cfg.args.numNodes.toNat) := by
  obtain ⟨store, hstore, hback, hall, -⟩ := hw
  have hpos := toNat_pos hn
  have h0 : (0 : SizeT) < cfg.args.numNodes := UInt64.lt_iff_toNat_lt.mpr hpos
  -- its own counts
  obtain ⟨t₀, ht₀⟩ := hall 0 hpos
  obtain ⟨kbuf₁, map₁, hkey, hready₁, hmap, ht₁⟩ :=
    exists_merged hn hf h0 hready tally_new hstore ht₀
  obtain ⟨tmp, hget, htmp⟩ := (hback.counts 0 t₀ ht₀).runs_get rfl
  have hmerge := runs_merge hn hb htmp hmap
  -- and those of the others
  let I (r : ℕ) (s : KeyBuff × SIMap) : Prop := s.1.Ready bufKey ∧ Tally s.2 (nodesWith cfg r)
  have hstep : ∀ r, 1 ≤ r → r < 1 + (cfg.args.numNodes.toNat - 1) → ∀ s, I r s →
      ∃ s', Runs 0 (mergeNext cfg.args s r) w s' w ∧ I (r + 1) s' := by
    rintro r - hr ⟨kbuf, map⟩ ⟨hready, ht⟩
    have hmax := cfg.args.numNodes.toNat_lt
    have hrr : (UInt64.ofNat r).toNat = r := UInt64.toNat_ofNat_of_lt' (show r < 2 ^ 64 by omega)
    have hlt : UInt64.ofNat r < cfg.args.numNodes := by
      rw [UInt64.lt_iff_toNat_lt, hrr]
      omega
    obtain ⟨t, hcounts⟩ := hall (UInt64.ofNat r) (by omega)
    obtain ⟨kbuf', map', hkey, hready', hmap, ht'⟩ :=
      exists_merged hn hf hlt hready (by rwa [hrr]) hstore hcounts
    obtain ⟨df, hwait, hdf⟩ := (hback.counts _ t hcounts).runs_waitAndGet (i := 0)
    rw [hrr] at ht'
    exact ⟨(kbuf', map'), (runs_ofOption.mpr ⟨hkey, rfl⟩).bind (hwait.bind
      ((runs_merge hn hb hdf hmap).bind (runs_pure.mpr ⟨rfl, rfl⟩))), hready', ht'⟩
  obtain ⟨⟨kbuf', map'⟩, hloop, -, ht'⟩ := runs_foldlM_range' hstep (a := (kbuf₁, map₁))
    ⟨hready₁, ht₁⟩
  rw [Nat.add_sub_cancel' hpos] at ht'
  refine ⟨map', ?_, ht'⟩
  rw [reduce, if_neg (not_not.mpr rfl)]
  exact (runs_ofOption.mpr ⟨hkey, rfl⟩).bind (hget.bind (hmerge.bind (hloop.bind
    (runs_pure.mpr ⟨rfl, rfl⟩))))

end Turns

/-! ### How many words there are -/

theorem size_of_tally {m : SIMap} {f : CStr → ℕ} (h : Tally m f) {ws : List CStr}
    (hws : ∀ w, f w = 0 ↔ w ∉ ws) : m.size = ws.dedup.length := by
  have hnodup : (m.entries.map Prod.fst).Nodup := by
    rw [List.Nodup, List.pairwise_map]
    exact h.valid.distinct_entries.imp fun hne he => hne (ExactHashKey.equals_iff.mpr he)
  have hmem : ∀ w, w ∈ m.entries.map Prod.fst ↔ w ∈ ws.dedup := by
    intro w
    have hget : (m.get w).isSome ↔ w ∈ ws := by
      rw [h.get, ← not_iff_not, ← hws w]
      by_cases h0 : f w = 0
      · simp [h0]
      · simp [h0]
    rw [List.mem_dedup, ← hget]
    constructor
    · exact Map.isSome_get_of_mem_getKeys h.valid
    · intro hsome
      obtain ⟨n, hn⟩ := Option.isSome_iff_exists.mp hsome
      obtain ⟨w', hw', he⟩ := Map.exists_mem_getKeys hn
      rwa [← ExactHashKey.equals_iff.mp he]
  have hperm := (List.perm_ext_iff_of_nodup hnodup (List.nodup_dedup ws)).mpr hmem
  rw [h.valid.size_eq, ← hperm.length_eq, List.length_map]

theorem nodesWith_eq_zero_iff {cfg : WordCount.Config} (hn : cfg.args.numNodes ≠ 0) (w : CStr) :
    nodesWith cfg cfg.args.numNodes.toNat w = 0 ↔ w ∉ cfg.words := by
  rw [← List.count_eq_zero, ← sum_count hn, nodesWith, Finset.sum_eq_zero_iff,
    Finset.sum_eq_zero_iff]
  refine forall₂_congr fun j _ => ?_
  rw [List.count_eq_zero]
  simp

/-! ### The whole program -/

/-- A file that is read word by word, whose words are counted without an overflow, and bounds
that the loops do not reach.  `windows` excludes a word too long for the buffer, and a file
whose end is the end of a window. -/
structure Readable (input : Input) : Prop where
  ends : FileReader.Ends input.file
  windows : FileReader.Windows input.moves input.file
  nulFree : Bytes.NulFree input.file
  words : (words input.file).length < 2 ^ 31
  fuel : input.file.length < input.fuel

def printed (input : Input) (idx_ : SizeT) : Option Nat :=
  if idx_ = 0 then some (Eau2.words input.file).dedup.length else none

section Whole

variable {args : Args} {input : Input}

/-- **Node `0` stores the words of the file.** -/
theorem runs_readIn (hn : args.numNodes ≠ 0) (hb : args.blockSize ≠ 0) (h : Readable input) :
    ∃ cfg : WordCount.Config, cfg.args = args ∧ cfg.words.map Subtype.val = words input.file ∧
      ∃ w, Runs 0 (readIn args input 0) Written.empty () w ∧ CountedTo cfg 0 w := by
  have hscm : (Schema.ofCols [.Str]).types = [.Str] := rfl
  obtain ⟨r, hnew, ws, hws, hemits⟩ := FileReader.exists_emits hscm input.junk h.ends h.windows
    h.nulFree h.fuel 0
  have hlen : ws.length = (words input.file).length := by rw [← hws, List.length_map]
  have hle := length_words_le input.file
  have hfit : ws.length < 2 ^ 64 := by
    have := h.words
    omega
  have hsheet : Sheet.fromVisitor [.Str] (fileReader input.moves input.fuel) input.fuel r =
      some (dataSheet ⟨args, ws, hfit⟩) := by
    refine Sheet.fromVisitor_eq_some_iff.mpr ⟨rfl, hemits, ?_⟩
    show (ws.map _).length < input.fuel
    have := h.fuel
    rw [List.length_map]
    omega
  have hscmLen : ([83] : Str).length < 2 ^ 64 := by decide
  obtain ⟨df, w, hrun, hholds, -, honly⟩ := runs_fromVisitor (i := 0) (w := Written.empty)
    (k := inKey) hn hb hscmLen rfl hsheet fun _ _ => rfl
  refine ⟨⟨args, ws, hfit⟩, rfl, hws, w, ?_, ?_⟩
  · rw [readIn, if_pos rfl]
    exact (runs_ofOption.mpr ⟨hnew, rfl⟩).bind (hrun.bind (runs_pure.mpr ⟨rfl, rfl⟩))
  let store : Sheets := Function.update (fun _ => none) inKey (some (dataSheet ⟨args, ws, hfit⟩))
  have hdata : store inKey = some (dataSheet ⟨args, ws, hfit⟩) := Function.update_self _ _ _
  have hcounts : ∀ j, store (countsKey j) = none := fun j =>
    Function.update_of_ne (countsKey_ne j) _ _
  refine ⟨store, ⟨hdata, fun j t ht => ?_⟩, ⟨fun t ht => ?_, fun j t ht => ?_⟩,
    fun j hj => absurd hj (Nat.not_lt_zero _), fun k' hk' => ?_⟩
  · rw [hcounts] at ht
    cases ht
  · rw [hdata] at ht
    cases ht
    exact hholds
  · rw [hcounts] at ht
    cases ht
  · exact Or.inl ((honly k' hk').resolve_left fun h => h rfl)

/-- **The programs come to their end**: node `0` begins, the others count, and node `0` ends. -/
theorem alone (hn : args.numNodes ≠ 0) (hb : args.blockSize ≠ 0) (h : Readable input) :
    ∃ w, Alone args.numNodes (fun i => (run_ args input i).run)
      (fun i => some (printed input i)) w := by
  obtain ⟨cfg, rfl, hwords, w₀, hread, hw₀⟩ := runs_readIn hn hb h
  have hlen : cfg.words.length = (words input.file).length := by rw [← hwords, List.length_map]
  have hf : Fits cfg := hlen.trans_lt h.words
  have hfuel : cfg.words.length < input.fuel := by
    have := length_words_le input.file
    have := h.fuel
    omega
  have h0 : (0 : SizeT) < cfg.args.numNodes := UInt64.lt_iff_toNat_lt.mpr (toNat_pos hn)
  obtain ⟨kbuf, hkbuf, hready⟩ := KeyBuff.ready_new bufKey
  obtain ⟨kbuf₁, w₁, hlocal, hready₁, hw₁⟩ := hw₀.runs_localCount hn hb hf h0 hready hfuel
  have hbegin : Runs 0 (count cfg.args input 0) Written.empty kbuf₁ w₁ :=
    (runs_ofOption.mpr ⟨hkbuf, rfl⟩).bind (hread.bind hlocal)
  refine alone_of_master (I := CountedTo cfg) (b := some kbuf₁)
    (f := fun o => o.elim (pure none) fun kbuf => (reduce cfg.args 0 kbuf).run) h0 ?_ hbegin hw₁
    (fun i hi hne w hw => ?_) fun w hw => ?_
  · rw [run_, OptionT.run_bind]
    rfl
  · obtain ⟨kbuf', w', hlocal', -, hw'⟩ := hw.runs_localCount hn hb hf hi hready hfuel
    refine ⟨w', ?_, hw'⟩
    show Runs i (run_ cfg.args input i) w (printed input i) w'
    rw [run_, count, readIn, if_neg hne, printed, if_neg hne]
    refine Runs.bind ((runs_ofOption.mpr ⟨hkbuf, rfl⟩).bind
      ((runs_pure.mpr ⟨rfl, rfl⟩).bind hlocal')) ?_
    rw [reduce, if_pos hne]
    exact runs_pure.mpr ⟨rfl, rfl⟩
  · obtain ⟨map, hreduce, htally⟩ := hw.runs_reduce hn hb hf hready₁
    refine ⟨w, ?_⟩
    show Runs 0 (reduce cfg.args 0 kbuf₁) w (printed input 0) w
    have hsize := size_of_tally htally (nodesWith_eq_zero_iff hn)
    have hdedup : (words input.file).dedup = cfg.words.dedup.map Subtype.val := by
      rw [← hwords, List.dedup_map_of_injective Subtype.val_injective]
    rw [printed, if_pos rfl, hdedup, List.length_map, ← hsize]
    exact hreduce

/-! ### The nodes of the keys -/

theorem mkKey_eq_some {kbuf kbuf' : KeyBuff} {idx : SizeT} {k : Key}
    (h : mkKey kbuf idx = some (k, kbuf')) :
    k.homeNode = kbuf.orig.homeNode ∧ kbuf'.orig = kbuf.orig := by
  obtain ⟨b, hb, h⟩ := Option.bind_eq_some_iff.mp h
  obtain ⟨buf, -, hb⟩ := Option.bind_eq_some_iff.mp hb
  cases hb
  obtain ⟨⟨str, buf₁⟩, -, h⟩ := Option.bind_eq_some_iff.mp h
  obtain ⟨buf₂, -, h⟩ := Option.bind_eq_some_iff.mp h
  dsimp only at h
  split at h
  · cases h
    exact ⟨rfl, rfl⟩
  · cases h

theorem new_orig {orig : Key} {kbuf : KeyBuff} (h : KeyBuff.new orig = some kbuf) :
    kbuf.orig = orig := by
  obtain ⟨buf, -, h⟩ := Option.bind_eq_some_iff.mp h
  cases h
  rfl

theorem homed (hn : args.numNodes ≠ 0) (hb : args.blockSize ≠ 0) (input : Input) :
    Homed (cluster args input) := by
  have h0 : (0 : SizeT) < args.numNodes := UInt64.lt_iff_toNat_lt.mpr (toNat_pos hn)
  have hin : inKey.homeNode < args.numNodes := h0
  have hlen : ([83] : Str).length < 2 ^ 64 := by decide
  have hlen' : ([83, 73] : Str).length < 2 ^ 64 := by decide
  have hkey : ∀ {kbuf kbuf' : KeyBuff} {idx : SizeT} {k : Key}, kbuf.orig = bufKey →
      mkKey kbuf idx = some (k, kbuf') → k.homeNode < args.numNodes ∧ kbuf'.orig = bufKey := by
    intro kbuf kbuf' idx k ho hk
    obtain ⟨hhome, ho'⟩ := mkKey_eq_some hk
    rw [hhome, ho]
    exact ⟨h0, ho'.trans ho⟩
  have hread : ∀ idx, Within args.numNodes (readIn args input idx) := fun idx =>
    .ite ((Within.ofOption _).bind fun _ =>
      (within_fromVisitor hn hb hin hlen _ _ _).bind fun _ => .pure _) (.pure _)
  have hlocal : ∀ idx kbuf, kbuf.orig = bufKey →
      Within args.numNodes (localCount args input.fuel idx kbuf) := fun idx kbuf ho =>
    (within_waitAndGet hin).bind fun _ => (within_localMap idx _ _ _).bind fun _ =>
      Within.ofOption_bind fun _ hk =>
        (within_fromVisitor hn hb (hkey ho hk).1 hlen' _ _ _).bind fun _ => .pure _
  have hmerge : ∀ df m, Within args.numNodes (merge args df m) := fun df m =>
    (within_map adder (m, df)).bind fun _ => .pure _
  have hnext : ∀ (s : KeyBuff × SIMap) i, s.1.orig = bufKey →
      Within args.numNodes (mergeNext args s i) := fun s i ho =>
    Within.ofOption_bind fun _ hk => (within_waitAndGet (hkey ho hk).1).bind fun _ =>
      (hmerge _ _).bind fun _ => .pure _
  -- the buffer that is left is a buffer of the same key
  have hkept : ∀ (s : KeyBuff × SIMap) i s', s.1.orig = bufKey →
      (mergeNext args s i).run.MayReturn (some s') → s'.1.orig = bufKey := by
    intro s i s' ho hs'
    obtain ⟨⟨k, kbuf⟩, hk, hs'⟩ := exists_of_mayReturn_bind hs'
    obtain ⟨df, -, hs'⟩ := exists_of_mayReturn_bind hs'
    obtain ⟨map, -, hs'⟩ := exists_of_mayReturn_bind hs'
    rw [eq_of_mayReturn_pure hs']
    exact (hkey ho (eq_of_mayReturn_ofOption hk)).2
  have hcounted : ∀ idx kbuf, (count args input idx).run.MayReturn (some kbuf) →
      kbuf.orig = bufKey := by
    intro idx kbuf hk
    obtain ⟨kbuf₀, h₀, hk⟩ := exists_of_mayReturn_bind hk
    obtain ⟨_, -, hk⟩ := exists_of_mayReturn_bind hk
    obtain ⟨_, -, hk⟩ := exists_of_mayReturn_bind hk
    obtain ⟨_, -, hk⟩ := exists_of_mayReturn_bind hk
    obtain ⟨⟨k, kbuf₁⟩, h₁, hk⟩ := exists_of_mayReturn_bind hk
    obtain ⟨_, -, hk⟩ := exists_of_mayReturn_bind hk
    rw [eq_of_mayReturn_pure hk]
    exact (hkey (new_orig (eq_of_mayReturn_ofOption h₀)) (eq_of_mayReturn_ofOption h₁)).2
  refine homed_ofApps fun i => ?_
  have hcount : Within args.numNodes (count args input i) :=
    Within.ofOption_bind fun kbuf hk => (hread i).bind fun _ => hlocal i kbuf (new_orig hk)
  refine hcount.bind_of fun kbuf hk => .ite (.pure _) ?_
  have ho := hcounted i kbuf hk
  exact Within.ofOption_bind fun _ hk => (within_take (hkey ho hk).1).bind fun _ =>
    (hmerge _ _).bind fun _ =>
      (Within.foldlM_of hnext hkept _ (hkey ho hk).2).bind fun _ => .pure _

/-- **Whatever the schedule, node `0` prints how many different words there are**, and no
assertion of a store fails. -/
theorem prints_words (hn : args.numNodes ≠ 0) (hb : args.blockSize ≠ 0) (hr : Readable input)
    (ts : List ThreadId) (st : Cluster) (h : Pseudo.run (cluster args input) ts = some st) :
    st.fault = none ∧ ∀ i, i < args.numNodes → ∀ r,
      (run_ args input i).run.result (st.nodes i).results = some r →
        r = some (printed input i) := by
  obtain ⟨w, halone⟩ := alone hn hb hr
  exact ⟨halone.writeOnce.no_fault (homed hn hb input) rfl h,
    fun i hi r hr => halone.result_eq h hi hr⟩

/-- **In a fair and orderly run the word count comes to its end** on all nodes, and node `0`
has printed the number. -/
theorem word_count_finishes (hn : args.numNodes ≠ 0) (hb : args.blockSize ≠ 0)
    (hr : Readable input) (ρ : Fair (cluster args input)) (ho : OrderlyRun ρ) :
    ∃ m₀, ∀ m, m₀ ≤ m → ∀ i, i < args.numNodes →
      ((ρ.state m).nodes i).app = .finished ∧ ((ρ.state m).nodes i).rcv = .exited ∧
        (run_ args input i).run.result ((ρ.state m).nodes i).results =
          some (some (printed input i)) := by
  obtain ⟨w, halone⟩ := alone hn hb hr
  obtain ⟨m₀, hm₀⟩ := halone.ends (homed hn hb input) ρ ho
  exact ⟨m₀, fun m hm => (hm₀ m hm).1⟩

end Whole

/-! ### Three words, of which two are the same -/

/-- The file `a b a`, with a blank at its end. -/
def sampleInput : Input := ⟨[97, 32, 98, 32, 97, 32], false, Vector.replicate 1025 0, 7⟩

theorem readable_sampleInput : Readable sampleInput where
  ends c hc := by
    cases hc
    rfl
  windows := .last (by decide)
  nulFree := by decide
  words := by decide
  fuel := by decide

theorem printed_sampleInput : printed sampleInput 0 = some 2 := by decide

theorem exists_run_sampleInput : ∃ ρ : Fair (cluster ⟨2, 1⟩ sampleInput), OrderlyRun ρ := by
  have hn : (⟨2, 1⟩ : Args).numNodes ≠ 0 := by decide
  have hb : (⟨2, 1⟩ : Args).blockSize ≠ 0 := by decide
  obtain ⟨w, halone⟩ := alone hn hb readable_sampleInput
  exact halone.writeOnce.exists_orderlyRun (homed hn hb sampleInput) rfl

/-- A state in which node `0` has printed its line. -/
theorem prints_words_sample : ∃ ts st, Pseudo.run (cluster ⟨2, 1⟩ sampleInput) ts = some st ∧
    (run_ ⟨2, 1⟩ sampleInput 0).run.result (st.nodes 0).results = some (some (some 2)) := by
  have hn : (⟨2, 1⟩ : Args).numNodes ≠ 0 := by decide
  have hb : (⟨2, 1⟩ : Args).blockSize ≠ 0 := by decide
  obtain ⟨w, halone⟩ := alone hn hb readable_sampleInput
  obtain ⟨ρ, ho⟩ := exists_run_sampleInput
  obtain ⟨m₀, hm₀⟩ := halone.ends (homed hn hb sampleInput) ρ ho
  obtain ⟨-, -, hr⟩ := (hm₀ m₀ (Nat.le_refl m₀)).1 0 (by decide)
  have hline := (prints_words hn hb readable_sampleInput _ _ (ρ.run m₀)).2 0 (by decide) _ hr
  exact ⟨_, _, ρ.run m₀, hr.trans (by rw [hline, printed_sampleInput])⟩

theorem word_count_finishes_sample : ∃ ρ : Fair (cluster ⟨2, 1⟩ sampleInput), ∃ m₀, ∀ m, m₀ ≤ m →
    ∀ i, i < 2 → ((ρ.state m).nodes i).app = .finished ∧ ((ρ.state m).nodes i).rcv = .exited ∧
      (run_ ⟨2, 1⟩ sampleInput i).run.result ((ρ.state m).nodes i).results =
        some (some (printed sampleInput i)) := by
  obtain ⟨ρ, ho⟩ := exists_run_sampleInput
  exact ⟨ρ, word_count_finishes (by decide) (by decide) readable_sampleInput ρ ho⟩

end OnCluster

end WordCount

end Eau2
