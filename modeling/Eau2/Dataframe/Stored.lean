import Eau2.Dataframe.Calls
import Eau2.Dataframe.Sheet

/-!
# Dataframes that have been stored

What a program alone with the store does to dataframes, said with their sheets: `Holds`
says that a node has stored the dataframe of a sheet under a key, and stays true.

* `Created.runs`: **a dataframe under new keys is stored.**
* `Holds.runs_waitAndGet`, `Holds.runs_get`: and gotten.
* `runs_map`, `runs_localMap`: what `map` and `local_map` do to its sheet they do to it.
-/

namespace Eau2

open Pseudo

/-- The keys of a dataframe with key `k` and columns' base key `base`. -/
def Named (args : Args) (k base k' : Key) : Prop :=
  k' = k ∨ ∃ c b, k' = Column.blockKey args base c b

/-- **Node `j` has stored the sheet under `k`.** -/
def Holds (args : Args) (w : Written) (j : SizeT) (k : Key) (t : Sheet) : Prop :=
  ∃ base capCols df puts, DataToDf.Created args k base t.types capCols t.rows df puts ∧
    ∀ p ∈ puts, w p.1 = some (j, p.2)

/-- A store in which nothing has been put again. -/
def Pseudo.Written.Le (w w' : Written) : Prop := ∀ k p, w k = some p → w' k = some p

theorem Pseudo.Written.Le.refl (w : Written) : w.Le w := fun _ _ h => h

theorem Pseudo.Written.Le.trans {w w' w'' : Written} (h : w.Le w') (h' : w'.Le w'') : w.Le w'' :=
  fun k p hk => h' k p (h k p hk)

section

variable {args : Args} {w w' : Written} {i j n : SizeT} {k k' k₁ base base₁ : Key} {t : Sheet}

/-! ### Keys -/

/-- After the text of its base, the key of a dataframe is at its end or goes on with a dash. -/
theorem Named.text (h : Named args k k k') :
    ∃ rest, k'.kStr.val = k.kStr.val ++ rest ∧ ∀ c, rest.head? = some c → c = Key.dash := by
  rcases h with rfl | ⟨c, b, rfl⟩
  · exact ⟨[], (List.append_nil _).symm, fun c hc => by cases hc⟩
  · exact ⟨_, Column.blockKey_kStr args k c b, fun c hc => (Option.some.inj hc).symm⟩

theorem Named.isPrefix (h : Named args k base k') (hbase : k.kStr.val <+: base.kStr.val) :
    k.kStr.val <+: k'.kStr.val := by
  rcases h with rfl | ⟨c, b, rfl⟩
  · exact List.prefix_rfl
  · rw [Column.blockKey_kStr]
    exact hbase.trans (List.prefix_append _ _)

theorem not_named_of_not_isPrefix (hbase : k.kStr.val <+: base.kStr.val)
    (hbase₁ : k₁.kStr.val <+: base₁.kStr.val) (hk : ¬ k.kStr.val <+: k₁.kStr.val)
    (hk₁ : ¬ k₁.kStr.val <+: k.kStr.val) (h : Named args k base k') :
    ¬ Named args k₁ base₁ k' := by
  intro h₁
  rcases List.prefix_or_prefix_of_prefix (h.isPrefix hbase) (h₁.isPrefix hbase₁) with hle | hle
  · exact hk hle
  · exact hk₁ hle

theorem Holds.mono (h : Holds args w j k t) (hle : w.Le w') : Holds args w' j k t := by
  obtain ⟨base, capCols, df, puts, hcreated, hputs⟩ := h
  exact ⟨base, capCols, df, puts, hcreated, fun p hp => hle _ _ (hputs p hp)⟩

/-! ### Storing -/

namespace DataToDf

variable {types : List DataType} {capCols : SizeT} {rows : List (List Cell)} {df : DataFrame}
  {puts : List Put}

theorem Created.named (h : Created args k base types capCols rows df puts) {p : Put}
    (hp : p ∈ puts) : Named args k base p.1 := by
  rcases (h.mem_puts p).mp hp with hp | rfl
  · obtain ⟨c, t, -, hp⟩ := DataFrame.mem_framePuts.mp hp
    obtain ⟨b, -, rfl⟩ := List.mem_map.mp hp
    exact Or.inr ⟨c, b, rfl⟩
  · exact Or.inl rfl

theorem Created.homed (h : Created args k base types capCols rows df puts)
    (hn : args.numNodes ≠ 0) (hk : k.homeNode < args.numNodes) {p : Put} (hp : p ∈ puts) :
    p.1.homeNode < args.numNodes := by
  rcases h.named hp with hp | ⟨c, b, hp⟩
  · rwa [hp]
  · rw [hp]
    exact homeNode_lt hn b

/-- **A dataframe under new keys is stored**, and nothing else changes. -/
theorem Created.runs (h : Created args k base t.types capCols t.rows df puts)
    (hnew : ∀ k', Named args k base k' → w k' = none) :
    ∃ w', Runs i (Calls.create (some (df, puts))) w df w' ∧ Holds args w' i k t ∧ w.Le w' ∧
      ∀ k', w' k' ≠ none → w k' ≠ none ∨ Named args k base k' := by
  have hinj : ∀ p ∈ puts, ∀ q ∈ puts, p.1 = q.1 → p = q := fun _ hp _ hq => h.key_inj hp hq
  have hnone : ∀ p ∈ puts, w p.1 = none := fun p hp => hnew p.1 (h.named hp)
  refine ⟨w.putAll i puts, ?_, ?_, fun k' p' hk' => ?_, fun k' hk' => ?_⟩
  · exact (runs_ofOption.mpr ⟨rfl, rfl⟩).bind
      ((runs_putAll hnone hinj).bind (runs_pure.mpr ⟨rfl, rfl⟩))
  · exact ⟨base, capCols, df, puts, h, fun p hp => Written.putAll_of_mem hinj hp⟩
  · rw [Written.putAll_of_not_mem]
    · exact hk'
    · rintro p hp rfl
      rw [hnone p hp] at hk'
      cases hk'
  · by_cases hmem : ∃ p ∈ puts, p.1 = k'
    · obtain ⟨p, hp, rfl⟩ := hmem
      exact Or.inr (h.named hp)
    · rw [Written.putAll_of_not_mem fun p hp he => hmem ⟨p, hp, he⟩] at hk'
      exact Or.inl hk'

end DataToDf

theorem runs_fromArray (hn : args.numNodes ≠ 0) (hb : args.blockSize ≠ 0)
    {elems : DataToDf.Elements} (htypes : t.types = [elems.type]) (hrows : t.rows = elems.rows)
    (hnew : ∀ k', Named args k (k.indexed 0) k' → w k' = none) :
    ∃ df w', Runs i (Calls.fromArray args k elems) w df w' ∧ Holds args w' i k t ∧ w.Le w' ∧
      ∀ k', w' k' ≠ none → w k' ≠ none ∨ Named args k (k.indexed 0) k' := by
  obtain ⟨df, puts, hfrom, hcreated⟩ := DataToDf.created_of_array hn hb k elems
  rw [← htypes, ← hrows] at hcreated
  rw [Calls.fromArray, hfrom]
  exact ⟨df, hcreated.runs hnew⟩

/-- **`fromVisitor` stores the sheet that its writer fills.** -/
theorem runs_fromVisitor (hn : args.numNodes ≠ 0) (hb : args.blockSize ≠ 0) {scm : Str}
    (hlen : scm.length < 2 ^ 64) {types : List DataType}
    (hscm : scm.mapM DataType.charToType = some types) {σ : Type} {wr : Writer σ} {fuel : Nat}
    {s : σ} (h : Sheet.fromVisitor types wr fuel s = some t)
    (hnew : ∀ k', Named args k k k' → w k' = none) :
    ∃ df w', Runs i (Calls.fromVisitor args fuel k scm wr s) w df w' ∧ Holds args w' i k t ∧
      w.Le w' ∧ ∀ k', w' k' ≠ none → w k' ≠ none ∨ Named args k k k' := by
  obtain ⟨capCols, df, puts, hfrom, hcreated⟩ := Sheet.created_of_sheet hn hb k hlen hscm h
  rw [Calls.fromVisitor, hfrom]
  exact ⟨df, hcreated.runs hnew⟩

theorem within_fromArray (hn : args.numNodes ≠ 0) (hb : args.blockSize ≠ 0)
    (hk : k.homeNode < args.numNodes) (elems : DataToDf.Elements) :
    Within args.numNodes (Calls.fromArray args k elems) := by
  refine within_create fun df puts h p hp => ?_
  obtain ⟨df', puts', hfrom, hcreated⟩ := DataToDf.created_of_array hn hb k elems
  rw [hfrom] at h
  cases h
  exact hcreated.homed hn hk hp

theorem within_fromVisitor (hn : args.numNodes ≠ 0) (hb : args.blockSize ≠ 0)
    (hk : k.homeNode < args.numNodes) {scm : Str} (hlen : scm.length < 2 ^ 64) {σ : Type}
    (wr : Writer σ) (fuel : Nat) (s : σ) :
    Within args.numNodes (Calls.fromVisitor args fuel k scm wr s) := by
  refine within_create fun df puts h p hp => ?_
  obtain ⟨types, capCols, rows, -, -, -, hcreated⟩ :=
    DataToDf.created_of_fromVisitor hn hb hlen h
  exact hcreated.homed hn hk hp

/-! ### Getting -/

structure Handle (args : Args) (w : Written) (t : Sheet) (df : DataFrame) : Prop where
  ok : df.schema.Ok
  shows : df.Shows args w.values t.types t.rows

theorem Holds.exists_handle (h : Holds args w j k t) :
    ∃ v df, w k = some (j, v) ∧ getHelper_ v = some df ∧ Handle args w t df := by
  obtain ⟨base, capCols, df, puts, hcreated, hputs⟩ := h
  have hvalues : ∀ p ∈ puts, w.values p.1 = some p.2 :=
    fun p hp => Written.values_eq_some.mpr ⟨j, hputs p hp⟩
  have hframe := hcreated.df_eq
  have hok := hcreated.ok
  subst hframe
  refine ⟨_, _, hputs _ ((hcreated.mem_puts _).mpr (Or.inr rfl)), ?_, hok, ?_⟩
  · exact Value.read_eq (DataFrame.reads_deserialize hok t.fits)
  · exact DataFrame.shows_frame hcreated.typed capCols k fun p hp =>
      hvalues p ((hcreated.mem_puts p).mpr (Or.inl hp))

/-- **`waitAndGet` of what has been stored.** -/
theorem Holds.runs_waitAndGet (h : Holds args w j k t) :
    ∃ df, Runs i (Calls.waitAndGet k) w df w ∧ Handle args w t df := by
  obtain ⟨v, df, hv, hdf, hhandle⟩ := h.exists_handle
  refine ⟨df, (queries_waitAndGet k).runs ?_, hhandle⟩
  rw [waitAndGet, Written.values_eq_some.mpr ⟨j, hv⟩]
  exact hdf

/-- **`get` of what the node itself has stored**, under a key of its own. -/
theorem Holds.runs_get (h : Holds args w i k t) (hk : k.homeNode = i) :
    ∃ df, Runs i (Calls.get k) w df w ∧ Handle args w t df := by
  obtain ⟨v, df, hv, hdf, hhandle⟩ := h.exists_handle
  refine ⟨df, ?_, hhandle⟩
  have htake : Runs i (Calls.take k) w v w := by
    rw [Runs, Calls.take, OptionT.run_mk, Prog.exec_request]
    show (w k).bind _ = _
    rw [hv]
    exact if_pos ⟨hk, rfl⟩
  exact htake.bind (runs_ofOption.mpr ⟨hdf, rfl⟩)

/-- **`map` of a dataframe is `map` of its sheet.** -/
theorem Handle.runs_map {df : DataFrame} (h : Handle args w t df) (hn : args.numNodes ≠ 0)
    (hb : args.blockSize ≠ 0) {ρ : Type} {rd : Reader ρ} {s s' : ρ} (hmap : t.map rd s = some s') :
    ∃ df', Runs i (Calls.DataFrame.map args rd (s, df)) w (s', df') w := by
  rw [← Sheet.map_eq hn hb h.ok h.shows] at hmap
  obtain ⟨⟨s₁, df'⟩, hrun, rfl⟩ := Option.map_eq_some_iff.mp hmap
  exact ⟨df', (queries_map args rd (s, df)).runs hrun⟩

/-- **`local_map` of a dataframe is `local_map` of its sheet.** -/
theorem Handle.runs_localMap {df : DataFrame} (h : Handle args w t df) (hn : args.numNodes ≠ 0)
    (hb : args.blockSize ≠ 0) {storeId : SizeT} {fuel : Nat} {ρ : Type} {rd : Reader ρ} {s s' : ρ}
    (hmap : t.localMap args storeId fuel rd s = some s') :
    ∃ df', Runs i (Calls.DataFrame.localMap args storeId fuel rd (s, df)) w (s', df') w := by
  rw [← Sheet.localMap_eq hn hb h.ok h.shows] at hmap
  obtain ⟨⟨s₁, df'⟩, hrun, rfl⟩ := Option.map_eq_some_iff.mp hmap
  exact ⟨df', (queries_localMap args storeId fuel rd (s, df)).runs hrun⟩

end

end Eau2
