import Eau2.Linus.Single

/-!
# The Linus application comes to its end

A node that waits in a stage waits for a set that another node stores earlier in the same
stage, or in the stage before; so some node can always move, until all have gone through all
stages.  How many sets a node has stored (`Pc.posted`) says what is there to be waited for,
and how many moves it has made (`Pc.passed`) says how far it has come.

* `stepNode_moves`: what a move stores, and that it is one move.
* `exists_move`: some node can move.
* `ends_together`: **every run can be continued until all nodes have come to their end, and it
  takes the same number of moves whatever the order**.
-/

namespace Eau2

namespace Linus

def Kind.place : Kind → ℕ → ℕ
  | .projects, s => 2 * s
  | .users, s => 2 * s + 1

theorem Kind.place_inj {name name' : Kind} {s s' : ℕ} (h : name.place s = name'.place s') :
    name = name' ∧ s = s' := by
  cases name <;> cases name' <;> simp only [place] at h
  · exact ⟨rfl, by omega⟩
  · omega
  · omega
  · exact ⟨rfl, by omega⟩

/-- How many sets a node that stands here has stored. -/
def Pc.posted : Pc → ℕ
  | .start s => 2 * s
  | .gather name s _ _ => name.place s
  | .await name s _ => name.place s + 1

/-- How many moves a node makes in a stage. -/
def Config.turns (cfg : Config) (j : SizeT) : ℕ :=
  if j = 0 then 2 * cfg.args.numNodes.toNat + 1 else 3

/-- How many of them are in the merge of the projects. -/
def Config.before (cfg : Config) (j : SizeT) : Kind → ℕ
  | .projects => 0
  | .users => if j = 0 then cfg.args.numNodes.toNat else 1

/-- How many moves a node that stands here has made. -/
def Pc.passed (cfg : Config) (j : SizeT) : Pc → ℕ
  | .start s => s * cfg.turns j
  | .gather name s i _ => s * cfg.turns j + cfg.before j name + i.toNat
  | .await name s _ => s * cfg.turns j + cfg.before j name + 1

/-- The loop of a merge has not gone too far. -/
def Pc.Counts (cfg : Config) : Pc → Prop
  | .gather _ _ i _ => i.toNat ≤ cfg.args.numNodes.toNat
  | _ => True

def Pc.awaits (cfg : Config) : Pc → Option Key
  | .start s => some (mergedKey .users s)
  | .gather name s i _ =>
    if i < cfg.args.numNodes then some (deltaKey name (name.keyStage s) i) else none
  | .await name s _ => some (mergedKey name (name.keyStage s))

/-- The numbers that the counters of the loops can hold. -/
structure Fits (cfg : Config) : Prop where
  rows : cfg.data.commits.rows.length +
    min cfg.data.commits.rows.length cfg.args.blockSize.toNat ≤ 2 ^ 64
  small : ∀ name, sizeOf cfg.data name < 2 ^ 31

section

variable {cfg : Config}

/-! ### What a move does -/

theorem deltaKey_ne_first (name : Kind) (s : ℕ) (j : SizeT) :
    deltaKey name (name.keyStage s) j ≠ mergedKey .users 0 := by
  intro h
  have h : deltaKey name (name.keyStage s) j = deltaKey .users 0 0 := h
  obtain ⟨rfl, hs, -⟩ := deltaKey_inj h
  exact absurd hs (Nat.succ_ne_zero s)

theorem keyStage_inj {name : Kind} {s s' : ℕ} (h : name.keyStage s = name.keyStage s') :
    s = s' := by
  cases name with
  | projects => exact h
  | users => exact Nat.succ_inj.mp h

theorem enterMerge_cases {fuel : ℕ} {j : SizeT} {name : Kind} {s : ℕ} {set : BitSet} {nd : Node}
    {store : Sheets} {r : Node × Sheets} (h : enterMerge fuel j name s set nd store = some r) :
    (j = 0 ∧ r.1.pc = .gather name s 1 set ∧ r.2 = store) ∨
      (j ≠ 0 ∧ r.1.pc = .await name s set ∧
        ∃ t, r.2 = Function.update store (deltaKey name (name.keyStage s) j) (some t)) := by
  rw [enterMerge] at h
  split at h
  · rename_i hj
    cases h
    exact Or.inl ⟨hj, rfl, rfl⟩
  · rename_i hj
    obtain ⟨t, -, h⟩ := Option.bind_eq_some_iff.mp h
    cases h
    exact Or.inr ⟨hj, rfl, t, rfl⟩

theorem leaveMerge_cases {fuel : ℕ} {j : SizeT} {name : Kind} {s : ℕ} {set : BitSet} {nd : Node}
    {store : Sheets} {r : Node × Sheets} (h : leaveMerge cfg fuel j name s set nd store = some r) :
    (name = .projects ∧ ∃ set' nd', enterMerge fuel j .users s set' nd' store = some r) ∨
      (name = .users ∧ r.1.pc = .start (s + 1) ∧ r.2 = store) := by
  cases name with
  | projects =>
    obtain ⟨st', -, h⟩ := Option.bind_eq_some_iff.mp h
    exact Or.inl ⟨rfl, _, _, h⟩
  | users =>
    cases h
    exact Or.inr ⟨rfl, rfl, rfl⟩

/-- What a move of node `j` stores: nothing, or the next set. -/
def Posts (j : SizeT) (pc pc' : Pc) (store store' : Sheets) : Prop :=
  (store' = store ∧ pc'.posted = pc.posted) ∨
    ∃ name s t, pc.posted = name.place s ∧ pc'.posted = name.place s + 1 ∧
      store' = Function.update store (deltaKey name (name.keyStage s) j) (some t)

variable {fuel : ℕ} {j : SizeT} {nd : Node} {store : Sheets} {r : Node × Sheets}

theorem Posts.of_ne {pc pc' : Pc} {store' : Sheets} (h : Posts j pc pc' store store') {i : SizeT}
    (hij : i ≠ j) (name : Kind) (s : ℕ) :
    store' (deltaKey name s i) = store (deltaKey name s i) := by
  rcases h with ⟨rfl, -⟩ | ⟨name', s', t, -, -, rfl⟩
  · rfl
  · exact Function.update_of_ne (fun hk => hij (deltaKey_inj hk).2.2) _ _

theorem Posts.first {pc pc' : Pc} {store' : Sheets} (h : Posts j pc pc' store store') :
    store' (mergedKey .users 0) = store (mergedKey .users 0) := by
  rcases h with ⟨rfl, -⟩ | ⟨name', s', t, -, -, rfl⟩
  · rfl
  · exact Function.update_of_ne (deltaKey_ne_first name' s' j).symm _ _

theorem Posts.own {pc pc' : Pc} {store' : Sheets} (h : Posts j pc pc' store store') {name : Kind}
    {s : ℕ}
    (hold : (store (deltaKey name (name.keyStage s) j)).isSome ↔ name.place s < pc.posted) :
    (store' (deltaKey name (name.keyStage s) j)).isSome ↔ name.place s < pc'.posted := by
  rcases h with ⟨rfl, hsame⟩ | ⟨name', s', t, hbefore, hafter, rfl⟩
  · rwa [hsame]
  · rw [hbefore] at hold
    rw [Function.update_apply, hafter]
    by_cases hp : name.place s = name'.place s'
    · obtain ⟨rfl, rfl⟩ := Kind.place_inj hp
      rw [if_pos rfl]
      exact ⟨fun _ => Nat.lt_succ_self _, fun _ => rfl⟩
    · rw [if_neg, hold]
      · omega
      · intro hk
        obtain ⟨rfl, hs, -⟩ := deltaKey_inj hk
        exact hp (by rw [keyStage_inj hs])

theorem toNat_one : (1 : SizeT).toNat = 1 := rfl

/-- **A move stores the next set or none, and is one move.** -/
theorem stepNode_moves (hn : cfg.args.numNodes ≠ 0) (h : stepNode cfg fuel j nd store = some r)
    (hnd : NodeOk cfg j nd) (hcount : nd.pc.Counts cfg) :
    Posts j nd.pc r.1.pc store r.2 ∧ r.1.pc.Counts cfg ∧
      r.1.pc.passed cfg j = nd.pc.passed cfg j + 1 := by
  have hpc := hnd.pc
  have hpos := toNat_pos hn
  rw [stepNode] at h
  cases hcase : nd.pc with
  | start s =>
    rw [hcase] at h
    dsimp only at h
    split at h
    · obtain ⟨newUsers, -, h⟩ := Option.bind_eq_some_iff.mp h
      obtain ⟨delta, -, h⟩ := Option.bind_eq_some_iff.mp h
      obtain ⟨st', -, h⟩ := Option.bind_eq_some_iff.mp h
      rcases enterMerge_cases h with ⟨rfl, hpc', hst⟩ | ⟨hj, hpc', t, hst⟩
      · rw [hpc']
        exact ⟨Or.inl ⟨hst, rfl⟩, hpos, rfl⟩
      · rw [hpc']
        exact ⟨Or.inr ⟨.projects, s, t, rfl, rfl, hst⟩, trivial, rfl⟩
    · cases h
  | gather name s i set =>
    rw [hcase] at h hpc hcount
    obtain ⟨rfl, -⟩ := hpc
    dsimp only at h
    split at h
    · rename_i hi
      obtain ⟨delta, -, h⟩ := Option.bind_eq_some_iff.mp h
      obtain ⟨set', -, h⟩ := Option.bind_eq_some_iff.mp h
      cases h
      have hsucc := DataFrame.toNat_succ hi
      have hlt := UInt64.lt_iff_toNat_lt.mp hi
      refine ⟨Or.inl ⟨rfl, rfl⟩, ?_, ?_⟩
      · show (i + 1).toNat ≤ _
        omega
      · simp only [Pc.passed, hsucc]
        omega
    · rename_i hi
      obtain ⟨t, -, h⟩ := Option.bind_eq_some_iff.mp h
      -- the loop has come to the last node
      have hlast : i.toNat = cfg.args.numNodes.toNat := by
        have hge : ¬ i.toNat < cfg.args.numNodes.toNat := fun hc =>
          hi (UInt64.lt_iff_toNat_lt.mpr hc)
        have hle : i.toNat ≤ cfg.args.numNodes.toNat := hcount
        omega
      rcases leaveMerge_cases h with ⟨rfl, set', nd', h⟩ | ⟨rfl, hpc', hst⟩
      · rcases enterMerge_cases h with ⟨-, hpc', hst⟩ | ⟨h0, -⟩
        · rw [hpc']
          refine ⟨Or.inr ⟨.projects, s, t, rfl, rfl, hst⟩, hpos, ?_⟩
          simp only [Pc.passed, Config.before, if_true, toNat_one, hlast, Nat.add_zero]
        · exact absurd rfl h0
      · rw [hpc']
        refine ⟨Or.inr ⟨.users, s, t, rfl, rfl, hst⟩, trivial, ?_⟩
        simp only [Pc.passed, Config.before, Config.turns, if_true, hlast, Nat.succ_mul]
        omega
  | await name s set =>
    rw [hcase] at h hpc
    obtain ⟨hj, -⟩ := hpc
    obtain ⟨merged, -, h⟩ := Option.bind_eq_some_iff.mp h
    obtain ⟨set', -, h⟩ := Option.bind_eq_some_iff.mp h
    rcases leaveMerge_cases h with ⟨rfl, set', nd', h⟩ | ⟨rfl, hpc', hst⟩
    · rcases enterMerge_cases h with ⟨h0, -⟩ | ⟨-, hpc', t, hst⟩
      · exact absurd h0 hj
      · rw [hpc']
        refine ⟨Or.inr ⟨.users, s, t, rfl, rfl, hst⟩, trivial, ?_⟩
        simp only [Pc.passed, Config.before, if_neg hj, Nat.add_zero]
    · rw [hpc']
      refine ⟨Or.inl ⟨hst, rfl⟩, trivial, ?_⟩
      simp only [Pc.passed, Config.before, Config.turns, if_neg hj, Nat.succ_mul]

/-! ### What a node can do -/

theorem exists_localMap (hb : cfg.args.blockSize ≠ 0) (hf : Fits cfg)
    (hfuel : cfg.data.commits.rows.length < fuel) (j : SizeT) (frontier : BitSet)
    (pick : ℕ → ℕ → ℕ × ℕ) (st : BitSet × BitSet) :
    ∃ st', cfg.data.commits.localMap cfg.args j fuel (tagger frontier pick) st = some st' := by
  have hlen := Sheet.toNat_nrows cfg.data.commits
  have hfit : cfg.data.commits.nrows.toNat +
      min cfg.data.commits.nrows.toNat cfg.args.blockSize.toNat ≤ 2 ^ 64 := by
    rw [hlen]
    exact hf.rows
  have hlast : cfg.data.commits.nrows.toNat - (0 : SizeT).toNat < fuel := by
    rw [hlen]
    exact Nat.lt_of_le_of_lt (Nat.sub_le _ _) hfuel
  obtain ⟨is, his⟩ : ∃ is, DataFrame.localIdxs cfg.args j cfg.data.commits.nrows fuel 0 = some is :=
    ⟨_, DataFrame.localIdxs_eq hb hfit hlast (Or.inr (Nat.zero_mod _))⟩
  have hlt := (DataFrame.mem_localIdxs hb his).1
  rw [hlen] at hlt
  refine ⟨(is.map cfg.data.pairAt).foldl (tagPair frontier pick) st, ?_⟩
  show (DataFrame.localIdxs cfg.args j cfg.data.commits.nrows fuel 0).bind _ = _
  rw [his]
  refine (foldlM_tagger frontier pick _ st).trans ?_
  rw [Data.mapM_pair fun i hi => (hlt i hi).1]
  rfl

theorem exists_enterMerge (j : SizeT) (name : Kind) (s : ℕ) (nd : Node) (store : Sheets)
    {set : BitSet} (hset : set.size < 2 ^ 31) (hfuel : set.size < fuel) :
    ∃ r, enterMerge fuel j name s set nd store = some r := by
  obtain ⟨t, ht⟩ := exists_sheet hset hfuel
  rw [enterMerge]
  split
  · exact ⟨_, rfl⟩
  · rw [ht]
    exact ⟨_, rfl⟩

theorem exists_leaveMerge (hb : cfg.args.blockSize ≠ 0) (hf : Fits cfg)
    (hfuel : enough cfg.data ≤ fuel) (hu : nd.uSet.size = sizeOf cfg.data .users) {name : Kind}
    {s : ℕ} {set : BitSet} : ∃ r, leaveMerge cfg fuel j name s set nd store = some r := by
  cases name with
  | projects =>
    obtain ⟨st', hst'⟩ := exists_localMap hb hf
      (Nat.lt_of_lt_of_le (commits_lt_enough cfg.data) hfuel) j set (fun pid uid => (pid, uid))
      (nd.uSet, BitSet.new cfg.data.users.rows.length)
    have hsize : st'.2.size = sizeOf cfg.data .users := by
      obtain ⟨ps, -, rfl⟩ := Data.localMap_eq hb hst'
      have hnew : nd.uSet.size = (BitSet.new cfg.data.users.rows.length).size := by
        rw [hu, BitSet.size_new]
        rfl
      rw [(tagger_spec set (fun pid uid => (pid, uid)) ps _ hnew).2.1, hu]
    have hsmall : st'.2.size < 2 ^ 31 := by
      rw [hsize]
      exact hf.small .users
    have hlt : st'.2.size < fuel := by
      rw [hsize]
      exact Nat.lt_of_lt_of_le (sizeOf_lt_enough cfg.data .users) hfuel
    obtain ⟨r, hr⟩ := exists_enterMerge j .users s
      { nd with uSet := st'.1, pSet := nd.pSet.union_ set } store hsmall hlt
    refine ⟨r, ?_⟩
    show (cfg.data.commits.localMap cfg.args j fuel (tagger set _) _).bind _ = _
    rw [hst']
    exact hr
  | users => exact ⟨_, rfl⟩

/-- **A node that has not come to its end can move when what it waits for is stored.** -/
theorem exists_stepNode (hb : cfg.args.blockSize ≠ 0) (hf : Fits cfg)
    (hfuel : enough cfg.data ≤ fuel) (hnd : NodeOk cfg j nd) (hstore : StoreOk cfg store)
    (hend : nd.pc ≠ .start cfg.degrees)
    (hawaits : ∀ k, nd.pc.awaits cfg = some k → (store k).isSome) :
    ∃ r, stepNode cfg fuel j nd store = some r := by
  have hpc := hnd.pc
  have hbelow := hnd.below
  have hsmall : ∀ {name : Kind} {set : BitSet}, set.size = sizeOf cfg.data name →
      set.size < 2 ^ 31 ∧ set.size < fuel := fun {name set} h => by
    rw [h]
    exact ⟨hf.small name, Nat.lt_of_lt_of_le (sizeOf_lt_enough cfg.data name) hfuel⟩
  rw [stepNode]
  cases hcase : nd.pc with
  | start s =>
    rw [hcase] at hawaits hend hbelow
    have hs : s < cfg.degrees := Nat.lt_of_le_of_ne hbelow fun he => hend (by rw [he])
    obtain ⟨t, ht⟩ := Option.isSome_iff_exists.mp (hawaits _ rfl)
    obtain ⟨delta, hdelta, hdsize, -⟩ := (hstore.lookup (j := 0) ht).map
      (BitSet.new cfg.data.users.rows.length)
    obtain ⟨st', hst'⟩ := exists_localMap hb hf
      (Nat.lt_of_lt_of_le (commits_lt_enough cfg.data) hfuel) j delta (fun pid uid => (uid, pid))
      (nd.pSet, BitSet.new cfg.data.projects.rows.length)
    have hsize : st'.2.size = sizeOf cfg.data .projects := by
      obtain ⟨ps, -, rfl⟩ := Data.localMap_eq hb hst'
      have hnew : nd.pSet.size = (BitSet.new cfg.data.projects.rows.length).size := by
        rw [hnd.pSize, BitSet.size_new]
        rfl
      rw [(tagger_spec delta (fun pid uid => (uid, pid)) ps _ hnew).2.1, hnd.pSize]
    obtain ⟨r, hr⟩ := exists_enterMerge j .projects s { nd with pSet := st'.1 } store
      (hsmall hsize).1 (hsmall hsize).2
    refine ⟨r, ?_⟩
    dsimp only
    rw [if_pos hs, ht]
    simp only [Option.bind_eq_bind, Option.bind_some, hdelta]
    rw [projectsTagger, hst']
    exact hr
  | gather name s i set =>
    rw [hcase] at hawaits hpc
    obtain ⟨-, -, hsize, -⟩ := hpc
    dsimp only
    split
    · rename_i hi
      obtain ⟨t, ht⟩ := Option.isSome_iff_exists.mp (hawaits _ (if_pos hi))
      obtain ⟨set', hset', -⟩ := (hstore.lookup ht).map set
      rw [ht]
      simp only [Option.bind_eq_bind, Option.bind_some, hset']
      exact ⟨_, rfl⟩
    · obtain ⟨t, ht⟩ := exists_sheet (hsmall hsize).1 (hsmall hsize).2
      rw [ht]
      exact exists_leaveMerge hb hf hfuel hnd.uSize
  | await name s set =>
    rw [hcase] at hawaits
    obtain ⟨t, ht⟩ := Option.isSome_iff_exists.mp (hawaits _ rfl)
    obtain ⟨set', hset', -⟩ := (hstore.lookup (j := 0) ht).map set
    dsimp only
    rw [ht]
    simp only [Option.bind_eq_bind, Option.bind_some, hset']
    exact exists_leaveMerge hb hf hfuel hnd.uSize

/-! ### What is stored, and how far the nodes have come -/

def System.passed (cfg : Config) (sys : System) : ℕ :=
  ∑ j ∈ Finset.range cfg.args.numNodes.toNat,
    (sys.nodes (UInt64.ofNat j)).pc.passed cfg (UInt64.ofNat j)

/-- What is stored are the sets that the nodes have stored. -/
structure Paced (cfg : Config) (sys : System) : Prop where
  counts : ∀ j, (sys.nodes j).pc.Counts cfg
  posted : ∀ name s j, (sys.store (deltaKey name (name.keyStage s) j)).isSome ↔
    name.place s < (sys.nodes j).pc.posted
  first : (sys.store (mergedKey .users 0)).isSome

theorem paced_init : Paced cfg (init cfg) where
  counts j := trivial
  posted name s j := by
    rw [init_store, Function.update_of_ne (deltaKey_ne_first name s j)]
    exact ⟨fun h => absurd h Bool.false_ne_true, fun h => absurd h (Nat.not_lt_zero _)⟩
  first := by
    rw [init_store, Function.update_self]
    rfl

theorem passed_update {sys : System} {j : SizeT} {nd : Node} (store : Sheets)
    (hj : j < cfg.args.numNodes)
    (h : nd.pc.passed cfg j = (sys.nodes j).pc.passed cfg j + 1) :
    System.passed cfg ⟨Function.update sys.nodes j nd, store⟩ = sys.passed cfg + 1 := by
  have hmem : j.toNat ∈ Finset.range cfg.args.numNodes.toNat :=
    Finset.mem_range.mpr (UInt64.lt_iff_toNat_lt.mp hj)
  rw [System.passed, System.passed, ← Finset.add_sum_erase _ _ hmem,
    ← Finset.add_sum_erase _ _ hmem, UInt64.ofNat_toNat]
  dsimp only
  rw [Function.update_self, h, Nat.add_right_comm]
  congr 2
  refine Finset.sum_congr rfl fun i hi => ?_
  obtain ⟨hne, hrange⟩ := Finset.mem_erase.mp hi
  rw [Function.update_of_ne]
  rintro rfl
  refine hne (UInt64.toNat_ofNat_of_lt' ?_).symm
  exact Nat.lt_trans (Finset.mem_range.mp hrange) cfg.args.numNodes.toNat_lt

theorem Paced.step {sys sys' : System} {m : Move} (h : Paced cfg sys) (hn : cfg.args.numNodes ≠ 0)
    (hnd : NodeOk cfg m.1 (sys.nodes m.1)) (hstep : step cfg sys m = some sys') :
    Paced cfg sys' ∧ sys'.passed cfg = sys.passed cfg + 1 := by
  obtain ⟨j, fuel⟩ := m
  rw [Linus.step] at hstep
  split at hstep
  · rename_i hj
    obtain ⟨⟨nd, store⟩, hnode, hstep⟩ := Option.bind_eq_some_iff.mp hstep
    cases hstep
    obtain ⟨hposts, hcount, hpassed⟩ := stepNode_moves hn hnode hnd (h.counts j)
    refine ⟨⟨fun i => ?_, fun name s i => ?_, ?_⟩, passed_update store hj hpassed⟩
    · show (Function.update sys.nodes j nd i).pc.Counts cfg
      rw [Function.update_apply]
      split
      · exact hcount
      · exact h.counts i
    · show (store _).isSome ↔ _ < (Function.update sys.nodes j nd i).pc.posted
      by_cases hij : i = j
      · subst hij
        rw [Function.update_self]
        exact hposts.own (h.posted name s i)
      · rw [Function.update_of_ne hij, show store _ = _ from hposts.of_ne hij name _]
        exact h.posted name s i
    · exact (congrArg Option.isSome hposts.first).trans h.first
  · cases hstep

/-- **In every run the account is kept**, and it says how many moves there were. -/
theorem paced_run (cfg : Config) (hn : cfg.args.numNodes ≠ 0) (hb : cfg.args.blockSize ≠ 0)
    {ms : List Move} {sys : System} (h : run cfg ms = some sys) :
    Paced cfg sys ∧ sys.passed cfg = ms.length := by
  have hinv : Inv cfg sys ∧ Paced cfg sys ∧ sys.passed cfg = ms.length := by
    refine Schedule.run_induction (P := fun ms sys => Inv cfg sys ∧ Paced cfg sys ∧
      sys.passed cfg = ms.length) ⟨inv_init, paced_init, ?_⟩ ?_ h
    · rw [System.passed]
      refine Finset.sum_eq_zero fun j _ => ?_
      show 0 * _ = 0
      exact Nat.zero_mul _
    · intro ms sys m sys' hrun ih hstep
      obtain ⟨hinv, hpaced, hlen⟩ := ih
      obtain ⟨hpaced', hlen'⟩ := hpaced.step hn (hinv.nodes m.1) hstep
      refine ⟨inv_run cfg hn hb (Schedule.run_snoc.mpr ⟨sys, hrun, hstep⟩), hpaced', ?_⟩
      rw [hlen', hlen, List.length_append, List.length_singleton]
  exact hinv.2

/-! ### Some node can move -/

theorem posted_le {pc : Pc} (h : pc.Below cfg.degrees) : pc.posted ≤ 2 * cfg.degrees := by
  cases pc with
  | start s =>
    show 2 * s ≤ _
    exact Nat.mul_le_mul_left 2 h
  | gather name s i set =>
    have hs : s < cfg.degrees := h
    cases name <;> simp only [Pc.posted, Kind.place] <;> omega
  | await name s set =>
    have hs : s < cfg.degrees := h
    cases name <;> simp only [Pc.posted, Kind.place] <;> omega

theorem posted_lt {name : Kind} {s : ℕ} {i : SizeT} {set : BitSet}
    (h : (Pc.gather name s i set).Below cfg.degrees) : name.place s < 2 * cfg.degrees := by
  have hs : s < cfg.degrees := h
  cases name <;> simp only [Kind.place] <;> omega

theorem Paced.users {sys : System} (h : Paced cfg sys) {s : ℕ}
    (hs : 2 * s ≤ (sys.nodes 0).pc.posted) : (sys.store (mergedKey .users s)).isSome := by
  cases s with
  | zero => exact h.first
  | succ s =>
    refine (h.posted .users s 0).mpr ?_
    show 2 * s + 1 < _
    omega

section

variable (hn : cfg.args.numNodes ≠ 0) (hb : cfg.args.blockSize ≠ 0) (hf : Fits cfg)
  {ms : List Move} {sys : System} (h : run cfg ms = some sys) (hfuel : enough cfg.data ≤ fuel)
include hn hb hf h hfuel

theorem step_of_awaits (hj : j < cfg.args.numNodes) (hend : (sys.nodes j).pc ≠ .start cfg.degrees)
    (hawaits : ∀ k, (sys.nodes j).pc.awaits cfg = some k → (sys.store k).isSome) :
    ∃ sys', step cfg sys (j, fuel) = some sys' := by
  have hinv := inv_run cfg hn hb h
  obtain ⟨r, hr⟩ := exists_stepNode hb hf hfuel (hinv.nodes j) hinv.store hend hawaits
  refine ⟨⟨Function.update sys.nodes j r.1, r.2⟩, ?_⟩
  rw [step, if_pos hj]
  show (stepNode cfg fuel j (sys.nodes j) sys.store).bind _ = _
  rw [hr]
  rfl

/-- A node that is not ahead of node `0` can move. -/
theorem step_of_posted_le (hj : j < cfg.args.numNodes) (hj0 : j ≠ 0)
    (hend : (sys.nodes j).pc ≠ .start cfg.degrees)
    (hle : (sys.nodes j).pc.posted ≤ (sys.nodes 0).pc.posted) :
    ∃ sys', step cfg sys (j, fuel) = some sys' := by
  have hpaced := (paced_run cfg hn hb h).1
  have hpc := ((inv_run cfg hn hb h).nodes j).pc
  refine step_of_awaits hn hb hf h hfuel hj hend fun k hk => ?_
  cases hcase : (sys.nodes j).pc with
  | start s =>
    rw [hcase] at hk hle
    cases hk
    exact hpaced.users hle
  | gather name s i set =>
    rw [hcase] at hpc
    exact absurd hpc.1 hj0
  | await name s set =>
    rw [hcase] at hk hle
    cases hk
    exact (hpaced.posted name s 0).mpr (Nat.lt_of_succ_le hle)

/-- **Some node can move**, as long as one of them has not come to its end: node `0`, or the
one it waits for, or one that is not ahead of it. -/
theorem exists_move (hj : j < cfg.args.numNodes) (hend : (sys.nodes j).pc ≠ .start cfg.degrees) :
    ∃ i sys', step cfg sys (i, fuel) = some sys' := by
  have hpaced := (paced_run cfg hn hb h).1
  have hinv := inv_run cfg hn hb h
  have h0 : (0 : SizeT) < cfg.args.numNodes := UInt64.lt_iff_toNat_lt.mpr (toNat_pos hn)
  by_cases hend0 : (sys.nodes 0).pc = .start cfg.degrees
  · -- node `0` has stored all sets
    have hj0 : j ≠ 0 := by
      rintro rfl
      exact hend hend0
    refine ⟨j, step_of_posted_le hn hb hf h hfuel hj hj0 hend ?_⟩
    rw [hend0]
    exact posted_le (hinv.nodes j).below
  · have hpc := (hinv.nodes 0).pc
    have hbelow := (hinv.nodes 0).below
    cases hcase : (sys.nodes 0).pc with
    | start s =>
      refine ⟨0, step_of_awaits hn hb hf h hfuel h0 hend0 fun k hk => ?_⟩
      rw [hcase] at hk
      cases hk
      exact hpaced.users (by rw [hcase]; rfl)
    | gather name s i set =>
      rw [hcase] at hpc hbelow
      have hi0 := hpc.2.2.2.1
      by_cases hready : i < cfg.args.numNodes → name.place s < (sys.nodes i).pc.posted
      · refine ⟨0, step_of_awaits hn hb hf h hfuel h0 hend0 fun k hk => ?_⟩
        rw [hcase, Pc.awaits] at hk
        split at hk
        · rename_i hi
          cases hk
          exact (hpaced.posted name s i).mpr (hready hi)
        · cases hk
      · -- node `i` has not stored its set yet
        obtain ⟨hi, hle⟩ := Classical.not_imp.mp hready
        have hle := Nat.not_lt.mp hle
        refine ⟨i, step_of_posted_le hn hb hf h hfuel hi hi0 ?_ (by rw [hcase]; exact hle)⟩
        intro hdone
        rw [hdone] at hle
        exact absurd (posted_lt hbelow) (Nat.not_lt.mpr hle)
    | await name s set =>
      rw [hcase] at hpc
      exact absurd rfl hpc.1

end

/-! ### How long it takes -/

def Config.moves (cfg : Config) : ℕ := cfg.degrees * (5 * cfg.args.numNodes.toNat - 2)

theorem sum_turns (hn : cfg.args.numNodes ≠ 0) :
    ∑ j ∈ Finset.range cfg.args.numNodes.toNat, cfg.degrees * cfg.turns (UInt64.ofNat j) =
      cfg.moves := by
  have hpos := toNat_pos hn
  have hmax := cfg.args.numNodes.toNat_lt
  have h0 : 0 ∈ Finset.range cfg.args.numNodes.toNat := Finset.mem_range.mpr hpos
  have hrest : ∑ j ∈ (Finset.range cfg.args.numNodes.toNat).erase 0, cfg.turns (UInt64.ofNat j) =
      (cfg.args.numNodes.toNat - 1) * 3 := by
    rw [Finset.sum_const_nat (m := 3), Finset.card_erase_of_mem h0, Finset.card_range]
    intro j hj
    obtain ⟨hne, hj⟩ := Finset.mem_erase.mp hj
    rw [Config.turns, if_neg]
    intro he
    have := congrArg UInt64.toNat he
    rw [UInt64.toNat_ofNat_of_lt' (Nat.lt_trans (Finset.mem_range.mp hj) hmax)] at this
    exact hne this
  rw [← Finset.mul_sum, ← Finset.add_sum_erase _ _ h0, hrest, Config.moves]
  show cfg.degrees * ((2 * cfg.args.numNodes.toNat + 1) + _) = _
  congr 1
  omega

theorem passed_le (hnd : NodeOk cfg j nd) (hcount : nd.pc.Counts cfg) :
    nd.pc.passed cfg j ≤ cfg.degrees * cfg.turns j ∧
      (nd.pc.passed cfg j = cfg.degrees * cfg.turns j → nd.pc = .start cfg.degrees) := by
  have hpc := hnd.pc
  have hbelow := hnd.below
  cases hcase : nd.pc with
  | start s =>
    rw [hcase] at hbelow
    have hle : s ≤ cfg.degrees := hbelow
    refine ⟨Nat.mul_le_mul_right _ hle, fun he => ?_⟩
    have hpos : 0 < cfg.turns j := by
      rw [Config.turns]
      split <;> omega
    rw [Nat.eq_of_mul_eq_mul_right hpos he]
  | gather name s i set =>
    rw [hcase] at hpc hbelow hcount
    have hi : i.toNat ≤ cfg.args.numNodes.toNat := hcount
    have hs : (s + 1) * cfg.turns j ≤ cfg.degrees * cfg.turns j := Nat.mul_le_mul_right _ hbelow
    have hlt : (Pc.gather name s i set).passed cfg j < (s + 1) * cfg.turns j := by
      rw [Nat.succ_mul, hpc.1]
      cases name <;> simp only [Pc.passed, Config.before, Config.turns, if_true] <;> omega
    exact ⟨by omega, fun he => by omega⟩
  | await name s set =>
    rw [hcase] at hpc hbelow
    have hs : (s + 1) * cfg.turns j ≤ cfg.degrees * cfg.turns j := Nat.mul_le_mul_right _ hbelow
    have hlt : (Pc.await name s set).passed cfg j < (s + 1) * cfg.turns j := by
      rw [Nat.succ_mul]
      cases name <;> simp only [Pc.passed, Config.before, Config.turns, if_neg hpc.1] <;> omega
    exact ⟨by omega, fun he => by omega⟩

/-- **A run has come to its end when it has made all moves.** -/
theorem all_done_iff (hn : cfg.args.numNodes ≠ 0) (hb : cfg.args.blockSize ≠ 0) {ms : List Move}
    {sys : System} (h : run cfg ms = some sys) : ms.length ≤ cfg.moves ∧
      (ms.length = cfg.moves ↔
        ∀ j, j < cfg.args.numNodes → (sys.nodes j).pc = .start cfg.degrees) := by
  obtain ⟨hpaced, hlen⟩ := paced_run cfg hn hb h
  have hinv := inv_run cfg hn hb h
  have hnode : ∀ j, (sys.nodes j).pc.passed cfg j ≤ cfg.degrees * cfg.turns j ∧
      ((sys.nodes j).pc.passed cfg j = cfg.degrees * cfg.turns j →
        (sys.nodes j).pc = .start cfg.degrees) := fun j =>
    passed_le (hinv.nodes j) (hpaced.counts j)
  rw [← hlen, ← sum_turns hn]
  refine ⟨Finset.sum_le_sum fun j _ => (hnode _).1, fun heq j hj => ?_, fun hall => ?_⟩
  · have heach := (Finset.sum_eq_sum_iff_of_le fun j _ => (hnode (UInt64.ofNat j)).1).mp heq
      j.toNat (Finset.mem_range.mpr (UInt64.lt_iff_toNat_lt.mp hj))
    rw [UInt64.ofNat_toNat] at heach
    exact (hnode j).2 heach
  · refine Finset.sum_congr rfl fun j hj => ?_
    have hlt : UInt64.ofNat j < cfg.args.numNodes := by
      have hj := Finset.mem_range.mp hj
      rwa [UInt64.lt_iff_toNat_lt, UInt64.toNat_ofNat_of_lt'
        (Nat.lt_trans hj cfg.args.numNodes.toNat_lt)]
    rw [hall _ hlt]
    rfl

theorem exists_end (hn : cfg.args.numNodes ≠ 0) (hb : cfg.args.blockSize ≠ 0) (hf : Fits cfg)
    (hfuel : enough cfg.data ≤ fuel) {ms : List Move} {sys : System}
    (h : run cfg ms = some sys) : ∃ (is : List SizeT) (sys' : System),
      run cfg (ms ++ is.map fun i => (i, fuel)) = some sys' ∧
        ∀ j, j < cfg.args.numNodes → (sys'.nodes j).pc = .start cfg.degrees := by
  generalize hleft : cfg.moves - ms.length = left
  induction left generalizing ms sys with
  | zero =>
    obtain ⟨hle, hdone⟩ := all_done_iff hn hb h
    exact ⟨[], sys, by rwa [List.map_nil, List.append_nil], hdone.mp (by omega)⟩
  | succ left ih =>
    obtain ⟨hle, hdone⟩ := all_done_iff hn hb h
    have hnot : ¬ ∀ j, j < cfg.args.numNodes → (sys.nodes j).pc = .start cfg.degrees := by
      rw [← hdone]
      omega
    obtain ⟨j, hj⟩ := Classical.not_forall.mp hnot
    obtain ⟨hj, hend⟩ := Classical.not_imp.mp hj
    obtain ⟨i, sys₁, hstep⟩ := exists_move hn hb hf h hfuel hj hend
    have hrun := Schedule.run_snoc.mpr ⟨sys, h, hstep⟩
    have hlen : cfg.moves - (ms ++ [(i, fuel)]).length = left := by
      rw [List.length_append, List.length_singleton]
      omega
    obtain ⟨is, sys', hrun', hall⟩ := ih hrun hlen
    refine ⟨i :: is, sys', ?_, hall⟩
    rwa [List.append_assoc] at hrun'

/-- **The nodes never wait for each other in a circle.**  From wherever a run has got to, it can
be continued until every node is through all stages, with the sets of the last one; and whatever
the order in which the nodes move, all runs that have come to their end have the same number of
moves. -/
theorem ends_together (cfg : Config) (hn : cfg.args.numNodes ≠ 0) (hb : cfg.args.blockSize ≠ 0)
    (hf : Fits cfg) {ms : List Move} {sys : System} (h : run cfg ms = some sys) {fuel : ℕ}
    (hfuel : enough cfg.data ≤ fuel) : ms.length ≤ cfg.moves ∧
      ((∀ i, step cfg sys (i, fuel) = none) ↔ ms.length = cfg.moves) ∧
      ∃ ms' sys', run cfg (ms ++ ms') = some sys' ∧ (ms ++ ms').length = cfg.moves ∧
        ∀ j, j < cfg.args.numNodes → (sys'.nodes j).pc = .start cfg.degrees ∧
          (sys'.nodes j).pSet.tagged = (sets cfg.data cfg.linus cfg.degrees).fst ∧
          (sys'.nodes j).uSet.tagged = (sets cfg.data cfg.linus cfg.degrees).snd := by
  obtain ⟨hle, hdone⟩ := all_done_iff hn hb h
  refine ⟨hle, ⟨fun hstuck => ?_, fun heq i => ?_⟩, ?_⟩
  · refine hdone.mpr fun j hj => ?_
    by_contra hend
    obtain ⟨i, sys', hstep⟩ := exists_move hn hb hf h hfuel hj hend
    rw [hstuck i] at hstep
    cases hstep
  · -- one move more would be too many
    cases hstep : step cfg sys (i, fuel) with
    | none => rfl
    | some sys' =>
      have hmore := (all_done_iff hn hb (Schedule.run_snoc.mpr ⟨sys, h, hstep⟩)).1
      rw [List.length_append, List.length_singleton] at hmore
      omega
  · obtain ⟨is, sys', hrun, hall⟩ := exists_end hn hb hf hfuel h
    refine ⟨_, sys', hrun, (all_done_iff hn hb hrun).2.mpr hall, fun j hj => ?_⟩
    obtain ⟨hp, hu, -⟩ := sets_of_start cfg hn hb hrun (hall j hj)
    exact ⟨hall j hj, hp, hu⟩

end

theorem fits_pairConfig : Fits pairConfig where
  rows := by decide
  small name := by cases name <;> decide

/-- The pair of nodes, of which node `0` has moved. -/
theorem ends_together_pair : ∃ sys, run pairConfig [(0, 9)] = some sys ∧
    ∃ ms' sys', run pairConfig ([(0, 9)] ++ ms') = some sys' ∧ ([(0, 9)] ++ ms').length = 8 ∧
      ∀ j, j < 2 → (sys'.nodes j).pc = .start 1 ∧
        (sys'.nodes j).pSet.tagged = (sets pairData 0 1).fst ∧
        (sys'.nodes j).uSet.tagged = (sets pairData 0 1).snd := by
  have hsome : (run pairConfig [(0, 9)]).isSome = true := by decide +kernel
  obtain ⟨sys, h⟩ := Option.isSome_iff_exists.mp hsome
  obtain ⟨-, -, ms', sys', hrun, hlen, hall⟩ := ends_together pairConfig (by decide) (by decide)
    fits_pairConfig h (Nat.le_refl (enough pairData))
  exact ⟨sys, h, ms', sys', hrun, hlen, hall⟩

end Linus

end Eau2
