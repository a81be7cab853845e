import Eau2.Linus.Frontier
import Eau2.Linus.System

/-!
# What a stage of the Linus application computes

In every reachable state, a node between two stages has the sets of `Stage.stage`, which
know nothing of nodes or blocks; in a merge, it has added what its own rows lead to; and
what is stored under a key is the tags it stands for.

* `Inv`, `inv_run`: the invariant of all runs.
* `independent`: **the sets after a stage do not depend on the nodes**.
-/

namespace Eau2

namespace Linus

section Sets

variable (d : Data) (linus : Int32)

def sizeOf : Kind → ℕ
  | .projects => d.projects.rows.length
  | .users => d.users.rows.length

def known (name : Kind) : Set ℕ := {i | i < sizeOf d name}

def sets (s : ℕ) : Stage ℕ ℕ :=
  Stage.stage d.Pair (known d .projects) (known d .users) (sizeOfInt linus).toNat s

/-- What stage `s` tags for the pairs `R`. -/
def tags (R : ℕ → ℕ → Prop) : Kind → ℕ → Set ℕ
  | .projects, s => Stage.tagFst R (known d .projects) (known d .users) (sets d linus s).fst
      (sets d linus s).delta
  | .users, s => Stage.tagSnd R (known d .projects) (known d .users) (sets d linus s).snd
      (Stage.tagFst d.Pair (known d .projects) (known d .users) (sets d linus s).fst
        (sets d linus s).delta)

/-- What stage `s` tags. -/
abbrev allTags (name : Kind) (s : ℕ) : Set ℕ := tags d linus d.Pair name s

end Sets

section Nodes

variable (cfg : Config)

abbrev localTags (j : SizeT) (name : Kind) (s : ℕ) : Set ℕ :=
  tags cfg.data cfg.linus (cfg.data.LocalPair cfg.args j) name s

/-- What it tags on the nodes before node `i`. -/
def gathered (i : SizeT) (name : Kind) (s : ℕ) : Set ℕ := ⋃ j, ⋃ _ : j < i, localTags cfg j name s

variable {cfg}

theorem tags_subset {d : Data} {linus : Int32} {R : ℕ → ℕ → Prop} {name : Kind} {s : ℕ} :
    tags d linus R name s ⊆ known d name := by
  cases name with
  | projects => exact fun i hi => hi.1
  | users => exact fun i hi => hi.1

theorem exists_localPair (hn : cfg.args.numNodes ≠ 0) :
    cfg.data.Pair = fun pid uid => ∃ j, cfg.data.LocalPair cfg.args j pid uid := by
  funext pid uid
  refine propext ⟨?_, ?_⟩
  · rintro ⟨i, hi, he⟩
    have hlt : i / cfg.args.blockSize.toNat % cfg.args.numNodes.toNat < 2 ^ 64 :=
      Nat.lt_trans (Nat.mod_lt _ (toNat_pos hn)) cfg.args.numNodes.toNat_lt
    exact ⟨UInt64.ofNat (i / cfg.args.blockSize.toNat % cfg.args.numNodes.toNat), i, hi,
      (UInt64.toNat_ofNat_of_lt' hlt).symm, he⟩
  · rintro ⟨j, i, hi, -, he⟩
    exact ⟨i, hi, he⟩

/-- **What the nodes tag is what the stage tags.** -/
theorem iUnion_localTags (hn : cfg.args.numNodes ≠ 0) (name : Kind) (s : ℕ) :
    ⋃ j, localTags cfg j name s = allTags cfg.data cfg.linus name s := by
  cases name with
  | projects =>
    refine (Stage.iUnion_tagFst _ _ _ _ _).trans ?_
    rw [allTags, tags, exists_localPair hn]
  | users =>
    refine (Stage.iUnion_tagSnd _ _ _ _ _).trans ?_
    rw [allTags, tags]
    congr 1
    exact (exists_localPair hn).symm

theorem localTags_subset (hn : cfg.args.numNodes ≠ 0) (j : SizeT) (name : Kind) (s : ℕ) :
    localTags cfg j name s ⊆ allTags cfg.data cfg.linus name s := by
  rw [← iUnion_localTags hn]
  exact Set.subset_iUnion (fun j => localTags cfg j name s) j

/-- A node that is not there has no rows. -/
theorem localTags_of_le (hn : cfg.args.numNodes ≠ 0) {j : SizeT} (hj : ¬ j < cfg.args.numNodes)
    (name : Kind) (s : ℕ) : localTags cfg j name s = ∅ := by
  have hnone : ∀ pid uid, ¬ cfg.data.LocalPair cfg.args j pid uid := by
    rintro pid uid ⟨i, -, hloc, -⟩
    refine hj (UInt64.lt_iff_toNat_lt.mpr ?_)
    rw [← show _ = j.toNat from hloc]
    exact Nat.mod_lt _ (toNat_pos hn)
  cases name with
  | projects => exact Set.eq_empty_of_forall_notMem fun i ⟨_, _, u, h, _⟩ => hnone i u h
  | users => exact Set.eq_empty_of_forall_notMem fun i ⟨_, _, p, h, _⟩ => hnone p i h

theorem mem_gathered {i : SizeT} {name : Kind} {s x : ℕ} :
    x ∈ gathered cfg i name s ↔ ∃ j, j < i ∧ x ∈ localTags cfg j name s := by
  rw [gathered, Set.mem_iUnion₂]
  exact ⟨fun ⟨j, hj, hx⟩ => ⟨j, hj, hx⟩, fun ⟨j, hj, hx⟩ => ⟨j, hj, hx⟩⟩

theorem gathered_one (name : Kind) (s : ℕ) : gathered cfg 1 name s = localTags cfg 0 name s := by
  ext x
  rw [mem_gathered]
  constructor
  · rintro ⟨j, hj, hx⟩
    have hj0 : j = 0 := by
      rw [UInt64.lt_iff_toNat_lt, show (1 : SizeT).toNat = 1 from rfl] at hj
      exact UInt64.toNat_inj.mp (by show j.toNat = 0; omega)
    rwa [hj0] at hx
  · exact fun hx => ⟨0, by decide, hx⟩

theorem gathered_succ {i : SizeT} (hi : i < cfg.args.numNodes) (name : Kind) (s : ℕ) :
    gathered cfg (i + 1) name s = gathered cfg i name s ∪ localTags cfg i name s := by
  have hlt : ∀ j : SizeT, j < i + 1 ↔ j < i ∨ j = i := by
    intro j
    rw [UInt64.lt_iff_toNat_lt, DataFrame.toNat_succ hi, Nat.lt_succ_iff_lt_or_eq,
      UInt64.lt_iff_toNat_lt, UInt64.toNat_inj]
  ext x
  rw [Set.mem_union, mem_gathered, mem_gathered]
  constructor
  · rintro ⟨j, hj, hx⟩
    rcases (hlt j).mp hj with hj | rfl
    · exact Or.inl ⟨j, hj, hx⟩
    · exact Or.inr hx
  · rintro (⟨j, hj, hx⟩ | hx)
    · exact ⟨j, (hlt j).mpr (Or.inl hj), hx⟩
    · exact ⟨i, (hlt i).mpr (Or.inr rfl), hx⟩

theorem gathered_all (hn : cfg.args.numNodes ≠ 0) {i : SizeT} (hi : ¬ i < cfg.args.numNodes)
    (name : Kind) (s : ℕ) : gathered cfg i name s = allTags cfg.data cfg.linus name s := by
  ext x
  rw [mem_gathered]
  constructor
  · rintro ⟨j, -, hx⟩
    exact localTags_subset hn j name s hx
  · intro hx
    rw [← iUnion_localTags hn, Set.mem_iUnion] at hx
    obtain ⟨j, hx⟩ := hx
    refine ⟨j, ?_, hx⟩
    -- a node behind the last one tags nothing
    by_contra hj
    rw [localTags_of_le hn (fun hlt => hj (UInt64.lt_of_lt_of_le hlt (UInt64.not_lt.mp hi)))] at hx
    exact hx

/-! ### The invariant -/

variable (cfg)

/-- The sets of node `j` in the merge `name` of stage `s`. -/
def InMerge (j : SizeT) (s : ℕ) (nd : Node) : Kind → Prop
  | .projects =>
    nd.pSet.tagged = (sets cfg.data cfg.linus s).fst ∪ localTags cfg j .projects s ∧
      nd.uSet.tagged = (sets cfg.data cfg.linus s).snd
  | .users =>
    nd.pSet.tagged = (sets cfg.data cfg.linus (s + 1)).fst ∧
      nd.uSet.tagged = (sets cfg.data cfg.linus s).snd ∪ localTags cfg j .users s ∧
      sizeOf cfg.data .projects < 2 ^ 31

/-- No stage comes after the last one. -/
def Pc.Below (degrees : ℕ) : Pc → Prop
  | .start s => s ≤ degrees
  | .gather _ s _ _ => s < degrees
  | .await _ s _ => s < degrees

/-- What is true of node `j` where it stands. -/
def PcOk (j : SizeT) (nd : Node) : Pc → Prop
  | .start s =>
    nd.pSet.tagged = (sets cfg.data cfg.linus s).fst ∧
      nd.uSet.tagged = (sets cfg.data cfg.linus s).snd ∧
      (s ≠ 0 → sizeOf cfg.data .projects < 2 ^ 31 ∧ sizeOf cfg.data .users < 2 ^ 31)
  | .gather name s i set =>
    j = 0 ∧ InMerge cfg j s nd name ∧ set.size = sizeOf cfg.data name ∧ i ≠ 0 ∧
      set.tagged = gathered cfg i name s
  | .await name s set =>
    j ≠ 0 ∧ InMerge cfg j s nd name ∧ set.size = sizeOf cfg.data name ∧
      set.tagged = localTags cfg j name s ∧ sizeOf cfg.data name < 2 ^ 31

structure NodeOk (j : SizeT) (nd : Node) : Prop where
  pSize : nd.pSet.size = sizeOf cfg.data .projects
  uSize : nd.uSet.size = sizeOf cfg.data .users
  pc : PcOk cfg j nd nd.pc
  below : nd.pc.Below cfg.degrees

/-- What is stored under `{name}{m}-{j}`. -/
def stored : Kind → ℕ → SizeT → Set ℕ
  | .projects, m, j =>
    if j = 0 then allTags cfg.data cfg.linus .projects m else localTags cfg j .projects m
  | .users, 0, _ => {(sizeOfInt cfg.linus).toNat}
  | .users, m + 1, j =>
    if j = 0 then allTags cfg.data cfg.linus .users m else localTags cfg j .users m

/-- Every sheet lists what its key stands for. -/
def StoreOk (store : Sheets) : Prop :=
  ∀ k t, store k = some t → ∃ name m j, k = deltaKey name m j ∧ Lists t (stored cfg name m j)

structure Inv (sys : System) : Prop where
  nodes : ∀ j, NodeOk cfg j (sys.nodes j)
  store : StoreOk cfg sys.store

variable {cfg}

theorem stored_keyStage (name : Kind) (s : ℕ) (j : SizeT) :
    stored cfg name (name.keyStage s) j =
      if j = 0 then allTags cfg.data cfg.linus name s else localTags cfg j name s := by
  cases name <;> rfl

theorem StoreOk.lookup {store : Sheets} (h : StoreOk cfg store) {name : Kind} {m : ℕ} {j : SizeT}
    {t : Sheet} (ht : store (deltaKey name m j) = some t) : Lists t (stored cfg name m j) := by
  obtain ⟨name', m', j', hk, hl⟩ := h _ t ht
  obtain ⟨rfl, rfl, rfl⟩ := deltaKey_inj hk
  exact hl

theorem StoreOk.update {store : Sheets} (h : StoreOk cfg store) {name : Kind} {m : ℕ} {j : SizeT}
    {t : Sheet} (ht : Lists t (stored cfg name m j)) :
    StoreOk cfg (Function.update store (deltaKey name m j) (some t)) := by
  intro k t' hk
  rw [Function.update_apply] at hk
  split at hk
  · rename_i hkey
    cases hk
    exact ⟨name, m, j, hkey, ht⟩
  · exact h k t' hk

theorem stored_users (s : ℕ) (i : ℕ) : i ∈ (sets cfg.data cfg.linus s).delta ↔
    i ∈ stored cfg .users s 0 ∧ i < sizeOf cfg.data .users := by
  cases s with
  | zero => rfl
  | succ s =>
    rw [stored, if_pos rfl]
    exact ⟨fun hi => ⟨hi, tags_subset hi⟩, fun hi => hi.1⟩

/-- **What a tagger that is run on a node's rows does.** -/
theorem localMap_tags (hb : cfg.args.blockSize ≠ 0) {j : SizeT} {fuel : Nat} {frontier : BitSet}
    {pick : Nat → Nat → Nat × Nat} {set new : BitSet} {st' : BitSet × BitSet}
    (h : cfg.data.commits.localMap cfg.args j fuel (tagger frontier pick) (set, new) = some st')
    (hsize : set.size = new.size) (hnew : new.tagged = ∅) {X : Set ℕ}
    (hX : ∀ i, i ∈ X ↔ i < set.size ∧ i ∉ set.tagged ∧ ∃ pid uid,
      cfg.data.LocalPair cfg.args j pid uid ∧ (pick pid uid).2 = i ∧
        frontier.test (pick pid uid).1 = true) :
    st'.1.size = set.size ∧ st'.2.size = set.size ∧ st'.1.tagged = set.tagged ∪ X ∧
      st'.2.tagged = X := by
  obtain ⟨ps, hps, rfl⟩ := Data.localMap_eq hb h
  obtain ⟨h1, h2, h3, h4⟩ := tagger_spec frontier pick ps (set, new) hsize
  have hleads : ∀ i, LeadsTo frontier pick ps i ↔ ∃ pid uid,
      cfg.data.LocalPair cfg.args j pid uid ∧ (pick pid uid).2 = i ∧
        frontier.test (pick pid uid).1 = true := by
    intro i
    constructor
    · rintro ⟨p, hp, hpi⟩
      exact ⟨p.1, p.2, (hps p).mp hp, hpi⟩
    · rintro ⟨pid, uid, hp, hpi⟩
      exact ⟨(pid, uid), (hps _).mpr hp, hpi⟩
  refine ⟨h1, h2, Set.ext fun i => ?_, Set.ext fun i => ?_⟩
  · rw [h3, Set.mem_union, hX, hleads]
    constructor
    · rintro (hi | ⟨hi, hl⟩)
      · exact Or.inl hi
      · by_cases hmem : i ∈ set.tagged
        · exact Or.inl hmem
        · exact Or.inr ⟨hi, hmem, hl⟩
    · rintro (hi | ⟨hi, -, hl⟩)
      · exact Or.inl hi
      · exact Or.inr ⟨hi, hl⟩
  · rw [h4, hX, hleads, hnew]
    exact or_iff_right fun hi => hi

/-- **The projects that a node tags** lead to what the stage tags on it. -/
theorem projects_tags (hb : cfg.args.blockSize ≠ 0) {j : SizeT} {fuel s : Nat}
    {delta pSet : BitSet} {st' : BitSet × BitSet}
    (h : cfg.data.commits.localMap cfg.args j fuel (projectsTagger delta)
      (pSet, BitSet.new (sizeOf cfg.data .projects)) = some st')
    (hdsize : delta.size = sizeOf cfg.data .users)
    (hdelta : delta.tagged = (sets cfg.data cfg.linus s).delta)
    (hpsize : pSet.size = sizeOf cfg.data .projects)
    (hp : pSet.tagged = (sets cfg.data cfg.linus s).fst) :
    st'.1.size = sizeOf cfg.data .projects ∧ st'.2.size = sizeOf cfg.data .projects ∧
      st'.1.tagged = (sets cfg.data cfg.linus s).fst ∪ localTags cfg j .projects s ∧
      st'.2.tagged = localTags cfg j .projects s := by
  have hX : ∀ i, i ∈ localTags cfg j .projects s ↔ i < pSet.size ∧ i ∉ pSet.tagged ∧
      ∃ pid uid, cfg.data.LocalPair cfg.args j pid uid ∧ pid = i ∧ delta.test uid = true := by
    intro i
    rw [hpsize, hp]
    constructor
    · rintro ⟨hi, hn, uid, hpair, hu⟩
      refine ⟨hi, hn, i, uid, hpair, rfl, BitSet.test_iff.mpr ?_⟩
      rw [hdelta, hdsize]
      exact hu.imp id Nat.not_lt.mp
    · rintro ⟨hi, hn, pid, uid, hpair, rfl, hu⟩
      rw [BitSet.test_iff, hdelta, hdsize] at hu
      exact ⟨hi, hn, uid, hpair, hu.imp id Nat.not_lt.mpr⟩
  have := localMap_tags hb h (by rw [BitSet.size_new, hpsize]) (BitSet.tagged_new _) hX
  rwa [hpsize, hp] at this

/-- **The users that a node tags**, when the projects of all nodes are there. -/
theorem users_tags (hb : cfg.args.blockSize ≠ 0) {j : SizeT} {fuel s : Nat}
    {newProjects uSet : BitSet} {st' : BitSet × BitSet}
    (h : cfg.data.commits.localMap cfg.args j fuel (usersTagger newProjects)
      (uSet, BitSet.new (sizeOf cfg.data .users)) = some st')
    (hnsize : newProjects.size = sizeOf cfg.data .projects)
    (hnew : newProjects.tagged = allTags cfg.data cfg.linus .projects s)
    (husize : uSet.size = sizeOf cfg.data .users)
    (hu : uSet.tagged = (sets cfg.data cfg.linus s).snd) :
    st'.1.size = sizeOf cfg.data .users ∧ st'.2.size = sizeOf cfg.data .users ∧
      st'.1.tagged = (sets cfg.data cfg.linus s).snd ∪ localTags cfg j .users s ∧
      st'.2.tagged = localTags cfg j .users s := by
  have hX : ∀ i, i ∈ localTags cfg j .users s ↔ i < uSet.size ∧ i ∉ uSet.tagged ∧
      ∃ pid uid, cfg.data.LocalPair cfg.args j pid uid ∧ uid = i ∧
        newProjects.test pid = true := by
    intro i
    rw [husize, hu]
    constructor
    · rintro ⟨hi, hn, pid, hpair, hp⟩
      refine ⟨hi, hn, pid, i, hpair, rfl, BitSet.test_iff.mpr ?_⟩
      rw [hnew, hnsize]
      exact hp.imp id Nat.not_lt.mp
    · rintro ⟨hi, hn, pid, uid, hpair, rfl, hp⟩
      rw [BitSet.test_iff, hnew, hnsize] at hp
      exact ⟨hi, hn, pid, hpair, hp.imp id Nat.not_lt.mpr⟩
  have := localMap_tags hb h (by rw [BitSet.size_new, husize]) (BitSet.tagged_new _) hX
  rwa [husize, hu] at this

theorem enterMerge_ok {fuel : Nat} {j : SizeT} {name : Kind} {s : Nat} {set : BitSet} {nd : Node}
    {store : Sheets} {r : Node × Sheets} (h : enterMerge fuel j name s set nd store = some r)
    (hp : nd.pSet.size = sizeOf cfg.data .projects) (hu : nd.uSet.size = sizeOf cfg.data .users)
    (hs : s < cfg.degrees) (hin : InMerge cfg j s nd name) (hsize : set.size = sizeOf cfg.data name)
    (hset : set.tagged = localTags cfg j name s) (hstore : StoreOk cfg store) :
    NodeOk cfg j r.1 ∧ StoreOk cfg r.2 := by
  rw [enterMerge] at h
  split at h
  · rename_i hj
    cases h
    refine ⟨⟨hp, hu, ⟨hj, ?_, hsize, by decide, ?_⟩, hs⟩, hstore⟩
    · cases name <;> exact hin
    · rw [gathered_one, ← hj, hset]
  · rename_i hj
    obtain ⟨delta, hdelta, h⟩ := Option.bind_eq_some_iff.mp h
    cases h
    obtain ⟨hlt, hlists⟩ := lists_setWriter hdelta
    refine ⟨⟨hp, hu, ⟨hj, ?_, hsize, hset, by rwa [← hsize]⟩, hs⟩, hstore.update ?_⟩
    · cases name <;> exact hin
    · rwa [stored_keyStage, if_neg hj, ← hset]

theorem leaveMerge_ok (hn : cfg.args.numNodes ≠ 0) (hb : cfg.args.blockSize ≠ 0) {fuel : Nat}
    {j : SizeT} {name : Kind} {s : Nat} {set : BitSet} {nd : Node} {store : Sheets}
    {r : Node × Sheets} (h : leaveMerge cfg fuel j name s set nd store = some r)
    (hp : nd.pSet.size = sizeOf cfg.data .projects) (hu : nd.uSet.size = sizeOf cfg.data .users)
    (hs : s < cfg.degrees) (hin : InMerge cfg j s nd name) (hsize : set.size = sizeOf cfg.data name)
    (hset : set.tagged = allTags cfg.data cfg.linus name s)
    (hlt : sizeOf cfg.data name < 2 ^ 31) (hstore : StoreOk cfg store) :
    NodeOk cfg j r.1 ∧ StoreOk cfg r.2 := by
  cases name with
  | projects =>
    obtain ⟨⟨uSet, newUsers⟩, htag, h⟩ := Option.bind_eq_some_iff.mp h
    obtain ⟨hpin, huin⟩ := hin
    obtain ⟨hpsize, hpset⟩ := BitSet.union_spec nd.pSet set (by rw [hp, hsize])
    obtain ⟨h1, h2, h3, h4⟩ := users_tags hb htag hsize hset hu huin
    -- the tags of the node are among those of all nodes
    have hnext : (nd.pSet.union_ set).tagged = (sets cfg.data cfg.linus (s + 1)).fst := by
      rw [hpset, hpin, hset, Set.union_assoc,
        Set.union_eq_self_of_subset_left (localTags_subset hn j .projects s)]
      rfl
    have hin' : InMerge cfg j s { nd with uSet := uSet, pSet := nd.pSet.union_ set } .users :=
      ⟨hnext, h3, hlt⟩
    exact enterMerge_ok h (hpsize.trans hp) h1 hs hin' h2 h4 hstore
  | users =>
    cases h
    obtain ⟨hpin, huin, hplt⟩ := hin
    obtain ⟨husize, huset⟩ := BitSet.union_spec nd.uSet set (by rw [hu, hsize])
    refine ⟨⟨hp, husize.trans hu, ⟨hpin, ?_, fun _ => ⟨hplt, hlt⟩⟩, hs⟩, hstore⟩
    show (nd.uSet.union_ set).tagged = _ ∪ allTags cfg.data cfg.linus .users s
    rw [huset, huin, hset, Set.union_assoc,
      Set.union_eq_self_of_subset_left (localTags_subset hn j .users s)]
    rfl

/-- **A node that moves keeps the invariant.** -/
theorem stepNode_ok (hn : cfg.args.numNodes ≠ 0) (hb : cfg.args.blockSize ≠ 0) {fuel : Nat}
    {j : SizeT} {nd : Node} {store : Sheets} {r : Node × Sheets}
    (h : stepNode cfg fuel j nd store = some r) (hnd : NodeOk cfg j nd)
    (hstore : StoreOk cfg store) : NodeOk cfg j r.1 ∧ StoreOk cfg r.2 := by
  have hpc := hnd.pc
  have hs := hnd.below
  rw [stepNode] at h
  cases hcase : nd.pc with
  | start s =>
    rw [hcase] at h hpc hs
    obtain ⟨hp, hu, hlt⟩ := hpc
    dsimp only at h
    split at h
    · rename_i hs
      obtain ⟨newUsers, hget, h⟩ := Option.bind_eq_some_iff.mp h
      obtain ⟨delta, hmap, h⟩ := Option.bind_eq_some_iff.mp h
      obtain ⟨⟨pSet, newProjects⟩, htag, henter⟩ := Option.bind_eq_some_iff.mp h
      -- the delta has the users of the stage before
      obtain ⟨delta', hmap', hdsize, hdmem⟩ := (hstore.lookup (j := 0) hget).map
        (BitSet.new (sizeOf cfg.data .users))
      have hd : delta' = delta := Option.some.inj (hmap'.symm.trans hmap)
      subst hd
      have hdelta : delta'.tagged = (sets cfg.data cfg.linus s).delta := by
        ext i
        rw [hdmem, stored_users, BitSet.tagged_new, BitSet.size_new]
        exact or_iff_right fun hi => hi
      rw [BitSet.size_new] at hdsize
      obtain ⟨h1, h2, h3, h4⟩ := projects_tags hb htag hdsize hdelta hnd.pSize hp
      have hin : InMerge cfg j s { nd with pSet := pSet } .projects := ⟨h3, hu⟩
      exact enterMerge_ok henter h1 hnd.uSize hs hin h2 h4 hstore
    · cases h
  | gather name s i set =>
    rw [hcase] at h hpc hs
    obtain ⟨hj, hin, hsize, hi0, hset⟩ := hpc
    dsimp only at h
    split at h
    · rename_i hi
      obtain ⟨delta, hget, h⟩ := Option.bind_eq_some_iff.mp h
      obtain ⟨set', hmap, h⟩ := Option.bind_eq_some_iff.mp h
      cases h
      obtain ⟨set'', hmap', hsize', hmem⟩ := (hstore.lookup hget).map set
      have hd : set'' = set' := Option.some.inj (hmap'.symm.trans hmap)
      subst hd
      refine ⟨⟨hnd.pSize, hnd.uSize, ⟨hj, ?_, hsize'.trans hsize, ?_, ?_⟩, hs⟩, hstore⟩
      · cases name <;> exact hin
      · intro h0
        have := DataFrame.toNat_succ hi
        rw [h0] at this
        cases this
      · ext x
        rw [hmem, hset, hsize, gathered_succ hi, stored_keyStage, if_neg hi0]
        exact or_congr_right ⟨fun hx => hx.1, fun hx => ⟨hx, tags_subset hx⟩⟩
    · rename_i hi
      obtain ⟨merged, hwrite, h⟩ := Option.bind_eq_some_iff.mp h
      obtain ⟨hlt, hlists⟩ := lists_setWriter hwrite
      rw [gathered_all hn hi] at hset
      refine leaveMerge_ok hn hb h hnd.pSize hnd.uSize hs hin hsize hset (by rwa [← hsize])
        (hstore.update (j := 0) ?_)
      rwa [stored_keyStage, if_pos rfl, ← hset]
  | await name s set =>
    rw [hcase] at h hpc hs
    obtain ⟨hj, hin, hsize, hset, hlt⟩ := hpc
    obtain ⟨merged, hget, h⟩ := Option.bind_eq_some_iff.mp h
    obtain ⟨set', hmap, h⟩ := Option.bind_eq_some_iff.mp h
    have hlists := hstore.lookup (j := 0) hget
    rw [stored_keyStage, if_pos rfl] at hlists
    obtain ⟨set'', hmap', hsize', hmem⟩ := hlists.map set
    have hd : set'' = set' := Option.some.inj (hmap'.symm.trans hmap)
    subst hd
    refine leaveMerge_ok hn hb h hnd.pSize hnd.uSize hs hin (hsize'.trans hsize) ?_ hlt hstore
    ext i
    rw [hmem, hset, hsize]
    constructor
    · rintro (hi | ⟨hi, -⟩)
      · exact localTags_subset hn j name s hi
      · exact hi
    · exact fun hi => Or.inr ⟨hi, tags_subset hi⟩

theorem inv_init : Inv cfg (init cfg) := by
  refine ⟨fun j => ⟨BitSet.size_new _, BitSet.size_new _, ⟨BitSet.tagged_new _, BitSet.tagged_new _,
    fun h => absurd rfl h⟩, Nat.zero_le _⟩, fun k t hk => ?_⟩
  rw [init_store, Function.update_apply] at hk
  split at hk
  · rename_i hkey
    cases hk
    refine ⟨.users, 0, 0, hkey, ?_⟩
    have hlists := lists_ints (t := linusSheet cfg.linus) [cfg.linus] rfl
    convert hlists using 1
    ext i
    simp [stored, eq_comm]
  · cases hk

/-- **The invariant holds after every run.** -/
theorem inv_run (cfg : Config) (hn : cfg.args.numNodes ≠ 0) (hb : cfg.args.blockSize ≠ 0)
    {ms : List Move} {sys : System} (h : run cfg ms = some sys) : Inv cfg sys := by
  refine Schedule.run_induction (P := fun _ sys => Inv cfg sys) inv_init ?_ h
  intro ms sys m sys' _ ih hstep
  rw [step] at hstep
  split at hstep
  · obtain ⟨⟨nd, store⟩, hnode, hstep⟩ := Option.bind_eq_some_iff.mp hstep
    cases hstep
    obtain ⟨hnd, hstore⟩ := stepNode_ok hn hb hnode (ih.nodes m.1) ih.store
    refine ⟨?_, hstore⟩
    exact (Function.forall_update_iff sys.nodes (NodeOk cfg)).mpr ⟨hnd, fun j _ => ih.nodes j⟩
  · cases hstep

/-- **After a stage every node has the sets of that stage.** -/
theorem sets_of_start (cfg : Config) (hn : cfg.args.numNodes ≠ 0) (hb : cfg.args.blockSize ≠ 0)
    {ms : List Move} {sys : System} (h : run cfg ms = some sys) {j : SizeT} {s : ℕ}
    (hpc : (sys.nodes j).pc = .start s) :
    (sys.nodes j).pSet.tagged = (sets cfg.data cfg.linus s).fst ∧
      (sys.nodes j).uSet.tagged = (sets cfg.data cfg.linus s).snd ∧ s ≤ cfg.degrees ∧
      (s ≠ 0 → sizeOf cfg.data .projects < 2 ^ 31 ∧ sizeOf cfg.data .users < 2 ^ 31) := by
  have hnd := (inv_run cfg hn hb h).nodes j
  have hok := hnd.pc
  have hle := hnd.below
  rw [hpc] at hok hle
  exact ⟨hok.1, hok.2.1, hle, hok.2.2⟩

end Nodes

end Linus

end Eau2
