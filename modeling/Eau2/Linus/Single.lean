import Eau2.Linus.Stages

/-!
# One node alone

A node that is alone goes through all stages, as long as the sets can be written; so
what it has after a stage is a value that the nodes of any other system can be compared to.

* `exists_alone`: a node that is alone comes to every stage.
* `independent`: **the sets after a stage do not depend on the nodes**.
-/

namespace Eau2

namespace Linus

/-- The same, on one node with blocks of `b` rows. -/
def Config.alone (cfg : Config) (b : SizeT) : Config :=
  { cfg with args := ⟨1, b⟩ }

section Progress

variable {d : Data}

theorem Data.mapM_pair {is : List Nat} (h : ∀ i ∈ is, i < d.commits.rows.length) :
    (is.map d.commits.row).mapM pair = some (is.map d.pairAt) := by
  rw [mapM_eq_some_iff, List.forall₂_map_left_iff, List.forall₂_map_right_iff,
    List.forall₂_same]
  exact fun i hi => Data.pair_row (h i hi)

theorem localIdxs_alone {args : Args} (hn : args.numNodes = 1) {nrows : SizeT} {fuel : Nat}
    {rowIdx : SizeT} (hf : nrows.toNat - rowIdx.toNat < fuel) :
    ∃ is, DataFrame.localIdxs args 0 nrows fuel rowIdx = some is := by
  induction fuel generalizing rowIdx with
  | zero => omega
  | succ fuel ih =>
    rw [DataFrame.localIdxs]
    split
    · rename_i hlt
      have hlt' := UInt64.lt_iff_toNat_lt.mp hlt
      have hloc : rowIdx / args.blockSize % args.numNodes = 0 := by
        rw [hn]
        apply UInt64.toNat_inj.mp
        rw [UInt64.toNat_mod]
        exact Nat.mod_one _
      have hf' : nrows.toNat - (rowIdx + 1).toNat < fuel := by
        rw [DataFrame.toNat_succ hlt]
        omega
      obtain ⟨is, his⟩ := ih hf'
      rw [if_pos hloc, his]
      exact ⟨_, rfl⟩
    · exact ⟨[], rfl⟩

theorem localMap_alone {args : Args} (hn : args.numNodes = 1) (hb : args.blockSize ≠ 0)
    {fuel : Nat} (hf : d.commits.rows.length < fuel) (frontier : BitSet)
    (pick : Nat → Nat → Nat × Nat) (st : BitSet × BitSet) :
    ∃ st', d.commits.localMap args 0 fuel (tagger frontier pick) st = some st' := by
  have hf' : d.commits.nrows.toNat - (0 : SizeT).toNat < fuel := by
    rw [Sheet.toNat_nrows]
    exact Nat.lt_of_le_of_lt (Nat.sub_le _ _) hf
  obtain ⟨is, his⟩ := localIdxs_alone hn hf'
  have hlt := (DataFrame.mem_localIdxs hb his).1
  rw [Sheet.toNat_nrows] at hlt
  refine ⟨(is.map d.pairAt).foldl (tagPair frontier pick) st, ?_⟩
  show (DataFrame.localIdxs args 0 d.commits.nrows fuel 0).bind _ = _
  rw [his]
  refine (foldlM_tagger frontier pick _ st).trans ?_
  rw [Data.mapM_pair fun i hi => (hlt i hi).1]
  rfl

end Progress

section Alone

variable {cfg : Config}

/-- Loops that are followed this far come to their end. -/
def enough (d : Data) : ℕ :=
  d.commits.rows.length + sizeOf d .projects + sizeOf d .users + 1

theorem commits_lt_enough (d : Data) : d.commits.rows.length < enough d := by
  rw [enough]
  omega

theorem sizeOf_lt_enough (d : Data) (name : Kind) : sizeOf d name < enough d := by
  rw [enough]
  cases name
  · omega
  · omega

theorem step_alone (hn : cfg.args.numNodes = 1) {sys : System} {fuel : Nat} {r : Node × Sheets}
    (h : stepNode cfg fuel 0 (sys.nodes 0) sys.store = some r) :
    ∃ sys', step cfg sys (0, fuel) = some sys' ∧ sys'.nodes 0 = r.1 ∧ sys'.store = r.2 := by
  have h0 : (0 : SizeT) < cfg.args.numNodes := by
    rw [hn]
    decide
  refine ⟨⟨Function.update sys.nodes 0 r.1, r.2⟩, ?_, ?_, rfl⟩
  · rw [step, if_pos h0]
    show (stepNode cfg fuel 0 (sys.nodes 0) sys.store).bind _ = _
    rw [h]
    rfl
  · show Function.update sys.nodes 0 r.1 0 = r.1
    exact Function.update_self _ _ _

theorem gather_alone (hn : cfg.args.numNodes = 1) {nd : Node} {store : Sheets} {name : Kind}
    {s : ℕ} {set : BitSet} (hpc : nd.pc = .gather name s 1 set) {t : Sheet}
    (ht : Sheet.fromVisitor [.Integer] (setWriter set) (enough cfg.data) 0 = some t) :
    stepNode cfg (enough cfg.data) 0 nd store = leaveMerge cfg (enough cfg.data) 0 name s set nd
      (Function.update store (mergedKey name (name.keyStage s)) (some t)) := by
  rw [stepNode, hpc]
  show (if (1 : SizeT) < cfg.args.numNodes then _ else _ : Option (Node × Sheets)) = _
  rw [if_neg (by rw [hn]; decide)]
  show (Sheet.fromVisitor [.Integer] (setWriter set) (enough cfg.data) 0).bind _ = _
  rw [ht]
  rfl

theorem numNodes_ne_zero (hn : cfg.args.numNodes = 1) : cfg.args.numNodes ≠ 0 := by
  rw [hn]
  decide

section Steps

variable (hn : cfg.args.numNodes = 1) (hb : cfg.args.blockSize ≠ 0) {ms : List Move}
  {sys : System} (h : run cfg ms = some sys) {s : ℕ}
include hn hb h

theorem size_gather {name : Kind} {set : BitSet}
    (hpc : (sys.nodes 0).pc = .gather name s 1 set) : set.size = sizeOf cfg.data name := by
  have hok := ((inv_run cfg (numNodes_ne_zero hn) hb h).nodes 0).pc
  rw [hpc] at hok
  obtain ⟨-, -, hsize, -⟩ := hok
  exact hsize

theorem start_alone (hpc : (sys.nodes 0).pc = .start s) (hs : s < cfg.degrees) {t : Sheet}
    (ht : sys.store (mergedKey .users s) = some t) :
    ∃ sys' set, step cfg sys (0, enough cfg.data) = some sys' ∧
      (sys'.nodes 0).pc = .gather .projects s 1 set := by
  obtain ⟨delta, hdelta, -⟩ := ((inv_run cfg (numNodes_ne_zero hn) hb h).store.lookup (j := 0) ht).map
    (BitSet.new cfg.data.users.rows.length)
  obtain ⟨st', hst'⟩ := localMap_alone hn hb (commits_lt_enough cfg.data) delta
    (fun pid uid => (uid, pid)) ((sys.nodes 0).pSet, BitSet.new cfg.data.projects.rows.length)
  have hnode : stepNode cfg (enough cfg.data) 0 (sys.nodes 0) sys.store =
      some (⟨(sys.nodes 0).uSet, st'.1, .gather .projects s 1 st'.2⟩, sys.store) := by
    rw [stepNode, hpc]
    dsimp only
    rw [if_pos hs, ht]
    simp only [Option.bind_eq_bind, Option.bind_some, hdelta]
    rw [projectsTagger, hst']
    rfl
  obtain ⟨sys', hstep, hnd, -⟩ := step_alone hn hnode
  exact ⟨sys', st'.2, hstep, by rw [hnd]⟩

theorem projects_alone {set : BitSet} (hpc : (sys.nodes 0).pc = .gather .projects s 1 set)
    (hp : sizeOf cfg.data .projects < 2 ^ 31) :
    ∃ sys' set', step cfg sys (0, enough cfg.data) = some sys' ∧
      (sys'.nodes 0).pc = .gather .users s 1 set' := by
  have hsize := size_gather hn hb h hpc
  rw [← hsize] at hp
  obtain ⟨t, ht⟩ := exists_sheet hp (hsize ▸ sizeOf_lt_enough cfg.data .projects)
  obtain ⟨st', hst'⟩ := localMap_alone hn hb (commits_lt_enough cfg.data) set
    (fun pid uid => (pid, uid)) ((sys.nodes 0).uSet, BitSet.new cfg.data.users.rows.length)
  have hnode : stepNode cfg (enough cfg.data) 0 (sys.nodes 0) sys.store =
      some (⟨st'.1, (sys.nodes 0).pSet.union_ set, .gather .users s 1 st'.2⟩,
        Function.update sys.store (mergedKey .projects s) (some t)) := by
    rw [gather_alone hn hpc ht]
    show (cfg.data.commits.localMap cfg.args 0 _ (tagger set _) _).bind _ = _
    rw [hst']
    rfl
  obtain ⟨sys', hstep, hnd, -⟩ := step_alone hn hnode
  exact ⟨sys', st'.2, hstep, by rw [hnd]⟩

theorem users_alone {set : BitSet} (hpc : (sys.nodes 0).pc = .gather .users s 1 set)
    (hu : sizeOf cfg.data .users < 2 ^ 31) :
    ∃ sys' t, step cfg sys (0, enough cfg.data) = some sys' ∧
      (sys'.nodes 0).pc = .start (s + 1) ∧ sys'.store (mergedKey .users (s + 1)) = some t := by
  have hsize := size_gather hn hb h hpc
  rw [← hsize] at hu
  obtain ⟨t, ht⟩ := exists_sheet hu (hsize ▸ sizeOf_lt_enough cfg.data .users)
  obtain ⟨sys', hstep, hnd, hstore⟩ := step_alone hn (gather_alone hn hpc ht)
  refine ⟨sys', t, hstep, by rw [hnd], ?_⟩
  rw [hstore]
  exact Function.update_self _ _ _

end Steps

/-- **A node that is alone comes to every stage**, when its sets can be written. -/
theorem exists_alone (cfg : Config) (hn : cfg.args.numNodes = 1) (hb : cfg.args.blockSize ≠ 0) {s : ℕ}
    (hs : s ≤ cfg.degrees)
    (hlt : s ≠ 0 → sizeOf cfg.data .projects < 2 ^ 31 ∧ sizeOf cfg.data .users < 2 ^ 31) :
    ∃ ms sys, run cfg ms = some sys ∧ (sys.nodes 0).pc = .start s ∧
      ∃ t, sys.store (mergedKey .users s) = some t := by
  induction s with
  | zero =>
    have ht : (init cfg).store (mergedKey .users 0) = some (linusSheet cfg.linus) := by
      rw [init_store, Function.update_self]
    exact ⟨[], init cfg, rfl, rfl, _, ht⟩
  | succ s ih =>
    obtain ⟨hp, hu⟩ := hlt (Nat.succ_ne_zero s)
    obtain ⟨ms, sys, hrun, hpc, t, ht⟩ := ih (by omega) fun _ => ⟨hp, hu⟩
    obtain ⟨sys₁, set₁, h₁, hpc₁⟩ := start_alone hn hb hrun hpc (by omega) ht
    have hrun₁ := Schedule.run_snoc.mpr ⟨sys, hrun, h₁⟩
    obtain ⟨sys₂, set₂, h₂, hpc₂⟩ := projects_alone hn hb hrun₁ hpc₁ hp
    have hrun₂ := Schedule.run_snoc.mpr ⟨sys₁, hrun₁, h₂⟩
    obtain ⟨sys₃, t₃, h₃, hpc₃, ht₃⟩ := users_alone hn hb hrun₂ hpc₂ hu
    exact ⟨_, sys₃, Schedule.run_snoc.mpr ⟨sys₂, hrun₂, h₃⟩, hpc₃, t₃, ht₃⟩

end Alone

/-- **After every stage, every node of every system has the sets that a node has after
that stage when it is alone.** -/
theorem independent (cfg : Config) (hn : cfg.args.numNodes ≠ 0) (hb : cfg.args.blockSize ≠ 0)
    {ms : List Move} {sys : System} (h : run cfg ms = some sys) {j : SizeT}
    {s : ℕ} (hpc : (sys.nodes j).pc = .start s) {b : SizeT}
    (hb' : b ≠ 0) :
    (∃ ms' sys', run (cfg.alone b) ms' = some sys' ∧ (sys'.nodes 0).pc = .start s) ∧
      ∀ ms' sys', run (cfg.alone b) ms' = some sys' → (sys'.nodes 0).pc = .start s →
        (sys.nodes j).uSet = (sys'.nodes 0).uSet ∧ (sys.nodes j).pSet = (sys'.nodes 0).pSet := by
  obtain ⟨hp, hu, hle, hlt⟩ := sets_of_start cfg hn hb h hpc
  constructor
  · obtain ⟨ms', sys', hrun, hpc', -⟩ := exists_alone (cfg.alone b) rfl hb' hle hlt
    exact ⟨ms', sys', hrun, hpc'⟩
  · intro ms' sys' h' hpc'
    have hn' : (cfg.alone b).args.numNodes ≠ 0 := show (1 : SizeT) ≠ 0 by decide
    obtain ⟨hp', hu', -⟩ := sets_of_start (cfg.alone b) hn' hb' h' hpc'
    have hnd := (inv_run cfg hn hb h).nodes j
    have hnd' := (inv_run (cfg.alone b) hn' hb' h').nodes 0
    exact ⟨BitSet.ext_tagged (hnd.uSize.trans hnd'.uSize.symm) (hu.trans hu'.symm),
      BitSet.ext_tagged (hnd.pSize.trans hnd'.pSize.symm) (hp.trans hp'.symm)⟩

section Pair

def oneId : Sheet := ⟨[.Integer], [[.int 0]], by decide, by decide⟩

def twoIds : Sheet := ⟨[.Integer], [[.int 0], [.int 1]], by decide, by decide⟩

theorem pid_type : [DataType.Integer, DataType.Integer][0]? = some .Integer := rfl

theorem uid_type : [DataType.Integer, DataType.Integer][1]? = some .Integer := rfl

/-- Two users, of which each has a commit to the only project. -/
def pairData : Data where
  projects := oneId
  users := twoIds
  commits := ⟨[.Integer, .Integer], [[.int 0, .int 0], [.int 0, .int 1]], by decide, by decide⟩
  pid := pid_type
  uid := uid_type

/-- Two nodes with one commit each, and one stage from user `0`. -/
def pairConfig : Config where
  args := ⟨2, 1⟩
  data := pairData
  degrees := 1
  linus := 0

def pairMoves : List Move :=
  [(0, 9), (1, 9), (0, 9), (0, 9), (1, 9), (0, 9), (0, 9), (1, 9)]

theorem independent_pair : ∃ sys, run pairConfig pairMoves = some sys ∧
    (sys.nodes 1).pc = .start 1 ∧ ∃ ms' sys', run (pairConfig.alone 5) ms' = some sys' ∧
      (sys.nodes 1).uSet = (sys'.nodes 0).uSet ∧ (sys.nodes 1).pSet = (sys'.nodes 0).pSet := by
  have hrun : (do
      let sys ← run pairConfig pairMoves
      pure (decide ((sys.nodes 1).pc = .start 1))) = some true := by decide +kernel
  obtain ⟨sys, h, hpc⟩ := Option.bind_eq_some_iff.mp hrun
  have hpc := of_decide_eq_true (Option.some.inj hpc)
  obtain ⟨⟨ms', sys', h', hpc'⟩, hall⟩ := independent pairConfig (by decide) (by decide)
    h hpc (b := 5) (by decide)
  exact ⟨sys, h, hpc, ms', sys', h', hall ms' sys' h' hpc'⟩

end Pair

end Linus

end Eau2
