import Eau2.Linus.Frontier
import Eau2.Linus.Single

/-!
# Degrees of separation, and dangling commits

What the sets are after a stage, in terms of the commits.  `step(s)` goes over `s`
collaborations, and each is two steps in the graph of projects and users.

A set tests as set out of bounds.  Where it is tested whether something is tagged, this
leaves out what is dangling; where it is tested whether something was tagged last, it
does not: a commit with a dangling user tags its project in stage `0`, and one with a
dangling project its users.

* `degrees`: **the sets after a stage are what lies within a distance**.
* `ignoresDangling_iff`: when dangling commits change nothing.
-/

namespace Eau2

namespace Linus

section Degrees

/-- **After `step(s)` the projects are those with a commit by a user within `s`
collaborations**, and the users are those with a commit to one of the projects. -/
theorem degrees (cfg : Config) (hn : cfg.args.numNodes = 1) (hb : cfg.args.blockSize ≠ 0)
    (hpairs : ∀ pid uid, cfg.data.Pair pid uid →
      pid < cfg.data.projects.rows.length ∧ uid < cfg.data.users.rows.length)
    (hlinus : (sizeOfInt cfg.linus).toNat < cfg.data.users.rows.length) (s : ℕ) :
    (s < cfg.degrees → cfg.data.projects.rows.length < 2 ^ 31 →
      cfg.data.users.rows.length < 2 ^ 31 →
        ∃ ms sys, run cfg ms = some sys ∧ (sys.nodes 0).pc = .start (s + 1)) ∧
      ∀ ms sys, run cfg ms = some sys → (sys.nodes 0).pc = .start (s + 1) →
        (sys.nodes 0).pSet.tagged = {pid | ∃ uid, cfg.data.Pair pid uid ∧
          (Stage.graph cfg.data.Pair).edist (.inr (sizeOfInt cfg.linus).toNat) (.inr uid) ≤
            2 * s} ∧
        (sys.nodes 0).pSet.tagged = {pid | ∃ uid ∈ Stage.reach cfg.data.Pair
          (sizeOfInt cfg.linus).toNat s, cfg.data.Pair pid uid} ∧
        (sys.nodes 0).uSet.tagged =
          {uid | ∃ pid ∈ (sys.nodes 0).pSet.tagged, cfg.data.Pair pid uid} := by
  constructor
  · intro hs hp hu
    obtain ⟨ms, sys, hrun, hpc, -⟩ := exists_alone cfg hn hb (s := s + 1) hs fun _ => ⟨hp, hu⟩
    exact ⟨ms, sys, hrun, hpc⟩
  · intro ms sys hrun hpc
    have hn0 : cfg.args.numNodes ≠ 0 := by
      rw [hn]
      decide
    obtain ⟨hp, hu, -⟩ := sets_of_start cfg hn0 hb hrun hpc
    have hA : ∀ pid uid, cfg.data.Pair pid uid → pid ∈ known cfg.data .projects :=
      fun pid uid h => (hpairs pid uid h).1
    have hB : ∀ pid uid, cfg.data.Pair pid uid → uid ∈ known cfg.data .users :=
      fun pid uid h => (hpairs pid uid h).2
    have hreach : (sys.nodes 0).pSet.tagged = {pid | ∃ uid ∈ Stage.reach cfg.data.Pair
        (sizeOfInt cfg.linus).toNat s, cfg.data.Pair pid uid} :=
      hp.trans (Stage.fst_stage hA hB hlinus s)
    refine ⟨?_, hreach, ?_⟩
    · rw [hreach]
      ext pid
      constructor
      · rintro ⟨uid, hmem, hpair⟩
        exact ⟨uid, hpair, Stage.mem_reach_iff.mp hmem⟩
      · rintro ⟨uid, hpair, hdist⟩
        exact ⟨uid, Stage.mem_reach_iff.mpr hdist, hpair⟩
    · rw [hu, hp]
      exact Stage.snd_stage hA hB hlinus (s + 1)

/-- Two users and two projects; user `1` works with user `0` on project `0`, and alone on
project `1`. -/
def chainData : Data where
  projects := twoIds
  users := twoIds
  commits := ⟨[.Integer, .Integer],
    [[.int 0, .int 0], [.int 0, .int 1], [.int 1, .int 1]], by decide, by decide⟩
  pid := pid_type
  uid := uid_type

/-- Two stages from user `0`. -/
def chainConfig : Config where
  args := ⟨1, 2⟩
  data := chainData
  degrees := 2
  linus := 0

def chainMoves : List Move := List.replicate 6 (0, 9)

theorem chain_pair {pid uid : ℕ} (h : chainData.Pair pid uid) :
    (pid, uid) ∈ [(0, 0), (0, 1), (1, 1)] := by
  obtain ⟨i, hi, h⟩ := h
  rw [← h]
  have hi : i < 3 := hi
  interval_cases i <;> decide

theorem chain_known (pid uid : ℕ) (h : chainData.Pair pid uid) : pid < 2 ∧ uid < 2 := by
  have hmem := chain_pair h
  simp only [List.mem_cons, Prod.mk.injEq, List.not_mem_nil, or_false] at hmem
  omega

theorem degrees_chain : ∃ sys, run chainConfig chainMoves = some sys ∧
    (sys.nodes 0).pSet.tagged = {pid | ∃ uid, chainData.Pair pid uid ∧
      (Stage.graph chainData.Pair).edist (.inr 0) (.inr uid) ≤ 2 * (1 : ℕ)} := by
  have hrun : (do
      let sys ← run chainConfig chainMoves
      pure (decide ((sys.nodes 0).pc = .start 2))) = some true := by decide +kernel
  obtain ⟨sys, h, hpc⟩ := Option.bind_eq_some_iff.mp hrun
  have hpc := of_decide_eq_true (Option.some.inj hpc)
  have hl : (sizeOfInt chainConfig.linus).toNat < 2 := by decide
  exact ⟨sys, h, ((degrees chainConfig rfl (by decide) chain_known hl 1).2
    chainMoves sys h hpc).1⟩

/-- **A stage is not a step in the graph**: after `step(1)` there is project `1`, and no
user at a distance of at most `1` from user `0` has a commit to it. -/
theorem not_distance : ∃ sys, run chainConfig chainMoves = some sys ∧
    (sys.nodes 0).pc = .start 2 ∧ (∀ pid uid, chainData.Pair pid uid → pid < 2 ∧ uid < 2) ∧
    (sys.nodes 0).pSet.tagged ≠ {pid | ∃ uid, chainData.Pair pid uid ∧
      (Stage.graph chainData.Pair).edist (.inr 0) (.inr uid) ≤ 1} := by
  have hrun : (do
      let sys ← run chainConfig chainMoves
      pure (decide ((sys.nodes 0).pc = .start 2), (sys.nodes 0).pSet.vals)) =
        some (true, [true, true]) := by decide +kernel
  obtain ⟨sys, h, hend⟩ := Option.bind_eq_some_iff.mp hrun
  obtain ⟨hpc, hvals⟩ := Prod.mk.inj (Option.some.inj hend)
  refine ⟨sys, h, of_decide_eq_true hpc, chain_known, fun heq => ?_⟩
  have hmem : 1 ∈ (sys.nodes 0).pSet.tagged := by
    show (sys.nodes 0).pSet.vals[1]? = some true
    rw [hvals]
    rfl
  rw [heq] at hmem
  obtain ⟨uid, hpair, hdist⟩ := hmem
  -- only user `1` has a commit to project `1`, and it is not user `0`
  have huid := chain_pair hpair
  simp only [List.mem_cons, Prod.mk.injEq, List.not_mem_nil, or_false] at huid
  have := Stage.eq_of_edist_le_one hdist
  omega

end Degrees

/-! ### Dangling commits -/

section Dangling

def ids : List Cell → ℕ × ℕ
  | .int pid :: .int uid :: _ => ((sizeOfInt pid).toNat, (sizeOfInt uid).toNat)
  | _ => (0, 0)

def isKnown (d : Data) (cells : List Cell) : Bool :=
  (ids cells).1 < d.projects.rows.length && (ids cells).2 < d.users.rows.length

def Data.withoutDangling (d : Data) : Data where
  projects := d.projects
  users := d.users
  commits := {
    types := d.commits.types
    rows := d.commits.rows.filter (isKnown d)
    typed := fun cells h => d.commits.typed cells (List.mem_filter.mp h).1
    fits := Nat.lt_of_le_of_lt (List.length_filter_le _ _) d.commits.fits }
  pid := d.pid
  uid := d.uid

def Config.withoutDangling (cfg : Config) : Config :=
  { cfg with data := cfg.data.withoutDangling }

variable {d : Data}

theorem Data.commit_eq {cells : List Cell} (h : cells ∈ d.commits.rows) :
    ∃ pid uid rest, cells = .int pid :: .int uid :: rest := by
  have hpid := d.pid
  have huid := d.uid
  rw [← d.commits.typed cells h, List.getElem?_map, Option.map_eq_some_iff] at hpid huid
  obtain ⟨c, hc, hct⟩ := hpid
  obtain ⟨c', hc', hct'⟩ := huid
  match cells, hc, hc' with
  | c₁ :: c₂ :: rest, hc, hc' =>
    cases hc
    cases hc'
    cases c with
    | int pid =>
      cases c' with
      | int uid => exact ⟨pid, uid, rest, rfl⟩
      | _ => cases hct'
    | _ => cases hct

theorem Data.pairAt_eq {i : ℕ} (hi : i < d.commits.rows.length) :
    d.pairAt i = ids d.commits.rows[i] := by
  have hset := Sheet.isSet_row hi
  obtain ⟨pid, uid, rest, hcells⟩ := Data.commit_eq (List.getElem_mem hi)
  rw [hcells] at hset ⊢
  have hpid : (d.commits.row i).get .Integer 0 = some (.int pid) := hset.get (i := 0) (by simp)
  have huid : (d.commits.row i).get .Integer 1 = some (.int uid) := hset.get (i := 1) (by simp)
  rw [Data.pairAt, pair, Row.getIdx, Row.getIdx, Row.getInt, Row.getInt, hpid, huid]
  rfl

theorem Data.pair_iff {pid uid : ℕ} :
    d.Pair pid uid ↔ ∃ cells ∈ d.commits.rows, ids cells = (pid, uid) := by
  constructor
  · rintro ⟨i, hi, he⟩
    exact ⟨_, List.getElem_mem hi, (Data.pairAt_eq hi).symm.trans he⟩
  · rintro ⟨cells, hmem, he⟩
    obtain ⟨i, hi, rfl⟩ := List.mem_iff_getElem.mp hmem
    exact ⟨i, hi, (Data.pairAt_eq hi).trans he⟩

theorem pair_withoutDangling :
    d.withoutDangling.Pair = Stage.Known d.Pair (known d .projects) (known d .users) := by
  funext pid uid
  refine propext ?_
  rw [Data.pair_iff]
  constructor
  · rintro ⟨cells, hmem, he⟩
    obtain ⟨hmem, hk⟩ := List.mem_filter.mp hmem
    rw [isKnown, he, Bool.and_eq_true, decide_eq_true_iff, decide_eq_true_iff] at hk
    exact ⟨Data.pair_iff.mpr ⟨cells, hmem, he⟩, hk.1, hk.2⟩
  · rintro ⟨hpair, hp, hu⟩
    obtain ⟨cells, hmem, he⟩ := Data.pair_iff.mp hpair
    refine ⟨cells, List.mem_filter.mpr ⟨hmem, ?_⟩, he⟩
    rw [isKnown, he, Bool.and_eq_true, decide_eq_true_iff, decide_eq_true_iff]
    exact ⟨hp, hu⟩

theorem sets_withoutDangling (linus : Int32) (s : ℕ) : sets d.withoutDangling linus s =
    Stage.stage (Stage.Known d.Pair (known d .projects) (known d .users)) (known d .projects)
      (known d .users) (sizeOfInt linus).toNat s := by
  rw [sets, pair_withoutDangling]
  rfl

section Ignored

variable (cfg : Config)

/-- Dangling commits are ignored: in a run without them the sets after every stage are
the same. -/
def IgnoresDangling : Prop :=
  ∀ ms sys ms' sys' s, run cfg ms = some sys → run cfg.withoutDangling ms' = some sys' →
    (sys.nodes 0).pc = .start s → (sys'.nodes 0).pc = .start s →
      (sys.nodes 0).uSet = (sys'.nodes 0).uSet ∧ (sys.nodes 0).pSet = (sys'.nodes 0).pSet

/-- Dangling commits add nothing in stage `0`: a project with a commit by an unknown user
has one by user `LINUS` too, and so has a project of each user with a commit to an unknown
project. -/
abbrev Harmless : Prop :=
  Stage.Harmless cfg.data.Pair (known cfg.data .projects) (known cfg.data .users)
    (sizeOfInt cfg.linus).toNat

end Ignored

/-- **Dangling commits are ignored exactly when they add nothing in stage `0`**, or a set is
so large that no stage comes to its end. -/
theorem ignoresDangling_iff (cfg : Config) (hn : cfg.args.numNodes = 1) (hb : cfg.args.blockSize ≠ 0)
    (hd : cfg.degrees ≠ 0) : IgnoresDangling cfg ↔ Harmless cfg ∨
      2 ^ 31 ≤ cfg.data.projects.rows.length ∨ 2 ^ 31 ≤ cfg.data.users.rows.length := by
  have hn0 : cfg.args.numNodes ≠ 0 := by
    rw [hn]
    decide
  constructor
  · intro h
    by_cases hp : 2 ^ 31 ≤ cfg.data.projects.rows.length
    · exact Or.inr (Or.inl hp)
    by_cases hu : 2 ^ 31 ≤ cfg.data.users.rows.length
    · exact Or.inr (Or.inr hu)
    left
    have hlt := fun _ : 1 ≠ 0 => And.intro (Nat.not_le.mp hp) (Nat.not_le.mp hu)
    obtain ⟨ms, sys, hrun, hpc, -⟩ := exists_alone cfg hn hb (Nat.one_le_iff_ne_zero.mpr hd) hlt
    obtain ⟨ms', sys', hrun', hpc', -⟩ := exists_alone cfg.withoutDangling hn hb
      (Nat.one_le_iff_ne_zero.mpr hd) hlt
    obtain ⟨huSet, hpSet⟩ := h ms sys ms' sys' 1 hrun hrun' hpc hpc'
    obtain ⟨hfst, hsnd, -⟩ := sets_of_start cfg hn0 hb hrun hpc
    obtain ⟨hfst', hsnd', -⟩ := sets_of_start cfg.withoutDangling hn0 hb hrun' hpc'
    rw [hpSet, hfst'] at hfst
    rw [huSet, hsnd'] at hsnd
    refine Stage.harmless_of_stage_one ?_ ?_
    · exact hfst.symm.trans (congrArg Stage.fst (sets_withoutDangling _ 1))
    · exact hsnd.symm.trans (congrArg Stage.snd (sets_withoutDangling _ 1))
  · rintro h ms sys ms' sys' s hrun hrun' hpc hpc'
    obtain ⟨hfst, hsnd, -, hlt⟩ := sets_of_start cfg hn0 hb hrun hpc
    obtain ⟨hfst', hsnd', -⟩ := sets_of_start cfg.withoutDangling hn0 hb hrun' hpc'
    have hnd := (inv_run cfg hn0 hb hrun).nodes 0
    have hnd' := (inv_run cfg.withoutDangling hn0 hb hrun').nodes 0
    have hsets : (sets cfg.data cfg.linus s).fst = (sets cfg.data.withoutDangling cfg.linus s).fst ∧
        (sets cfg.data cfg.linus s).snd = (sets cfg.data.withoutDangling cfg.linus s).snd := by
      rw [sets_withoutDangling]
      rcases h with h | h
      · exact Stage.stage_known h s
      · -- no stage has come to its end
        have hs : s = 0 := by
          by_contra hs
          obtain ⟨hp, hu⟩ := hlt hs
          exact h.elim (Nat.not_le.mpr hp) (Nat.not_le.mpr hu)
        rw [hs]
        exact ⟨rfl, rfl⟩
    exact ⟨BitSet.ext_tagged (hnd.uSize.trans hnd'.uSize.symm)
        (hsnd.trans (hsets.2.trans hsnd'.symm)),
      BitSet.ext_tagged (hnd.pSize.trans hnd'.pSize.symm)
        (hfst.trans (hsets.1.trans hfst'.symm))⟩

/-- The chain, with no dangling commit. -/
theorem ignoresDangling_iff_chain : IgnoresDangling chainConfig := by
  refine (ignoresDangling_iff chainConfig rfl (by decide) (by decide)).mpr (Or.inl ⟨?_, ?_⟩)
  · intro pid _ uid huid hpair
    exact absurd (chain_known pid uid hpair).2 huid
  · intro uid _ pid hpid hpair
    exact absurd (chain_known pid uid hpair).1 hpid

/-- One project, and a commit to it by user `999` of four. -/
def danglingConfig : Config where
  args := ⟨1, 2⟩
  data := {
    projects := oneId
    users := ⟨[.Integer], [[.int 0], [.int 1], [.int 2], [.int 3]], by decide, by decide⟩
    commits := ⟨[.Integer, .Integer], [[.int 0, .int 999]], by decide, by decide⟩
    pid := pid_type
    uid := uid_type }

/-- **A dangling commit that is not ignored**: it tags its project. -/
theorem dangling_tags : ¬ IgnoresDangling danglingConfig := by
  intro h
  have hrun : (do
      let sys ← run danglingConfig [(0, 9), (0, 9), (0, 9)]
      let sys' ← run danglingConfig.withoutDangling [(0, 9), (0, 9), (0, 9)]
      pure (decide ((sys.nodes 0).pc = .start 1 ∧ (sys'.nodes 0).pc = .start 1 ∧
        (sys.nodes 0).pSet ≠ (sys'.nodes 0).pSet))) = some true := by decide +kernel
  obtain ⟨sys, hrun₁, hend⟩ := Option.bind_eq_some_iff.mp hrun
  obtain ⟨sys', hrun₂, hend⟩ := Option.bind_eq_some_iff.mp hend
  obtain ⟨hpc, hpc', hne⟩ := of_decide_eq_true (Option.some.inj hend)
  exact hne (h _ sys _ sys' 1 hrun₁ hrun₂ hpc hpc').2

end Dangling

end Linus

end Eau2
