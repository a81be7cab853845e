import Eau2.Base.Schedule
import Eau2.Linus.BitSet

/-!
# The nodes of the Linus application

`application/linus.h`, after `readInput`.  The nodes run `step` for each stage, with the
waits of `waitAndGet` as the points where they are interleaved; `waitAndGet` returns what
was stored under a key, and the dataframes are sheets.  A `merge` of node `0` gathers the
other nodes' sets one by one and stores the union; any other node stores its own and
waits for the union.

The commits' first two columns are integers, as the source says of them: pid x uid x uid.
-/

namespace Eau2

namespace Linus

structure Data where
  projects : Sheet
  users : Sheet
  commits : Sheet
  pid : commits.types[0]? = some .Integer
  uid : commits.types[1]? = some .Integer

structure Config where
  args : Args
  data : Data
  /-- `DEGREES` -/
  degrees : Nat := 4
  /-- `LINUS` -/
  linus : Int32 := 3

/-- What is merged: `ptagger.newProjects` or `utagger.newUsers`. -/
inductive Kind
  | projects | users
  deriving DecidableEq, Repr

def Kind.name : Kind → Str
  | .projects => [112, 114, 111, 106, 101, 99, 116, 115, 45]
  | .users => [117, 115, 101, 114, 115, 45]

/-- The stage in the keys of a merge in `step(stage)`. -/
def Kind.keyStage : Kind → Nat → Nat
  | .projects, stage => stage
  | .users, stage => stage + 1

/-- `{name}{stage}-{i}` -/
def deltaKey (name : Kind) (stage : Nat) (i : SizeT) : Key :=
  ⟨Key.glue [name.name, Bytes.decimal stage, [Key.dash], Bytes.decimal i.toNat], 0⟩

/-- `{name}{stage}-0` -/
def mergedKey (name : Kind) (stage : Nat) : Key :=
  ⟨Key.glue [name.name, Bytes.decimal stage, [Key.dash, 48]], 0⟩

/-- Where a node stands: before the wait of `step`, or in the loop or at the wait of a
`merge` of the set it carries. -/
inductive Pc
  | start (stage : Nat)
  | gather (name : Kind) (stage : Nat) (i : SizeT) (set : BitSet)
  | await (name : Kind) (stage : Nat) (set : BitSet)
  deriving DecidableEq

structure Node where
  uSet : BitSet
  pSet : BitSet
  pc : Pc

structure System where
  nodes : SizeT → Node
  store : Sheets

/-- `merge(set, name, ·)` up to its first wait. -/
def enterMerge (fuel : Nat) (idx : SizeT) (name : Kind) (stage : Nat) (set : BitSet)
    (nd : Node) (store : Sheets) : Option (Node × Sheets) :=
  if idx = 0 then some ({ nd with pc := .gather name stage 1 set }, store)
  else do
    let delta ← Sheet.fromVisitor [.Integer] (setWriter set) fuel 0
    pure ({ nd with pc := .await name stage set },
      Function.update store (deltaKey name (name.keyStage stage) idx) (some delta))

/-- `step` after the `merge` of `set`, up to the next wait. -/
def leaveMerge (cfg : Config) (fuel : Nat) (idx : SizeT) (name : Kind) (stage : Nat)
    (set : BitSet) (nd : Node) (store : Sheets) : Option (Node × Sheets) :=
  match name with
  | .projects => do
    let pSet := nd.pSet.union_ set
    let (uSet, newUsers) ← cfg.data.commits.localMap cfg.args idx fuel (usersTagger set)
      (nd.uSet, BitSet.new cfg.data.users.rows.length)
    enterMerge fuel idx .users stage newUsers { nd with uSet := uSet, pSet := pSet } store
  | .users => pure ({ nd with uSet := nd.uSet.union_ set, pc := .start (stage + 1) }, store)

def stepNode (cfg : Config) (fuel : Nat) (idx : SizeT) (nd : Node) (store : Sheets) :
    Option (Node × Sheets) :=
  match nd.pc with
  | .start stage =>
    if stage < cfg.degrees then do
      let newUsers ← store (mergedKey .users stage)
      let delta ← newUsers.map setUpdater (BitSet.new cfg.data.users.rows.length)
      let (pSet, newProjects) ← cfg.data.commits.localMap cfg.args idx fuel
        (projectsTagger delta) (nd.pSet, BitSet.new cfg.data.projects.rows.length)
      enterMerge fuel idx .projects stage newProjects { nd with pSet := pSet } store
    else none
  | .gather name stage i set =>
    if i < cfg.args.numNodes then do
      let delta ← store (deltaKey name (name.keyStage stage) i)
      let set ← delta.map setUpdater set
      pure ({ nd with pc := .gather name stage (i + 1) set }, store)
    else do
      let merged ← Sheet.fromVisitor [.Integer] (setWriter set) fuel 0
      leaveMerge cfg fuel idx name stage set nd
        (Function.update store (mergedKey name (name.keyStage stage)) (some merged))
  | .await name stage set => do
    let merged ← store (mergedKey name (name.keyStage stage))
    let set ← merged.map setUpdater set
    leaveMerge cfg fuel idx name stage set nd store

/-- A node that moves, and how far its loops are followed. -/
abbrev Move := SizeT × Nat

def step (cfg : Config) (sys : System) (m : Move) : Option System :=
  if m.1 < cfg.args.numNodes then do
    let (nd, store) ← stepNode cfg m.2 m.1 (sys.nodes m.1) sys.store
    pure ⟨Function.update sys.nodes m.1 nd, store⟩
  else none

/-- The dataframe of `fromInt(LINUS)`. -/
def linusSheet (linus : Int32) : Sheet where
  types := [.Integer]
  rows := [[.int linus]]
  typed cells h := by
    rw [List.mem_singleton.mp h]
    rfl
  fits := by
    show 1 < 2 ^ 64
    decide

def init (cfg : Config) : System where
  nodes _ := ⟨BitSet.new cfg.data.users.rows.length, BitSet.new cfg.data.projects.rows.length,
    .start 0⟩
  store := Function.update (fun _ => none) (mergedKey .users 0) (some (linusSheet cfg.linus))

theorem init_store (cfg : Config) : (init cfg).store =
    Function.update (fun _ => none) (mergedKey .users 0) (some (linusSheet cfg.linus)) := rfl

def run (cfg : Config) (ms : List Move) : Option System := Schedule.run (step cfg) (init cfg) ms

/-! ### Keys -/

def Kind.word : Kind → Str
  | .projects => [112, 114, 111, 106, 101, 99, 116, 115]
  | .users => [117, 115, 101, 114, 115]

theorem Kind.cstr_name (name : Kind) : Bytes.cstr name.name = name.word ++ [Key.dash] := by
  cases name <;> rfl

theorem deltaKey_kStr (name : Kind) (stage : Nat) (i : SizeT) :
    (deltaKey name stage i).kStr.val =
      (name.word ++ Key.dash :: Bytes.decimal stage) ++ Key.dash :: Bytes.decimal i.toNat := by
  show List.flatMap Bytes.cstr _ = _
  simp only [List.flatMap_cons, List.flatMap_nil, Bytes.cstr_of_nulFree (Bytes.decimal_nulFree _),
    Kind.cstr_name, List.append_nil, List.append_assoc]
  rfl

/-- **Every set is stored under a key of its own.** -/
theorem deltaKey_inj {name name' : Kind} {stage stage' : Nat} {i i' : SizeT}
    (h : deltaKey name stage i = deltaKey name' stage' i') :
    name = name' ∧ stage = stage' ∧ i = i' := by
  have hs : (deltaKey name stage i).kStr.val = (deltaKey name' stage' i').kStr.val := by rw [h]
  rw [deltaKey_kStr, deltaKey_kStr] at hs
  obtain ⟨hs, hi⟩ := Bytes.append_sep_inj (Column.dash_not_mem_decimal i.toNat)
    (Column.dash_not_mem_decimal i'.toNat) hs
  obtain ⟨hword, hstage⟩ := Bytes.append_sep_inj (Column.dash_not_mem_decimal stage)
    (Column.dash_not_mem_decimal stage') hs
  refine ⟨?_, Bytes.decimal_inj hstage, UInt64.toNat_inj.mp (Bytes.decimal_inj hi)⟩
  cases name <;> cases name'
  · rfl
  · cases hword
  · cases hword
  · rfl

/-! ### The rows of a node -/

section Rows

variable (d : Data)

def Data.pairAt (i : Nat) : Nat × Nat := (pair (d.commits.row i)).getD (0, 0)

def Data.LocalPair (args : Args) (idx : SizeT) (pid uid : Nat) : Prop :=
  ∃ i, i < d.commits.rows.length ∧ DataFrame.IsLocal args idx i ∧ d.pairAt i = (pid, uid)

def Data.Pair (pid uid : Nat) : Prop :=
  ∃ i, i < d.commits.rows.length ∧ d.pairAt i = (pid, uid)

variable {d}

theorem Data.pair_row {i : Nat} (hi : i < d.commits.rows.length) :
    pair (d.commits.row i) = some (d.pairAt i) := by
  have hset := Sheet.isSet_row hi
  have htypes : (d.commits.row i).scm.types = d.commits.types := by
    rw [Sheet.row, DataFrame.scm_rowAt]
    rfl
  obtain ⟨pid, hpid⟩ := hset.getIdx (by rw [htypes]; exact d.pid)
  obtain ⟨uid, huid⟩ := hset.getIdx (by rw [htypes]; exact d.uid)
  have hpair : pair (d.commits.row i) = some (pid, uid) := by
    rw [pair, hpid, huid]
    rfl
  rw [Data.pairAt, hpair]
  rfl

/-- **What `local_map` runs a tagger on are the pairs of the node.** -/
theorem Data.localMap_eq {args : Args} (hb : args.blockSize ≠ 0) {idx : SizeT} {fuel : Nat}
    {frontier : BitSet} {pick : Nat → Nat → Nat × Nat} {st st' : BitSet × BitSet}
    (h : d.commits.localMap args idx fuel (tagger frontier pick) st = some st') :
    ∃ ps : List (Nat × Nat), (∀ p, p ∈ ps ↔ d.LocalPair args idx p.1 p.2) ∧
      st' = ps.foldl (tagPair frontier pick) st := by
  obtain ⟨is, his, h⟩ := Option.bind_eq_some_iff.mp h
  obtain ⟨hsub, hsup⟩ := DataFrame.mem_localIdxs hb his
  rw [Sheet.toNat_nrows] at hsub hsup
  have hpairs : (is.map d.commits.row).mapM pair = some (is.map d.pairAt) := by
    rw [mapM_eq_some_iff, List.forall₂_map_left_iff, List.forall₂_map_right_iff,
      List.forall₂_same]
    exact fun i hi => Data.pair_row (hsub i hi).1
  rw [foldlM_tagger, hpairs] at h
  cases h
  refine ⟨is.map d.pairAt, fun p => ?_, rfl⟩
  rw [List.mem_map]
  constructor
  · rintro ⟨i, hi, rfl⟩
    exact ⟨i, (hsub i hi).1, (hsub i hi).2, rfl⟩
  · rintro ⟨i, hi, hloc, he⟩
    exact ⟨i, hsup (Or.inr (Nat.zero_mod _)) i (Nat.zero_le i) hi hloc, he⟩

end Rows

end Linus

end Eau2
