import Eau2.Dataframe.LocalMap
import Eau2.Utils.Arguments

/-!
# Divisors

The blocks of a column are counted in `args.blockSize` and dealt out over
`args.numNodes`, and nothing checks these two before a division.

* `get_of_zero`, `addAll_of_zero`, `localMapLoop_of_zero`: what the functions do on a zero.
* `DividingCall.divides_iff`: a call goes well exactly when it has nothing to divide, or
  neither number is zero.
* `main_ne_nil`: the command lines on which `entry.cpp` runs a node.
* `calls_divide_iff`: **when the calls of these nodes divide by no zero.**
-/

namespace Eau2

/-- What the dataframes read of the arguments. -/
def Arguments.args (a : Arguments) : Args := ⟨a.numNodes, a.blockSize⟩

section

variable {args : Args}

/-! ### What a zero does -/

theorem genKey_isSome {baseKey : Key} {blockNum colIdx : Nat} :
    (Column.genKey_ args baseKey blockNum colIdx).isSome ↔ args.numNodes ≠ 0 := by
  constructor
  · intro h hz
    rw [Column.genKey_, Key.joinPieces_eq, Option.bind_eq_bind, Option.bind_some,
      dif_neg (fun hn => hn.2 hz)] at h
    cases h
  · intro hn
    rw [Column.genKey_eq hn]
    rfl

theorem genKey_of_zero (hn : args.numNodes = 0) (baseKey : Key) (blockNum colIdx : Nat) :
    Column.genKey_ args baseKey blockNum colIdx = none :=
  Option.not_isSome_iff_eq_none.mp fun h => genKey_isSome.mp h hn

theorem get_of_zero (hz : args.blockSize = 0 ∨ args.numNodes = 0) {store : Store} {t : DataType}
    {idx colIdx : Nat} {col : Column} (ht : col.type = t) :
    Column.get args store t idx colIdx col = none := by
  rw [Column.get, if_neg (not_not.mpr ht)]
  rcases hz with hb | hn
  · exact if_pos hb
  · rw [genKey_of_zero hn, Option.bind_eq_bind, Option.bind_none]
    exact ite_self _

theorem addLoop_of_zero (hz : args.blockSize = 0 ∨ args.numNodes = 0) {vals : List Cell}
    {before colIdx : Nat} (fuel : Nat) {lenAdded : Nat} (hlt : lenAdded < vals.length)
    (block : Block) (col : Column) :
    Column.addLoop args vals before colIdx fuel lenAdded block col = none := by
  rcases hz with hb | hn
  · induction fuel generalizing block col with
    | zero => rfl
    | succ fuel ih =>
      rw [Column.addLoop, if_pos hlt, hb]
      simp only [UInt64.toNat_zero, Nat.min_zero, Nat.add_zero, ih, Option.bind_eq_bind,
        Option.bind_none, Option.bind_fun_none]
  · -- the first block has no node to live on
    cases fuel with
    | zero => rfl
    | succ fuel =>
      rw [Column.addLoop, if_pos hlt]
      simp only [Column.addBlockToStore_, genKey_of_zero hn, Option.bind_eq_bind,
        Option.bind_none]

theorem addAll_of_zero (hz : args.blockSize = 0 ∨ args.numNodes = 0) {t : DataType}
    {vals : List Cell} {colIdx : Nat} {col : Column} (hv : vals ≠ []) :
    Column.addAll args t vals colIdx col = none := by
  have hloop : Column.addLoop args vals col.blocks.length colIdx (vals.length + 1) 0
      (Block.new args t) col = none :=
    addLoop_of_zero hz (vals.length + 1) (List.length_pos_iff.mpr hv) (Block.new args t) col
  rw [Column.addAll, hloop]
  exact ite_self _

theorem localMapLoop_of_zero {ρ : Type} (hz : args.blockSize = 0 ∨ args.numNodes = 0)
    {store : Store} {storeId : SizeT} {row : Row} {rd : Reader ρ} (fuel : Nat)
    {rowIdx : SizeT} {p : ρ × DataFrame} (hlt : rowIdx < p.2.nrows) :
    DataFrame.localMapLoop args store storeId row rd fuel rowIdx p = none := by
  cases fuel with
  | zero => rfl
  | succ fuel => rw [DataFrame.localMapLoop, if_pos hlt, if_pos hz]

end

/-! ### Calls that divide -/

/-- A call of the functions that divide by `args.blockSize` or `args.numNodes`; `genKey_` is
called by the first two. -/
inductive DividingCall
  | addAll (t : DataType) (vals : List Cell) (colIdx : Nat) (col : Column)
  /-- `get_int`, `get_bool`, `get_double` or `get_string`. -/
  | get (t : DataType) (idx colIdx : Nat) (col : Column)
  | localMap (df : DataFrame)

namespace DividingCall

variable {args : Args}

/-- Every division and modulo of the call is by a number other than zero, each block gets its
key, and the loop of `add_all` comes to an end.  On a column of another type `add_all` and
`get_string` exit, and the others return, before they divide. -/
def Divides (args : Args) : DividingCall → Prop
  | .addAll t vals colIdx col => col.type = t → (Column.addAll args t vals colIdx col).isSome
  | .get t idx colIdx col => col.type = t → args.blockSize ≠ 0 ∧
      (Column.genKey_ args col.baseKey (idx / args.blockSize.toNat) colIdx).isSome
  | .localMap df => 0 < df.nrows → args.blockSize ≠ 0 ∧ args.numNodes ≠ 0

/-- The call comes to a division. -/
def Reaches : DividingCall → Prop
  | .addAll t vals _ col => col.type = t ∧ vals ≠ []
  | .get t _ _ col => col.type = t
  | .localMap df => 0 < df.nrows

theorem addAll_isSome (t : DataType) (vals : List Cell) (colIdx : Nat) {col : Column}
    (ht : col.type = t) : (Column.addAll args t vals colIdx col).isSome ↔
      (vals ≠ [] → args.blockSize ≠ 0 ∧ args.numNodes ≠ 0) := by
  constructor
  · intro h hv
    by_contra hz
    rw [addAll_of_zero (by tauto) hv] at h
    cases h
  · intro hne
    by_cases hv : vals = []
    · rw [Column.addAll, if_pos ht, hv]
      rfl
    · obtain ⟨hb, hn⟩ := hne hv
      have hloop := Column.addLoop_spec hn hb t vals col.blocks.length colIdx (j := 0) col
        (show vals.length - 0 * args.blockSize.toNat < vals.length + 1 by omega)
      rw [Nat.zero_mul, Nat.zero_min] at hloop
      rw [Column.addAll, if_pos ht, hloop]
      rfl

/-- **A call goes well exactly when it has nothing to divide, or neither number is zero.** -/
theorem divides_iff (c : DividingCall) :
    c.Divides args ↔ (c.Reaches → args.blockSize ≠ 0 ∧ args.numNodes ≠ 0) := by
  cases c with
  | addAll t vals colIdx col =>
    rw [Divides, Reaches, and_imp]
    exact forall_congr' fun ht => addAll_isSome t vals colIdx ht
  | get t idx colIdx col =>
    rw [Divides, Reaches, genKey_isSome]
  | localMap df => exact Iff.rfl

end DividingCall

namespace Arguments

/-! ### The nodes that run (`entry.cpp`) -/

def demoLMApp : Str := text ['d', 'e', 'm', 'o', 'L', 'M']

def applications : List Str :=
  [text ['t', 'r', 'i', 'v', 'i', 'a', 'l'], text ['d', 'e', 'm', 'o'], demoLMApp,
    text ['w', 'o', 'r', 'd', 'c', 'o', 'u', 'n', 't'], text ['l', 'i', 'n', 'u', 's']]

/-- Whether `initializeApplication` returns: `strcmp` crashes without a name, and an unknown
one exits. -/
def initializeApplication (a : Arguments) : Bool := a.appName.any (· ∈ applications)

/-- The nodes of `runPseudo`; a name that is no application's stops it at the first. -/
def runPseudo (a : Arguments) : List Nat :=
  if a.initializeApplication then List.range a.numNodes.toNat else []

/-- Whether `Network()` gets past the addresses: `inet_pton` and `String` take no null. -/
def hasAddresses (a : Arguments) : Bool := a.ip.isSome && a.serverIp.isSome

/-- The arguments of a run and the nodes that get to run their application.  `up` is the
machine's part: the memory of the arrays, and without `-pseudo` the sockets, addresses that
are valid, and the other nodes. -/
def main (up : Bool) (argv : List Str) : Option (Arguments × List Nat) := do
  let a ← parse new argv
  if !up then pure (a, [])
  else if a.usePseudoNet then pure (a, a.runPseudo)
  else if a.hasAddresses && a.initializeApplication then pure (a, [a.index.toNat])
  else pure (a, [])

/-- What a command line and the machine need for a node to run. -/
structure Runs (up : Bool) (argv : List Str) : Prop where
  up : up = true
  app : ∃ name ∈ applications, lastValue appFlag argv = some name
  numNodes : usesPseudo argv = true → NoZero numNodesFlag argv
  addresses : usesPseudo argv = false →
    (lastValue ipFlag argv).isSome ∧ (lastValue serverIpFlag argv).isSome

theorem initializeApplication_iff {argv : List Str} {a : Arguments}
    (h : parse new argv = some a) :
    a.initializeApplication = true ↔ ∃ name ∈ applications, lastValue appFlag argv = some name := by
  rw [initializeApplication, parse_text setBy_appName rfl h, Option.any_eq_true]
  simp only [decide_eq_true_eq]
  constructor
  · rintro ⟨name, hlast, hmem⟩
    exact ⟨name, hmem, hlast⟩
  · rintro ⟨name, hmem, hlast⟩
    exact ⟨name, hlast, hmem⟩

theorem hasAddresses_iff {argv : List Str} {a : Arguments} (h : parse new argv = some a) :
    a.hasAddresses = true ↔
      (lastValue ipFlag argv).isSome ∧ (lastValue serverIpFlag argv).isSome := by
  rw [hasAddresses, parse_text setBy_ip rfl h, parse_text setBy_serverIp rfl h, Bool.and_eq_true]

theorem runPseudo_ne_nil (a : Arguments) :
    a.runPseudo ≠ [] ↔ a.initializeApplication = true ∧ a.numNodes ≠ 0 := by
  unfold runPseudo
  split
  · rename_i happ
    have hzero : a.numNodes.toNat = 0 ↔ a.numNodes = 0 := by
      rw [← UInt64.toNat_inj]
      rfl
    rw [ne_eq, List.range_eq_nil, hzero]
    exact (and_iff_right happ).symm
  · rename_i happ
    exact iff_of_false (not_not.mpr rfl) (fun h => happ h.1)

/-- **A node runs exactly on a command line of `Runs`.** -/
theorem main_ne_nil {up : Bool} {argv : List Str} {a : Arguments} {nodes : List Nat}
    (h : main up argv = some (a, nodes)) :
    parse new argv = some a ∧ (nodes ≠ [] ↔ Runs up argv) := by
  obtain ⟨a', hp, h⟩ := Option.bind_eq_some_iff.mp h
  have happ := initializeApplication_iff hp
  have haddr := hasAddresses_iff hp
  have hnum := parse_ne_zero setBy_numNodes (by decide) hp
  have hpseudo : a'.usePseudoNet = usesPseudo argv := parse_usePseudoNet hp
  split at h
  · rename_i hdown
    cases h
    exact ⟨hp, iff_of_false (not_not.mpr rfl) fun hr => by simp [hr.up] at hdown⟩
  · rename_i hup
    have hup : up = true := by simpa using hup
    split at h
    · rename_i hu
      cases h
      rw [runPseudo_ne_nil, happ, hnum]
      rw [hu] at hpseudo
      refine ⟨hp, fun hr => ⟨hup, hr.1, fun _ => hr.2, fun hn => ?_⟩,
        fun hr => ⟨hr.app, hr.numNodes hpseudo.symm⟩⟩
      rw [hn] at hpseudo
      cases hpseudo
    · rename_i hu
      rw [Bool.not_eq_true] at hu
      rw [hu] at hpseudo
      have hno : usesPseudo argv ≠ true := by
        rw [← hpseudo]
        exact Bool.false_ne_true
      split at h
      · rename_i hb
        cases h
        rw [Bool.and_eq_true, haddr, happ] at hb
        refine ⟨hp, iff_of_true (List.cons_ne_nil _ _) ?_⟩
        exact ⟨hup, hb.2, fun hn => absurd hn hno, fun _ => hb.1⟩
      · rename_i hb
        cases h
        rw [Bool.and_eq_true, haddr, happ] at hb
        refine ⟨hp, iff_of_false (not_not.mpr rfl) fun hr => ?_⟩
        exact hb ⟨hr.addresses hpseudo.symm, hr.app⟩

/-- **When the nodes of a command line divide by no zero**, in whatever calls their
applications come to: where none of them runs, or none of the calls comes to a division, or
neither number is given as zero. -/
theorem calls_divide_iff {up : Bool} {argv : List Str} {a : Arguments} {nodes : List Nat}
    (h : main up argv = some (a, nodes)) (calls : List DividingCall) :
    (nodes ≠ [] → ∀ c ∈ calls, c.Divides a.args) ↔
      (Runs up argv → (∃ c ∈ calls, c.Reaches) →
        NoZero blockSizeFlag argv ∧ NoZero numNodesFlag argv) := by
  obtain ⟨hp, hruns⟩ := main_ne_nil h
  rw [← parse_ne_zero setBy_blockSize (by decide) hp,
    ← parse_ne_zero setBy_numNodes (by decide) hp, ← hruns]
  refine forall_congr' fun _ => ?_
  constructor
  · rintro hd ⟨c, hc, hreaches⟩
    exact (DividingCall.divides_iff c).mp (hd c hc) hreaches
  · intro hne c hc
    exact (DividingCall.divides_iff c).mpr fun hreaches => hne ⟨c, hc, hreaches⟩

/-- The column `main-0` of integers that has no elements yet. -/
def mainColumn : Column := .new ⟨⟨[109, 97, 105, 110, 45, 48], by decide⟩, 0⟩ .Integer

/-- The first call of `DemoLocalMap::leader`. -/
def leaderCall : DividingCall :=
  .addAll .Integer ((List.range 25000).map fun i => .int (Int32.ofNat i)) 0 mainColumn

/-- `-app demoLM -pseudo -blockSize 07 -num_nodes 3`. -/
theorem calls_divide_iff_seven :
    ∃ a : Arguments, main true [appFlag, demoLMApp, pseudoFlag, blockSizeFlag, text ['0', '7'],
      numNodesFlag, text ['3']] = some (a, [0, 1, 2]) ∧ leaderCall.Divides a.args := by
  have h : main true [appFlag, demoLMApp, pseudoFlag, blockSizeFlag, text ['0', '7'],
      numNodesFlag, text ['3']] =
    some ({ new with
      appName := some demoLMApp, usePseudoNet := true, blockSize := 7, numNodes := 3 },
      [0, 1, 2]) := by decide +kernel
  refine ⟨_, h, (calls_divide_iff h [leaderCall]).mpr (fun _ _ => ⟨?_, ?_⟩) (List.cons_ne_nil _ _)
    leaderCall List.mem_cons_self⟩
  · decide +kernel
  · decide +kernel

/-- `-app demoLM -pseudo -blockSize 0` is accepted, and node 0 runs its `leader`. -/
theorem divides_by_zero : ¬ ∀ (up : Bool) (argv : List Str) (a : Arguments) (nodes : List Nat)
    (calls : List DividingCall), main up argv = some (a, nodes) → nodes ≠ [] →
      ∀ c ∈ calls, c.Divides a.args := by
  intro h
  have hd := h true [appFlag, demoLMApp, pseudoFlag, blockSizeFlag, text ['0']]
    { new with appName := some demoLMApp, usePseudoNet := true, blockSize := 0 } [0]
    [leaderCall] (by decide +kernel) (List.cons_ne_nil _ _) leaderCall List.mem_cons_self
  have hvals : ((List.range 25000).map fun i => Cell.int (Int32.ofNat i)) ≠ [] := by
    rw [ne_eq, List.map_eq_nil_iff, List.range_eq_nil]
    decide
  exact ((DividingCall.divides_iff leaderCall).mp hd ⟨rfl, hvals⟩).1 rfl

end Arguments

end Eau2
