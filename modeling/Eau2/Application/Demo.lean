import Eau2.Dataframe.Stored

/-!
# The demo

`application/demo.h`: node `0` stores an array and its sum, node `1` adds up the array it
gets and stores that sum, node `2` compares the two.  The other nodes do nothing.  The
arithmetic of `double` is a parameter; what it is does not matter, since both nodes add the
same numbers in the same order.

* `alone`: the three programs one after another.
* `summarizer_succeeds`: **in every run the comparison succeeds, unless the sum is not a
  number.**
* `demo_finishes`: **in a fair and orderly run it is made.**
-/

namespace Eau2

namespace Demo

open Pseudo DataToDf

/-- The conversion of a `size_t` to `double`, and `+`; a `double` is its bits. -/
structure Doubles where
  ofSize : Nat → UInt64
  add : UInt64 → UInt64 → UInt64

/-- All bits of the exponent are set, and one of the fraction. -/
def isNaN (x : UInt64) : Bool := decide ((0xFFE0000000000000 : UInt64) < x <<< 1)

/-- `==` on `double`s: the two zeros are equal, and a NaN to nothing. -/
def eq (x y : UInt64) : Bool := !isNaN x && !isNaN y && (x == y || (x <<< 1 == 0 && y <<< 1 == 0))

theorem eq_self (x : UInt64) : eq x x = !isNaN x := by
  rw [eq, beq_self_eq_true, Bool.true_or, Bool.and_true, Bool.and_self]

def main : Key := ⟨⟨[109, 97, 105, 110], by decide⟩, 0⟩
def verify : Key := ⟨⟨[118, 101, 114, 105, 102], by decide⟩, 0⟩
def check : Key := ⟨⟨[99, 107], by decide⟩, 0⟩

def SZ : Nat := 100 * 1000

/-- What a node prints, but for the notes that it has started and finished. -/
inductive Line
  | nothing
  | theSumIs (sum : UInt64)
  /-- `SUCCESS` or `FAILURE`. -/
  | verdict (success : Bool)
  deriving DecidableEq

section Programs

variable (args : Args) (d : Doubles)

def vals : List UInt64 := (List.range SZ).map d.ofSize

def sum (xs : List UInt64) : UInt64 := xs.foldl d.add 0

def producer : Calls Line := do
  let _ ← Calls.fromArray args main (.doubles (vals d))
  let _ ← Calls.fromDouble args check (sum d (vals d))
  pure .nothing

def getDouble (col row : Nat) (df : DataFrame) : Calls (UInt64 × DataFrame) := do
  let (cell, df) ← Calls.DataFrame.get args .Double col row df
  match cell with
  | .double x => pure (x, df)
  | _ => Calls.ofOption none

/-- `sum += v->get_double(0,i)`. -/
def addNext (s : UInt64 × DataFrame) (i : Nat) : Calls (UInt64 × DataFrame) := do
  let (x, v) ← getDouble args 0 i s.2
  pure (d.add s.1 x, v)

def counter : Calls Line := do
  let v ← Calls.waitAndGet main
  let (sum, _) ← (List.range (100 * 1000)).foldlM (addNext args d) (0, v)
  let _ ← Calls.fromDouble args verify sum
  pure (.theSumIs sum)

/-- The two sides of `==` may be read in either order; here it is the left one first. -/
def summarizer : Calls Line := do
  let result ← Calls.waitAndGet verify
  let expected ← Calls.waitAndGet check
  let (x, _) ← getDouble args 0 0 expected
  let (y, _) ← getDouble args 0 0 result
  pure (.verdict (eq x y))

def run_ (this_node : SizeT) : Calls Line :=
  if this_node = 0 then producer args d
  else if this_node = 1 then counter args d
  else if this_node = 2 then summarizer args
  else pure .nothing

abbrev cluster : Config := .ofApps args.numNodes fun i => (run_ args d i).run

end Programs

/-! ### What each node does -/

def doubles (xs : List UInt64) (hlen : xs.length < 2 ^ 64) : Sheet where
  types := [.Double]
  rows := (Elements.doubles xs).rows
  typed cells h := by
    obtain ⟨c, hc, rfl⟩ := List.mem_map.mp h
    rw [List.map_singleton, Elements.type_of_mem_cells hc]
    rfl
  fits := by rwa [Elements.rows, Elements.cells, List.length_map, List.length_map]

section Steps

variable {args : Args} {d : Doubles} {i : SizeT} {w : Written} {xs : List UInt64}
  {hlen : xs.length < 2 ^ 64} {df : DataFrame}

theorem runs_doubles (hn : args.numNodes ≠ 0) (hb : args.blockSize ≠ 0) (k : Key)
    (hlen : xs.length < 2 ^ 64) (hnew : ∀ k', Named args k (k.indexed 0) k' → w k' = none) :
    ∃ df w', Runs i (Calls.fromArray args k (.doubles xs)) w df w' ∧
      Holds args w' i k (doubles xs hlen) ∧ w.Le w' ∧
      ∀ k', w' k' ≠ none → w k' ≠ none ∨ Named args k (k.indexed 0) k' :=
  runs_fromArray hn hb rfl rfl hnew

theorem runs_getDouble (hn : args.numNodes ≠ 0) (hb : args.blockSize ≠ 0)
    (h : df.Shows args w.values [.Double] (doubles xs hlen).rows) {r : Nat} {x : UInt64}
    (hx : xs[r]? = some x) :
    ∃ df', Runs i (getDouble args 0 r df) w (x, df') w ∧
      df'.Shows args w.values [.Double] (doubles xs hlen).rows := by
  have hrow : (doubles xs hlen).rows[r]? = some [.double x] := by
    simp [doubles, Elements.rows, Elements.cells, hx]
  obtain ⟨-, df', hget, hshows⟩ := DataFrame.get_spec hn hb h (doubles xs hlen).typed hrow
    (c := 0) rfl
  refine ⟨df', ?_, hshows⟩
  exact ((queries_get args .Double 0 r df).runs hget).bind (runs_pure.mpr ⟨rfl, rfl⟩)

/-- **The loop of `counter` adds up what is there.** -/
theorem runs_sum (hn : args.numNodes ≠ 0) (hb : args.blockSize ≠ 0)
    (h : df.Shows args w.values [.Double] (doubles xs hlen).rows) :
    ∃ df', Runs i ((List.range xs.length).foldlM (addNext args d) (0, df)) w (sum d xs, df') w := by
  let I (r : ℕ) (p : UInt64 × DataFrame) : Prop := p.1 = sum d (xs.take r) ∧
    p.2.Shows args w.values [.Double] (doubles xs hlen).rows
  have hstep : ∀ r, 0 ≤ r → r < 0 + xs.length → ∀ p, I r p →
      ∃ p', Runs i (addNext args d p r) w p' w ∧ I (r + 1) p' := by
    rintro r - hr ⟨s, df⟩ ⟨rfl, hshows⟩
    have hlt : r < xs.length := by omega
    obtain ⟨df₁, hget, hshows₁⟩ := runs_getDouble hn hb hshows (List.getElem?_eq_getElem hlt)
    refine ⟨_, hget.bind (runs_pure.mpr ⟨rfl, rfl⟩), ?_, hshows₁⟩
    rw [← List.take_concat_get' xs r hlt, sum, sum, List.foldl_append]
    rfl
  obtain ⟨⟨s, df'⟩, hrun, hs, -⟩ := runs_foldlM_range' hstep (a := (0, df)) ⟨rfl, h⟩
  rw [Nat.zero_add, List.take_length] at hs
  rw [List.range_eq_range', ← hs]
  exact ⟨df', hrun⟩

end Steps

theorem length_vals (d : Doubles) : (vals d).length < 2 ^ 64 := by
  rw [vals, List.length_map, List.length_range]
  decide

theorem length_total (d : Doubles) : [sum d (vals d)].length < 2 ^ 64 :=
  Nat.one_lt_two_pow (by decide)

def array (d : Doubles) : Sheet := doubles (vals d) (length_vals d)
def total (d : Doubles) : Sheet := doubles [sum d (vals d)] (length_total d)

theorem not_named {args : Args} {k k₁ k' : Key} (hk : ¬ k.kStr.val <+: k₁.kStr.val)
    (hk₁ : ¬ k₁.kStr.val <+: k.kStr.val) (h : Named args k (k.indexed 0) k') :
    ¬ Named args k₁ (k₁.indexed 0) k' := by
  have hbase : ∀ k : Key, k.kStr.val <+: (k.indexed 0).kStr.val := by
    intro k
    rw [Key.indexed_kStr]
    exact List.prefix_append _ _
  exact not_named_of_not_isPrefix (hbase k) (hbase k₁) hk hk₁ h

section Alone

variable {args : Args} {d : Doubles}

theorem runs_producer (d : Doubles) (hn : args.numNodes ≠ 0) (hb : args.blockSize ≠ 0) :
    ∃ w, Runs 0 (producer args d) Written.empty .nothing w ∧ Holds args w 0 main (array d) ∧
      Holds args w 0 check (total d) ∧
      ∀ k, w k ≠ none → Named args main (main.indexed 0) k ∨
        Named args check (check.indexed 0) k := by
  obtain ⟨dfa, w₁, hrun₁, hmain, -, honly₁⟩ := runs_doubles (i := 0) (w := Written.empty) hn hb
    main (length_vals d) fun _ _ => rfl
  have hnew : ∀ k', Named args check (check.indexed 0) k' → w₁ k' = none := by
    intro k' hk'
    by_contra hne
    rcases honly₁ k' hne with h | h
    · exact h rfl
    · exact not_named (by decide) (by decide) hk' h
  obtain ⟨dfs, w₂, hrun₂, hcheck, hle, honly₂⟩ := runs_doubles (i := 0) hn hb check
    (length_total d) hnew
  refine ⟨w₂, hrun₁.bind (hrun₂.bind (runs_pure.mpr ⟨rfl, rfl⟩)), hmain.mono hle, hcheck,
    fun k hk => ?_⟩
  rcases honly₂ k hk with hk | hk
  · exact Or.inl ((honly₁ k hk).resolve_left fun h => h rfl)
  · exact Or.inr hk

theorem runs_counter (hn : args.numNodes ≠ 0) (hb : args.blockSize ≠ 0) {w : Written}
    (hmain : Holds args w 0 main (array d))
    (hnew : ∀ k', Named args verify (verify.indexed 0) k' → w k' = none) :
    ∃ w', Runs 1 (counter args d) w (.theSumIs (sum d (vals d))) w' ∧ w.Le w' ∧
      Holds args w' 1 verify (total d) := by
  obtain ⟨v, hget, hhandle⟩ := hmain.runs_waitAndGet (i := 1)
  obtain ⟨v', hloop⟩ := runs_sum hn hb hhandle.shows (i := 1) (d := d)
  have hlen : (vals d).length = 100 * 1000 := by
    rw [vals, List.length_map, List.length_range]
    rfl
  rw [hlen] at hloop
  obtain ⟨df, w', hrun, hverify, hle, -⟩ := runs_doubles (i := 1) hn hb verify
    (length_total d) hnew
  exact ⟨w', hget.bind (hloop.bind (hrun.bind (runs_pure.mpr ⟨rfl, rfl⟩))), hle, hverify⟩

theorem runs_summarizer (hn : args.numNodes ≠ 0) (hb : args.blockSize ≠ 0) {w : Written}
    (hcheck : Holds args w 0 check (total d)) (hverify : Holds args w 1 verify (total d)) :
    Runs 2 (summarizer args) w (.verdict (!isNaN (sum d (vals d)))) w := by
  obtain ⟨result, hgetV, hhandleV⟩ := hverify.runs_waitAndGet (i := 2)
  obtain ⟨expected, hgetS, hhandleS⟩ := hcheck.runs_waitAndGet (i := 2)
  obtain ⟨_, hx, -⟩ := runs_getDouble hn hb hhandleS.shows (r := 0) rfl (i := 2)
  obtain ⟨_, hy, -⟩ := runs_getDouble hn hb hhandleV.shows (r := 0) rfl (i := 2)
  rw [← eq_self]
  exact hgetV.bind (hgetS.bind (hx.bind (hy.bind (runs_pure.mpr ⟨rfl, rfl⟩))))

def lines (d : Doubles) (i : SizeT) : Line :=
  if i = 1 then .theSumIs (sum d (vals d))
  else if i = 2 then .verdict (!isNaN (sum d (vals d)))
  else .nothing

theorem ne_zero_of_three_le {n : SizeT} (hn : 3 ≤ n) : n ≠ 0 := by
  intro h
  rw [h] at hn
  exact absurd hn (by decide)

/-- What has been put when the nodes below `m` have come to their end. -/
structure Reached (args : Args) (d : Doubles) (m : ℕ) (w : Written) : Prop where
  start : m = 0 → w = Written.empty
  main : 1 ≤ m → Holds args w 0 main (array d)
  check : 1 ≤ m → Holds args w 0 check (total d)
  only : m = 1 → ∀ k, w k ≠ none → Named args Demo.main (Demo.main.indexed 0) k ∨
    Named args Demo.check (Demo.check.indexed 0) k
  verify : 2 ≤ m → Holds args w 1 verify (total d)

/-- **The programs come to their end**, one after another. -/
theorem alone (d : Doubles) (hn : 3 ≤ args.numNodes) (hb : args.blockSize ≠ 0) :
    ∃ w, Alone args.numNodes (fun i => (run_ args d i).run) (fun i => some (lines d i)) w := by
  have hn0 := ne_zero_of_three_le hn
  refine alone_of_inOrder (I := Reached args d)
    ⟨fun _ => rfl, fun h => absurd h (by decide), fun h => absurd h (by decide),
      fun h => absurd h (by decide), fun h => absurd h (by decide)⟩ fun i _ w hw => ?_
  show ∃ w', Runs i (run_ args d i) w (lines d i) w' ∧ _
  by_cases h0 : i = 0
  · subst h0
    obtain ⟨w', hrun, hmain, hcheck, honly⟩ := runs_producer d hn0 hb
    rw [hw.start rfl]
    exact ⟨w', hrun, fun h => absurd h (by decide), fun _ => hmain, fun _ => hcheck,
      fun _ => honly, fun h => absurd h (by decide)⟩
  by_cases h1 : i = 1
  · subst h1
    have hnew : ∀ k', Named args verify (verify.indexed 0) k' → w k' = none := by
      intro k' hk'
      by_contra hne
      rcases hw.only rfl k' hne with h | h
      · exact not_named (by decide) (by decide) hk' h
      · exact not_named (by decide) (by decide) hk' h
    obtain ⟨w', hrun, hle, hverify⟩ := runs_counter hn0 hb (hw.main (by decide)) hnew
    exact ⟨w', hrun, fun h => absurd h (by decide), fun _ => (hw.main (by decide)).mono hle,
      fun _ => (hw.check (by decide)).mono hle, fun h => absurd h (by decide), fun _ => hverify⟩
  have htwo : 2 ≤ i.toNat := by
    have h0' : i.toNat ≠ 0 := fun he => h0 (UInt64.toNat_inj.mp he)
    have h1' : i.toNat ≠ 1 := fun he => h1 (UInt64.toNat_inj.mp he)
    omega
  -- nothing more is put
  have hlater : Reached args d (i.toNat + 1) w := ⟨fun h => absurd h (by omega),
    fun _ => hw.main (by omega), fun _ => hw.check (by omega), fun h => absurd h (by omega),
    fun _ => hw.verify htwo⟩
  by_cases h2 : i = 2
  · subst h2
    exact ⟨w, runs_summarizer hn0 hb (hw.check (by decide)) (hw.verify htwo), hlater⟩
  · rw [run_, if_neg h0, if_neg h1, if_neg h2, lines, if_neg h1, if_neg h2]
    exact ⟨w, runs_pure.mpr ⟨rfl, rfl⟩, hlater⟩

theorem homed (d : Doubles) (hn : args.numNodes ≠ 0) (hb : args.blockSize ≠ 0) :
    Homed (cluster args d) := by
  have hzero : (0 : SizeT) < args.numNodes := UInt64.pos_iff_ne_zero.mpr hn
  have hcreate : ∀ (k : Key) (elems : Elements), k.homeNode = 0 →
      Within args.numNodes (Calls.fromArray args k elems) :=
    fun k elems hk => within_fromArray hn hb (hk ▸ hzero) elems
  have hget : ∀ k : Key, k.homeNode = 0 → Within args.numNodes (Calls.waitAndGet k) :=
    fun k hk => within_waitAndGet (hk ▸ hzero)
  have hdouble : ∀ col row df, Within args.numNodes (getDouble args col row df) := by
    intro col row df
    refine (within_get .Double col row df).bind fun p => ?_
    obtain ⟨cell, df⟩ := p
    cases cell with
    | double x => exact .pure _
    | _ => exact .ofOption _
  have hnext : ∀ s r, Within args.numNodes (addNext args d s r) :=
    fun s r => (hdouble 0 r s.2).bind fun _ => .pure _
  refine homed_ofApps fun i => ?_
  rw [run_]
  refine .ite ?_ (.ite ?_ (.ite ?_ (.pure _)))
  · exact (hcreate main _ rfl).bind fun _ => (hcreate check _ rfl).bind fun _ => .pure _
  · exact (hget main rfl).bind fun v => (Within.foldlM hnext _ _).bind fun _ =>
      (hcreate verify _ rfl).bind fun _ => .pure _
  · exact (hget verify rfl).bind fun result => (hget check rfl).bind fun expected =>
      (hdouble 0 0 expected).bind fun _ => (hdouble 0 0 result).bind fun _ => .pure _

/-- **Whatever the schedule, the sums agree**: no assertion fails, and the summarizer prints
`SUCCESS`, unless the sum is not a number. -/
theorem summarizer_succeeds (d : Doubles) (hn : 3 ≤ args.numNodes) (hb : args.blockSize ≠ 0)
    (ts : List ThreadId) (st : Cluster) (h : run (cluster args d) ts = some st) :
    st.fault = none ∧ ∀ i, i < args.numNodes → ∀ r,
      (run_ args d i).run.result (st.nodes i).results = some r → r = some (lines d i) := by
  obtain ⟨w, halone⟩ := alone d hn hb
  exact ⟨halone.writeOnce.no_fault (homed d (ne_zero_of_three_le hn) hb) rfl h,
    fun i hi r hr => halone.result_eq h hi hr⟩

/-- **In a fair and orderly run the demo comes to its end**, on all nodes, and every node
has printed its line. -/
theorem demo_finishes (d : Doubles) (hn : 3 ≤ args.numNodes) (hb : args.blockSize ≠ 0)
    (ρ : Fair (cluster args d)) (ho : OrderlyRun ρ) :
    ∃ m₀, ∀ m, m₀ ≤ m → ∀ i, i < args.numNodes →
      ((ρ.state m).nodes i).app = .finished ∧ ((ρ.state m).nodes i).rcv = .exited ∧
        (run_ args d i).run.result ((ρ.state m).nodes i).results = some (some (lines d i)) := by
  obtain ⟨w, halone⟩ := alone d hn hb
  obtain ⟨m₀, hm₀⟩ := halone.ends (homed d (ne_zero_of_three_le hn) hb) ρ ho
  exact ⟨m₀, fun m hm => (hm₀ m hm).1⟩

end Alone

/-! ### Numbers -/

/-- The natural number `n`, to the precision of a `double`. -/
def ofNat (n : Nat) : UInt64 :=
  if n = 0 then 0
  else if 1024 ≤ n.log2 then 0x7FF0000000000000
  else UInt64.ofNat ((1023 + n.log2) * 2 ^ 52 + (n * 2 ^ 52 / 2 ^ n.log2 - 2 ^ 52))

/-- The natural number that a positive `double` is, without its fraction. -/
def toNat (x : UInt64) : Nat :=
  if x.toNat / 2 ^ 52 < 1023 then 0
  else (2 ^ 52 + x.toNat % 2 ^ 52) * 2 ^ (x.toNat / 2 ^ 52 - 1023) / 2 ^ 52

/-- `double`s below `2 ^ 53` without a fraction. -/
def naturals : Doubles where
  ofSize := ofNat
  add x y := ofNat (toNat x + toNat y)

example : ofNat 4 = 0x4010000000000000 := by decide

example : naturals.add (ofNat 300) (ofNat 41) = ofNat 341 := by decide

theorem isNaN_ofNat (n : Nat) : isNaN (ofNat n) = false := by
  suffices h : (ofNat n).toNat ≤ 0x7FF0000000000000 by
    refine decide_eq_false ?_
    rw [UInt64.lt_iff_toNat_lt, UInt64.toNat_shiftLeft]
    show ¬ 0xFFE0000000000000 < (ofNat n).toNat <<< 1 % 2 ^ 64
    rw [Nat.shiftLeft_eq]
    omega
  rw [ofNat]
  split
  · decide
  split
  · decide
  · rename_i hn hlog
    -- the fraction has 52 bits
    have hlt : n * 2 ^ 52 / 2 ^ n.log2 < 2 ^ 53 := by
      rw [Nat.div_lt_iff_lt_mul (Nat.two_pow_pos _)]
      have := Nat.lt_log2_self (n := n)
      rw [Nat.pow_succ] at this
      omega
    rw [UInt64.toNat_ofNat_of_lt' (by show _ < 2 ^ 64; omega)]
    omega

theorem isNaN_sum (xs : List UInt64) : isNaN (sum naturals xs) = false := by
  induction xs using List.reverseRecOn with
  | nil => decide
  | append_singleton xs x _ =>
    rw [sum, List.foldl_append]
    exact isNaN_ofNat _

theorem lines_naturals : lines naturals 2 = .verdict true := by
  rw [lines, if_neg (by decide), if_pos rfl, isNaN_sum]
  rfl

theorem exists_run_naturals : ∃ ρ : Fair (cluster ⟨3, 1024⟩ naturals), OrderlyRun ρ := by
  have hn : 3 ≤ (⟨3, 1024⟩ : Args).numNodes := by decide
  have hb : (⟨3, 1024⟩ : Args).blockSize ≠ 0 := by decide
  obtain ⟨w, halone⟩ := alone naturals hn hb
  exact halone.writeOnce.exists_orderlyRun (homed naturals (ne_zero_of_three_le hn) hb) rfl

/-- A state in which the summarizer has printed its line. -/
theorem summarizer_succeeds_naturals : ∃ ts st, run (cluster ⟨3, 1024⟩ naturals) ts = some st ∧
    (run_ ⟨3, 1024⟩ naturals 2).run.result (st.nodes 2).results = some (some (.verdict true)) := by
  have hn : 3 ≤ (⟨3, 1024⟩ : Args).numNodes := by decide
  have hb : (⟨3, 1024⟩ : Args).blockSize ≠ 0 := by decide
  obtain ⟨w, halone⟩ := alone naturals hn hb
  obtain ⟨ρ, ho⟩ := exists_run_naturals
  obtain ⟨m₀, hm₀⟩ := halone.ends (homed naturals (ne_zero_of_three_le hn) hb) ρ ho
  obtain ⟨-, -, hr⟩ := (hm₀ m₀ (Nat.le_refl m₀)).1 2 (by decide)
  have hline := (summarizer_succeeds naturals hn hb _ _ (ρ.run m₀)).2 2 (by decide) _ hr
  exact ⟨_, _, ρ.run m₀, hr.trans (by rw [hline, lines_naturals])⟩

theorem demo_finishes_naturals : ∃ ρ : Fair (cluster ⟨3, 1024⟩ naturals), ∃ m₀, ∀ m, m₀ ≤ m →
    ∀ i, i < 3 → ((ρ.state m).nodes i).app = .finished ∧ ((ρ.state m).nodes i).rcv = .exited ∧
      (run_ ⟨3, 1024⟩ naturals i).run.result ((ρ.state m).nodes i).results =
        some (some (lines naturals i)) := by
  obtain ⟨ρ, ho⟩ := exists_run_naturals
  exact ⟨ρ, demo_finishes naturals (by decide) (by decide) ρ ho⟩

end Demo

end Eau2
