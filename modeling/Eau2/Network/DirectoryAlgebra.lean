import Eau2.Network.Directory
import Eau2.Utils.MapCalls

/-!
# Directories, as maps from node ids to addresses

Several directories that are filled, merged, and sent to each other (`Directories`).

* `mergeIn_eq`, `transfer_spec`, `get_clone`: what the operations do with fewer than `2 ^ 31`
  entries; with more they fail.
* `algebra_iff`: **merging, cloning and sending go by entries exactly as long as an `int`
  can count them**.
-/

namespace Eau2.Directory

open Bytes Serializer

def ids (d : Directory) : Finset SizeT := d.ips.getKeys.toFinset

theorem mem_ids {d : Directory} (h : d.ips.Valid) {node : SizeT} :
    node ∈ d.ids ↔ (d.getInfo node).isSome := by
  rw [ids, List.mem_toFinset, mem_getKeys h]

theorem size_eq_card {d : Directory} (h : d.ips.Valid) : d.size = d.ids.card := by
  rw [size_eq_of_mem h d.ids.nodup_toList fun node => ?_, Finset.length_toList]
  rw [Finset.mem_toList, mem_ids h]

/-! ### Sending -/

/-- `deserialize` of what `serialize` wrote. -/
def transfer (d : Directory) : Option Directory := do
  let (_, s) ← serialize d Serializer.new
  let (d', _) ← deserialize (Serializer.ofBytes s.buffer)
  some d'

/-- **What was sent answers as the original**, from as many buckets. -/
theorem transfer_spec {d : Directory} (h : d.Wf) : ∃ d', transfer d = some d' ∧ d'.ips.Valid ∧
    d'.ips.capacity = d.ips.capacity ∧ Same d' d := by
  obtain ⟨s, hwrite, -, hwritten, -⟩ := writes_serialize h Serializer.new Serializer.sound_new
  obtain ⟨d', hreads, hsame, hvalid, hcap'⟩ := reads_deserialize_capacity h
  have hbuffer : s.buffer = [] ++ bytes d := hwritten
  obtain ⟨s', hread, -⟩ := hreads (Serializer.ofBytes (bytes d)) [] (List.append_nil _).symm
  refine ⟨d', ?_, hvalid, hcap', hsame⟩
  rw [transfer, hwrite, Option.bind_eq_bind, Option.bind_some]
  show (deserialize (Serializer.ofBytes s.buffer)).bind _ = _
  rw [hbuffer, List.nil_append, hread]
  rfl

theorem transfer_none {d : Directory} (h : d.ips.Valid) (hle : ¬ d.size < 2 ^ 31) :
    transfer d = none := by
  rw [transfer, serialize_none h hle]
  rfl

theorem ids_mergeIn {d other d' : Directory} (hd : d.ips.Valid) (ho : other.ips.Valid)
    (h' : d'.ips.Valid)
    (hget : ∀ node, d'.getInfo node = (other.getInfo node).or (d.getInfo node)) :
    d'.ids = d.ids ∪ other.ids := by
  ext node
  rw [mem_ids h', Finset.mem_union, mem_ids hd, mem_ids ho, hget, Option.isSome_or, Bool.or_eq_true,
    or_comm]

/-! ### Several directories -/

/-- Directories by number, each from `Directory()`. -/
abbrev Directories := Nat → Directory

inductive Call
  | addInfo (i : Nat) (nodeId : SizeT) (newInfo : NodeInfo)
  | mergeIn (i j : Nat)
  /-- Directory `i` deserializes what directory `j` serializes. -/
  | deserialize (i j : Nat)
  deriving DecidableEq

def step (ds : Directories) : Call → Option Directories
  | .addInfo i nodeId newInfo => some (Function.update ds i ((ds i).addInfo nodeId newInfo))
  | .mergeIn i j => ((ds i).mergeIn (ds j)).map (Function.update ds i)
  | .deserialize i j => (transfer (ds j)).map (Function.update ds i)

def run (calls : List Call) : Option Directories := calls.foldlM step fun _ => new

def Sound (ds : Directories) : Prop := ∀ i, (ds i).ips.Valid ∧ (ds i).ips.capacity = 4

theorem sound_new : Sound fun _ => new := fun _ => ⟨valid_new, Map.capacity_new 4⟩

theorem Sound.update {ds : Directories} (h : Sound ds) {d : Directory} (i : Nat)
    (hvalid : d.ips.Valid) (hcap : d.ips.capacity = 4) : Sound (Function.update ds i d) := by
  intro k
  by_cases hk : k = i
  · subst hk
    rw [Function.update_self]
    exact ⟨hvalid, hcap⟩
  · rw [Function.update_of_ne hk]
    exact h k

theorem Sound.step {ds ds' : Directories} (h : Sound ds) {c : Call} (hstep : step ds c = some ds') :
    Sound ds' := by
  cases c with
  | addInfo i nodeId newInfo =>
    cases hstep
    exact h.update i ((h i).1.put nodeId newInfo) ((Map.capacity_put _ _ _).trans (h i).2)
  | mergeIn i j =>
    obtain ⟨d', hmerge, rfl⟩ := Option.map_eq_some_iff.mp hstep
    have hvalid := (wf_mergeIn (h i).1 (h j).1 hmerge).1
    rw [mergeIn_eq (h j).1] at hmerge
    obtain ⟨-, he⟩ := Option.ite_none_right_eq_some.mp hmerge
    cases he
    exact h.update i hvalid ((Map.capacity_putAll _ _).trans (h i).2)
  | deserialize i j =>
    obtain ⟨d', htransfer, rfl⟩ := Option.map_eq_some_iff.mp hstep
    by_cases hlt : (ds j).size < 2 ^ 31
    · have hcap := (h j).2
      obtain ⟨d₁, hd₁, hvalid, hcap', -⟩ := transfer_spec ⟨(h j).1, by omega, hlt⟩
      obtain rfl : d₁ = d' := Option.some.inj (hd₁.symm.trans htransfer)
      exact h.update i hvalid (hcap'.trans hcap)
    · rw [transfer_none (h j).1 hlt] at htransfer
      cases htransfer

theorem sound_run {calls : List Call} {ds : Directories} (h : run calls = some ds) : Sound ds := by
  have hall : ∀ (calls : List Call) {ds₀ : Directories}, Sound ds₀ →
      calls.foldlM step ds₀ = some ds → Sound ds := by
    intro calls
    induction calls with
    | nil =>
      intro ds₀ h₀ hrun
      cases hrun
      exact h₀
    | cons c calls ih =>
      intro ds₀ h₀ hrun
      rw [List.foldlM_cons] at hrun
      obtain ⟨ds₁, hstep, hrest⟩ := Option.bind_eq_some_iff.mp hrun
      exact ih (h₀.step hstep) hrest
  exact hall calls sound_new h

/-- **Directories `i` and `j` are maps from ids to addresses**: `j` is merged into `i` with
its entries first, and `i` alone changes; `i` is cloned, and sent, entry by entry. -/
structure Algebra (ds : Directories) (i j : Nat) : Prop where
  mergeIn : ∃ ds', step ds (.mergeIn i j) = some ds' ∧
    (∀ node, (ds' i).getInfo node = ((ds j).getInfo node).or ((ds i).getInfo node)) ∧
    (ds' i).size = ((ds i).ids ∪ (ds j).ids).card ∧ ∀ k, k ≠ i → ds' k = ds k
  clone : ∃ c, (ds i).clone = some c ∧ Same c (ds i) ∧ c.size = (ds i).size
  transfer : ∃ d', transfer (ds i) = some d' ∧ d'.ips.capacity = (ds i).ips.capacity ∧
    Same d' (ds i) ∧ d'.size = (ds i).size

theorem Sound.algebra {ds : Directories} (h : Sound ds) {i j : Nat} (hi : (ds i).size < 2 ^ 31)
    (hj : (ds j).size < 2 ^ 31) : Algebra ds i j where
  mergeIn := by
    obtain ⟨d', hmerge, -, hget⟩ := getInfo_mergeIn (h i).1.cap_pos (h j).1 hj
    have hvalid := (wf_mergeIn (h i).1 (h j).1 hmerge).1
    refine ⟨Function.update ds i d', ?_, ?_, ?_, fun k hk => Function.update_of_ne hk _ _⟩
    · rw [Directory.step, hmerge]
      rfl
    · rw [Function.update_self]
      exact hget
    · rw [Function.update_self, size_eq_card hvalid, ids_mergeIn (h i).1 (h j).1 hvalid hget]
  clone := by
    obtain ⟨c, hclone, hwf, hsame⟩ := get_clone (h i).1 hi
    exact ⟨c, hclone, hsame, hsame.size_eq hwf.valid (h i).1⟩
  transfer := by
    have hcap := (h i).2
    obtain ⟨d', htransfer, hvalid, hcap', hsame⟩ := transfer_spec ⟨(h i).1, by omega, hi⟩
    exact ⟨d', htransfer, hcap', hsame, hsame.size_eq hvalid (h i).1⟩

/-- **Merging, cloning and sending go by entries exactly as long as an `int` can count
them.** -/
theorem algebra_iff {calls : List Call} {ds : Directories} (h : run calls = some ds) (i j : Nat) :
    Algebra ds i j ↔ (ds i).size < 2 ^ 31 ∧ (ds j).size < 2 ^ 31 := by
  have hsound := sound_run h
  refine ⟨fun ha => ⟨?_, ?_⟩, fun hlt => hsound.algebra hlt.1 hlt.2⟩
  · by_contra hle
    obtain ⟨d', htransfer, -⟩ := ha.transfer
    rw [transfer_none (hsound i).1 hle] at htransfer
    cases htransfer
  · by_contra hle
    obtain ⟨ds', hstep, -⟩ := ha.mergeIn
    rw [step, mergeIn_none (hsound j).1 hle] at hstep
    cases hstep

/-- Node `3` is in both directories, node `4` in the second. -/
theorem algebra_iff_two : ∃ ds,
    run [.addInfo 0 3 ⟨2, 1, 80⟩, .addInfo 1 3 ⟨2, 9, 80⟩, .addInfo 1 4 ⟨2, 7, 80⟩] = some ds ∧
    Algebra ds 0 1 := by
  refine ⟨_, rfl, ?_⟩
  have hrun : run [.addInfo 0 3 ⟨2, 1, 80⟩, .addInfo 1 3 ⟨2, 9, 80⟩, .addInfo 1 4 ⟨2, 7, 80⟩] =
      some _ := rfl
  exact (algebra_iff hrun 0 1).mpr ⟨by decide, by decide⟩

/-! ### More entries than an `int` can count -/

/-- Directory `0` is told of the nodes below `n`. -/
def fill (n : Nat) : List Call :=
  (List.range n).map fun node => .addInfo 0 (UInt64.ofNat node) ⟨2, 1, 80⟩

theorem size_fill {n : Nat} (h : n ≤ 2 ^ 64) : ∃ ds, run (fill n) = some ds ∧ (ds 0).size = n ∧
    ∀ node, ((ds 0).getInfo node).isSome ↔ node.toNat < n := by
  induction n with
  | zero =>
    refine ⟨_, rfl, rfl, fun node => iff_of_false ?_ (Nat.not_lt_zero _)⟩
    rw [show new.getInfo node = none from Map.get_new 4 node]
    exact Bool.false_ne_true
  | succ n ih =>
    obtain ⟨ds, hrun, hsize, hknows⟩ := ih (by omega)
    have hn : (UInt64.ofNat n).toNat = n := UInt64.toNat_ofNat_of_lt' (show n < 2 ^ 64 by omega)
    have hnew : (ds 0).getInfo (UInt64.ofNat n) = none := by
      rw [← Option.not_isSome_iff_eq_none, hknows, hn]
      exact lt_irrefl n
    refine ⟨Function.update ds 0 ((ds 0).addInfo (UInt64.ofNat n) ⟨2, 1, 80⟩), ?_, ?_,
      fun node => ?_⟩
    · rw [run] at hrun ⊢
      rw [fill, List.range_succ, List.map_append, List.foldlM_append]
      show (List.foldlM step _ (fill n)).bind _ = _
      rw [hrun]
      rfl
    · rw [Function.update_self, size_addInfo hnew, hsize]
    · rw [Function.update_self, getInfo_addInfo (sound_run hrun 0).1]
      by_cases hnode : UInt64.ofNat n = node
      · subst hnode
        rw [if_pos rfl, hn]
        exact iff_of_true rfl (Nat.lt_succ_self n)
      · rw [if_neg hnode, hknows]
        have hne : node.toNat ≠ n := by
          rintro rfl
          exact hnode UInt64.ofNat_toNat
        omega

/-- **A directory of `2 ^ 31 + 1` nodes is not sent.** -/
theorem algebra_overflow : ∃ ds, run (fill (2 ^ 31 + 1)) = some ds ∧ ¬ Algebra ds 0 1 := by
  obtain ⟨ds, hrun, hsize, -⟩ := size_fill (show 2 ^ 31 + 1 ≤ 2 ^ 64 by omega)
  refine ⟨ds, hrun, fun ha => ?_⟩
  obtain ⟨d', htransfer, -⟩ := ha.transfer
  rw [transfer_none (sound_run hrun 0).1 (by omega)] at htransfer
  cases htransfer

end Eau2.Directory
