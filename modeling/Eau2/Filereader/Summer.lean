import Eau2.Filereader.Adder
import Eau2.Utils.MapCalls

/-!
# Writing counts

`filereader/summer.h`: a `Summer` walks the buckets of a map, bucket `i` at entry `j`, and
fills a row with the word and the count of each entry.  A bucket that is null is an empty
chain.

* `emits_summer`: a `Summer` fills one row for each entry, in the order of the buckets.
* `drive_summer`: so it does of any map that calls have made, and then it is done.
-/

namespace Eau2

structure Summer where
  i : Nat
  j : Nat
  seen : Nat
  deriving DecidableEq, Repr

namespace Summer

def new : Summer := ⟨0, 0, 0⟩

/-- The loop of `next` over null buckets. -/
def skipNull (m : SIMap) : Nat → Nat → Nat
  | 0, i => i
  | fuel + 1, i => if i < m.capacity ∧ m.bucket i = [] then skipNull m fuel (i + 1) else i

def next (m : SIMap) (s : Summer) : Summer :=
  if s.i = m.capacity then s
  else if s.j < (m.bucket s.i).length then ⟨s.i, s.j + 1, s.seen + 1⟩
  else ⟨skipNull m m.capacity (s.i + 1), 0, s.seen⟩

def AtEnd (m : SIMap) (s : Summer) : Prop :=
  s.i = m.capacity ∨ m.bucket s.i = [] ∨ s.j = (m.bucket s.i).length

instance (m : SIMap) (s : Summer) : Decidable (AtEnd m s) :=
  inferInstanceAs (Decidable (_ ∨ _ ∨ _))

/-- `k`: a null pointer is `some none`, and an entry out of bounds exits. -/
def k (m : SIMap) (s : Summer) : Option (Option CStr) :=
  if AtEnd m s then some none else (m.bucket s.i)[s.j]?.map fun e => some e.1

/-- `v`, which asserts that there is an entry. -/
def v (m : SIMap) (s : Summer) : Option Int32 :=
  if AtEnd m s then none else (m.bucket s.i)[s.j]?.map Prod.snd

/-- `visit` after the first line: the count goes through a `size_t` and back. -/
def fill (m : SIMap) (s : Summer) (r : Row) : Option (Summer × Row) := do
  let key ← (← k m s)
  let value ← v m s
  let r ← r.set 0 (.str key)
  let r ← r.set 1 (.int value)
  pure (next m s, r)

def visit (m : SIMap) (s : Summer) (r : Row) : Option (Summer × Row) := do
  if (← k m s).isNone then fill m (next m s) r else fill m s r

def done (m : SIMap) (s : Summer) : Bool := s.seen = m.size

theorem scm_fill {m : SIMap} {s s' : Summer} {r r' : Row} (h : fill m s r = some (s', r')) :
    r'.scm = r.scm := by
  obtain ⟨key?, -, h⟩ := Option.bind_eq_some_iff.mp h
  obtain ⟨key, -, h⟩ := Option.bind_eq_some_iff.mp h
  obtain ⟨value, -, h⟩ := Option.bind_eq_some_iff.mp h
  obtain ⟨r₁, h₁, h⟩ := Option.bind_eq_some_iff.mp h
  obtain ⟨r₂, h₂, h⟩ := Option.bind_eq_some_iff.mp h
  cases h
  exact (Row.scm_set h₂).trans (Row.scm_set h₁)

end Summer

def summer (m : SIMap) : Writer Summer where
  visit := Summer.visit m
  done s := some (Summer.done m s, s)
  scm_eq := by
    intro s r s' r' h
    obtain ⟨key?, -, h⟩ := Option.bind_eq_some_iff.mp h
    split at h
    · exact Summer.scm_fill h
    · exact Summer.scm_fill h

namespace Summer

def rest (m : SIMap) (s : Summer) : List (CStr × Int32) :=
  (m.bucket s.i).drop s.j ++ (m.buckets.drop (s.i + 1)).flatten

def cells (e : CStr × Int32) : List Cell := [.str e.1, .int e.2]

variable {m : SIMap}

theorem rest_new (m : SIMap) : rest m new = m.entries := by
  rw [rest, Map.entries, new, List.drop_zero, Map.bucket]
  cases m.buckets with
  | nil => rfl
  | cons c cs => rfl

theorem skipNull_spec {fuel i : Nat} (h : m.capacity - i ≤ fuel) :
    ∃ i', skipNull m fuel i = i' ∧ (m.buckets.drop i').flatten = (m.buckets.drop i).flatten ∧
      (i' < m.capacity → m.bucket i' ≠ []) := by
  induction fuel generalizing i with
  | zero => exact ⟨i, rfl, rfl, fun hi => by omega⟩
  | succ fuel ih =>
    rw [skipNull]
    split
    · rename_i hc
      obtain ⟨i', he, hf, hb⟩ := ih (i := i + 1) (by omega)
      refine ⟨i', he, ?_, hb⟩
      have hi : i < m.buckets.length := hc.1
      have hnil : m.buckets[i] = [] := by
        rw [← hc.2, Map.bucket, List.getD_eq_getElem _ _ hi]
      rw [hf, List.drop_eq_getElem_cons hi, List.flatten_cons, hnil, List.nil_append]
    · rename_i hc
      exact ⟨i, rfl, rfl, fun hi hb => hc ⟨hi, hb⟩⟩

theorem next_of_end {s : Summer} (hj : (m.bucket s.i).length ≤ s.j) (hrest : rest m s ≠ []) :
    (next m s).seen = s.seen ∧ rest m (next m s) = rest m s ∧
      (next m s).j < (m.bucket (next m s).i).length := by
  have hdrop : rest m s = (m.buckets.drop (s.i + 1)).flatten := by
    rw [rest, List.drop_eq_nil_of_le hj, List.nil_append]
  have hi : s.i ≠ m.capacity := by
    intro hi
    rw [hdrop, List.drop_eq_nil_of_le (by rw [hi]; exact Nat.le_succ _)] at hrest
    exact hrest rfl
  obtain ⟨i', he, hf, hb⟩ := skipNull_spec (m := m) (i := s.i + 1)
    (show m.capacity - (s.i + 1) ≤ m.capacity by omega)
  have hnext : next m s = ⟨i', 0, s.seen⟩ := by
    rw [next, if_neg hi, if_neg (by omega), he]
  have hi' : i' < m.buckets.length := by
    by_contra hc
    rw [hdrop, ← hf, List.drop_eq_nil_of_le (by omega)] at hrest
    exact hrest rfl
  rw [hnext]
  refine ⟨rfl, ?_, List.length_pos_iff.mpr (hb hi')⟩
  rw [hdrop, ← hf, rest, List.drop_zero, List.drop_eq_getElem_cons hi', List.flatten_cons,
    Map.bucket, List.getD_eq_getElem _ _ hi']

theorem not_atEnd {s : Summer} (hj : s.j < (m.bucket s.i).length) : ¬ AtEnd m s := by
  rintro (hi | hb | hj')
  · have hnone : m.bucket s.i = [] := by
      rw [hi]
      exact List.getD_eq_default _ _ (Nat.le_refl _)
    rw [hnone] at hj
    exact absurd hj (Nat.not_lt_zero _)
  · rw [hb] at hj
    exact absurd hj (Nat.not_lt_zero _)
  · omega

theorem fill_spec {s : Summer} (hj : s.j < (m.bucket s.i).length)
    {scm : Schema} (hscm : scm.types = [.Str, .Integer]) (idx : SizeT) :
    ∃ e r s', rest m s = e :: rest m s' ∧ s'.seen = s.seen + 1 ∧
      s'.j ≤ (m.bucket s'.i).length ∧ fill m s (Row.unset scm idx) = some (s', r) ∧
      r.IsSet (cells e) := by
  have hend := not_atEnd hj
  have hget : (m.bucket s.i)[s.j]? = some (m.bucket s.i)[s.j] := List.getElem?_eq_getElem hj
  have ht₀ : scm.types[0]? = some (Cell.str (m.bucket s.i)[s.j].1).type := by
    rw [hscm]
    rfl
  have ht₁ : scm.types[1]? = some (Cell.int (m.bucket s.i)[s.j].2).type := by
    rw [hscm]
    rfl
  obtain ⟨r₁, h₁, hscm₁, -, he₁⟩ := Row.set_spec (r := Row.unset scm idx) ht₀
  obtain ⟨r₂, h₂, -, -, he₂⟩ := Row.set_spec (r := r₁) (by rw [hscm₁]; exact ht₁)
  have hnext : next m s = ⟨s.i, s.j + 1, s.seen + 1⟩ := by
    rw [next, if_neg fun hi => hend (Or.inl hi), if_pos hj]
  refine ⟨(m.bucket s.i)[s.j], r₂, next m s, ?_, by rw [hnext], by rw [hnext]; exact hj, ?_, ?_⟩
  · rw [hnext, rest, rest, List.drop_eq_getElem_cons hj]
    rfl
  · simp only [fill, k, v, if_neg hend, hget, Option.map_some, Option.bind_eq_bind,
      Option.bind_some, h₁, h₂]
    rfl
  · rw [Row.IsSet, he₂, he₁]
    show ((List.replicate scm.types.length none).set 0 _).set 1 _ = _
    rw [hscm]
    rfl

/-- **A `Summer` fills a row for each entry that is left.** -/
theorem emits_rest {scm : Schema} (hscm : scm.types = [.Str, .Integer]) {s : Summer}
    (hj : s.j ≤ (m.bucket s.i).length) (hseen : s.seen + (rest m s).length = m.size) (idx : SizeT) :
    (summer m).Emits scm idx s ((rest m s).map cells) := by
  generalize hn : (rest m s).length = n at hseen
  induction n generalizing s idx with
  | zero =>
    rw [List.length_eq_zero_iff.mp hn]
    exact Writer.Emits.done idx s s (congrArg (fun b => some (b, s)) (decide_eq_true hseen))
  | succ n ih =>
    have hne : rest m s ≠ [] := fun h0 => by simp [h0] at hn
    have hdone : (summer m).done s = some (false, s) :=
      congrArg (fun b => some (b, s)) (decide_eq_false (by omega))
    -- the entry that is written is here, or in the next bucket that is not null
    obtain ⟨s₁, hvisit, hseen₁, hrest₁, hlt⟩ : ∃ s₁, (∀ r, visit m s r = fill m s₁ r) ∧
        s₁.seen = s.seen ∧ rest m s₁ = rest m s ∧ s₁.j < (m.bucket s₁.i).length := by
      by_cases hlt : s.j < (m.bucket s.i).length
      · refine ⟨s, fun r => ?_, rfl, rfl, hlt⟩
        rw [visit, k, if_neg (not_atEnd hlt), List.getElem?_eq_getElem hlt]
        rfl
      · obtain ⟨hseen', hrest', hlt'⟩ := next_of_end (Nat.not_lt.mp hlt) hne
        refine ⟨next m s, fun r => ?_, hseen', hrest', hlt'⟩
        have hend : AtEnd m s := Or.inr (Or.inr (by omega))
        rw [visit, k, if_pos hend]
        rfl
    obtain ⟨e, r, s', hrest, hseen', hj', hfill, hr⟩ := fill_spec hlt hscm idx
    rw [hrest₁] at hrest
    rw [hrest, List.length_cons] at hn
    rw [hrest]
    exact Writer.Emits.visit idx s s s' r _ _ hdone ((hvisit _).trans hfill) hr
      (ih hj' (idx + 1) (by omega) (by omega))

theorem emits_of_size {scm : Schema} (hscm : scm.types = [.Str, .Integer])
    (hm : m.size = m.entries.length) (idx : SizeT) :
    (summer m).Emits scm idx new (m.entries.map cells) := by
  have hseen : new.seen + (rest m new).length = m.size := by
    rw [rest_new, hm]
    exact Nat.zero_add _
  have := emits_rest hscm (Nat.zero_le _) hseen idx
  rwa [rest_new] at this

/-- **A `Summer` fills one row for each entry of its map.** -/
theorem emits_summer {scm : Schema} (hscm : scm.types = [.Str, .Integer]) (hm : m.Valid)
    (idx : SizeT) : (summer m).Emits scm idx new (m.entries.map cells) :=
  emits_of_size hscm hm.size_eq idx

/-! ### The maps there are -/

/-- A map that calls have made of `Map(n)`; without buckets none of them gets through. -/
def Built (m : SIMap) : Prop := ∃ n calls rs, (n = 0 → calls = []) ∧
  serve Map.answer (Map.new n) calls = some (rs, m)

theorem Built.cases {m : SIMap} (h : Built m) : m = Map.new 0 ∨ m.Valid := by
  obtain ⟨n, calls, rs, hzero, hrun⟩ := h
  rcases Nat.eq_zero_or_pos n with rfl | hn
  · rw [hzero rfl] at hrun
    cases hrun
    exact Or.inl rfl
  · exact Or.inr (Map.valid_of_serve hn hrun)

/-- **The entries of a map are its words with their counts, each once.** -/
theorem Built.entries {m : SIMap} (h : Built m) : m.size = m.entries.length ∧
    (m.entries.map Prod.fst).Nodup ∧ ∀ w c, (w, c) ∈ m.entries ↔ m.get w = some c := by
  rcases h.cases with rfl | hm
  · refine ⟨rfl, List.nodup_nil, fun w c => iff_of_false List.not_mem_nil ?_⟩
    rw [Map.get_new]
    exact fun hc => by cases hc
  · have hnodup : (m.entries.map Prod.fst).Nodup := by
      rw [List.Nodup, List.pairwise_map]
      exact hm.distinct_entries.imp fun hne he => hne (ExactHashKey.equals_iff.mpr he)
    have hmem : ∀ {w c}, m.get w = some c → (w, c) ∈ m.entries := by
      intro w c hget
      obtain ⟨w', hmem, heq⟩ := Map.mem_of_getFromBucket hget
      rw [← ExactHashKey.equals_iff.mp heq]
      exact Map.mem_entries_iff.mpr ⟨_, hmem⟩
    refine ⟨hm.size_eq, hnodup, fun w c => ⟨fun hc => ?_, hmem⟩⟩
    obtain ⟨c', hget⟩ := Option.isSome_iff_exists.mp
      (Map.isSome_get_of_mem_getKeys hm (List.mem_map_of_mem (f := Prod.fst) hc))
    have heq := List.inj_on_of_nodup_map hnodup hc (hmem hget) rfl
    have hcc : c = c' := congrArg Prod.snd heq
    rw [hcc]
    exact hget

/-- **Driving a `Summer` ends, with a row for each word of the map and its count.** -/
theorem drive_summer {m : SIMap} (hm : Built m) {scm : Schema}
    (hscm : scm.types = [.Str, .Integer]) (idx : SizeT) :
    (∀ fuel, m.size < fuel →
      (summer m).rowsOf scm fuel idx new = some (m.entries.map cells)) ∧
    m.entries.length = m.size ∧ (m.entries.map Prod.fst).Nodup ∧
    ∀ w c, (w, c) ∈ m.entries ↔ m.get w = some c := by
  obtain ⟨hsize, hnodup, hmem⟩ := hm.entries
  refine ⟨fun fuel hfuel => ?_, hsize.symm, hnodup, hmem⟩
  refine Writer.rowsOf_eq_some_iff.mpr ⟨emits_of_size hscm hsize idx, ?_⟩
  rw [List.length_map, ← hsize]
  exact hfuel

/-- Two words in the only bucket of a map. -/
theorem drive_summer_two : ∃ rs m,
    serve Map.answer (Map.new 1 : SIMap) [.put (some ⟨[97], CStr.nulFree_a⟩) (some 1),
      .put (some ⟨[98], CStr.nulFree_b⟩) (some 2)] = some (rs, m) ∧
    (summer m).rowsOf (Schema.ofCols [.Str, .Integer]) 3 0 new =
      some [[.str ⟨[97], CStr.nulFree_a⟩, .int 1], [.str ⟨[98], CStr.nulFree_b⟩, .int 2]] := by
  have hrun : serve Map.answer (Map.new 1 : SIMap)
      [.put (some ⟨[97], CStr.nulFree_a⟩) (some 1),
        .put (some ⟨[98], CStr.nulFree_b⟩) (some 2)] = some _ := rfl
  refine ⟨_, _, hrun, ?_⟩
  have hbuilt : Built _ := ⟨1, _, _, fun h => absurd h Nat.one_ne_zero, hrun⟩
  exact (drive_summer hbuilt (show (Schema.ofCols [.Str, .Integer]).types = _ from rfl) 0).1 3
    (by decide)

end Summer

end Eau2
