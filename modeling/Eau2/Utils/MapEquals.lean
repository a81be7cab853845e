import Eau2.Utils.MapCalls

/-!
# Equality of hash maps

`Map::equals` compares the sizes, looks up each key of one map among the keys of the
other, and then does the same with the values, both ways.  It never looks at which
value belongs to which key.

* `keysFound_iff`: with equal sizes, the first loop passes exactly when the key sets
  are equal.
* `equals_spec`: what `equals` computes, over `get`.
* `equals_right_iff`: it decides whether the maps have the same pairs exactly when
  no key takes another value where the keys and the values are the same.
-/

namespace Eau2

open KeyClass

namespace Map

variable {K V : Type} [HashKey K]

def isInArr {α : Type} (eq : α → α → Bool) (needle : α) (haystack : List α) : Bool :=
  haystack.any fun x => eq x needle

/-- `equals`, for values compared with `veq`; `same` says that `this == other`. -/
def equals (veq : V → V → Bool) (same : Bool) (m other : Map K V) : Option Bool :=
  if same then some true
  else if m.size ≠ other.size then some false
  else do
    let thisKeys ← m.keysArr >>= readArr
    let otherKeys ← other.keysArr >>= readArr
    if thisKeys.all (fun curKey => isInArr HashKey.equals curKey otherKeys) then
      let thisValues ← m.valuesArr >>= readArr
      let otherValues ← other.valuesArr >>= readArr
      if thisValues.all (fun curValue => isInArr veq curValue otherValues) then
        pure (otherValues.all fun curValue => isInArr veq curValue thisValues)
      else pure false
    else pure false

/-! ### What the loops find -/

def SameKeys (m m' : Map K V) : Prop := ∀ k, (m.get k).isSome ↔ (m'.get k).isSome

def ValuesIn (veq : V → V → Bool) (m m' : Map K V) : Prop :=
  ∀ k v, m.get k = some v → ∃ k' v', m'.get k' = some v' ∧ veq v' v = true

/-- The values of a key that is in both maps are equal. -/
def EqualValues (veq : V → V → Bool) (m m' : Map K V) : Prop :=
  ∀ k v v', m.get k = some v → m'.get k = some v' → veq v v' = true

/-- **The same keys, and each key mapped to equal values.** -/
def SamePairs (veq : V → V → Bool) (m m' : Map K V) : Prop :=
  SameKeys m m' ∧ EqualValues veq m m'

variable [LawfulHashKey K]

omit [LawfulHashKey K] in
theorem exists_mem_entries {m : Map K V} {k : K} {v : V} (h : m.get k = some v) :
    ∃ e ∈ m.entries, e.2 = v := by
  obtain ⟨k', hm, -⟩ := mem_of_getFromBucket h
  exact ⟨(k', v), mem_entries_iff.mpr ⟨_, hm⟩, rfl⟩

theorem valuesFound_iff {m m' : Map K V} (h : Valid m) (h' : Valid m') (veq : V → V → Bool) :
    (m.entries.map Prod.snd).all (fun v => isInArr veq v (m'.entries.map Prod.snd)) = true ↔
      ValuesIn veq m m' := by
  unfold isInArr
  simp only [List.all_eq_true, List.any_eq_true, List.mem_map]
  constructor
  · intro hall k v hv
    obtain ⟨e, he, rfl⟩ := exists_mem_entries hv
    obtain ⟨v', ⟨e', he', rfl⟩, heq⟩ := hall e.2 ⟨e, he, rfl⟩
    exact ⟨e'.1, e'.2, get_of_mem_entries h' he', heq⟩
  · intro hin v hv
    obtain ⟨e, he, rfl⟩ := hv
    obtain ⟨k', v', hget, heq⟩ := hin e.1 e.2 (get_of_mem_entries h he)
    obtain ⟨e', he', rfl⟩ := exists_mem_entries hget
    exact ⟨e'.2, ⟨e', he', rfl⟩, heq⟩

/-- **The key loop: as many keys on both sides, and each of one among the other, are
the same keys.** -/
theorem keysFound_iff {m m' : Map K V} (h : Valid m) (h' : Valid m') (hs : m.size = m'.size) :
    m.getKeys.all (fun k => isInArr HashKey.equals k m'.getKeys) = true ↔ SameKeys m m' := by
  have hfound : m.getKeys.all (fun k => isInArr HashKey.equals k m'.getKeys) = true ↔
      (m.getKeys.map of).toFinset ⊆ (m'.getKeys.map of).toFinset := by
    unfold isInArr
    simp only [List.all_eq_true, List.any_eq_true, Finset.subset_iff, List.mem_toFinset,
      List.mem_map, forall_exists_index, and_imp, forall_apply_eq_imp_iff₂, of_eq_of]
  have hcard : (m'.getKeys.map of).toFinset.card ≤ (m.getKeys.map of).toFinset.card := by
    rw [List.toFinset_card_of_nodup h.nodup_keys, List.toFinset_card_of_nodup h'.nodup_keys]
    simp only [getKeys, List.length_map]
    rw [← h.size_eq, ← h'.size_eq, hs]
  rw [hfound]
  constructor
  · intro hsub k
    have heq := Finset.eq_of_subset_of_card_le hsub hcard
    rw [← mem_keys_iff h, ← mem_keys_iff h', ← List.mem_toFinset, heq, List.mem_toFinset]
  · intro hsame q hq
    obtain ⟨k, rfl⟩ : ∃ k, of k = q := Quotient.exists_rep q
    rw [List.mem_toFinset, mem_keys_iff h', ← hsame k, ← mem_keys_iff h, ← List.mem_toFinset]
    exact hq

/-! ### What `equals` computes -/

omit [LawfulHashKey K] in
theorem equals_of_size_ne (veq : V → V → Bool) {m m' : Map K V} (h : m.size ≠ m'.size) :
    m.equals veq false m' = some false := if_pos h

omit [LawfulHashKey K] in
theorem equals_overflow (veq : V → V → Bool) {m m' : Map K V} (h : Valid m)
    (hs : m.size = m'.size) (hbig : ¬ m.size < 2 ^ 31) : m.equals veq false m' = none := by
  have hkeys : m.keysArr = none := by rw [keysArr, fillArr_eq _ h.size_eq, if_neg hbig]
  unfold equals
  rw [hkeys, if_neg (not_not_intro hs)]
  rfl

/-- **Two maps of one size are equal for `equals` when they have the same keys and
the same set of values.** -/
theorem equals_spec (veq : V → V → Bool) {m m' : Map K V} (h : Valid m) (h' : Valid m')
    (hs : m.size = m'.size) (hlt : m.size < 2 ^ 31) :
    ∃ b, m.equals veq false m' = some b ∧
      (b = true ↔ SameKeys m m' ∧ ValuesIn veq m m' ∧ ValuesIn veq m' m) := by
  obtain ⟨hk, hv⟩ := (lists_iff h.size_eq).mpr hlt
  obtain ⟨hk', hv'⟩ := (lists_iff h'.size_eq).mpr (hs ▸ hlt)
  have hloop := keysFound_iff h h' hs
  have hvalues := valuesFound_iff h h' veq
  have hvalues' := valuesFound_iff h' h veq
  have hread : m.equals veq false m' =
      if m.getKeys.all (fun k => isInArr HashKey.equals k m'.getKeys) then
        if (m.entries.map Prod.snd).all (fun v => isInArr veq v (m'.entries.map Prod.snd)) then
          some ((m'.entries.map Prod.snd).all fun v => isInArr veq v (m.entries.map Prod.snd))
        else some false
      else some false := by
    unfold equals
    rw [hk, hv, hk', hv', if_neg Bool.false_ne_true, if_neg (not_not_intro hs)]
    simp only [Option.bind_eq_bind, Option.bind_some, readArr_map]
    rfl
  rw [hread]
  by_cases hkeys : SameKeys m m'
  · rw [if_pos (hloop.mpr hkeys)]
    by_cases hin : ValuesIn veq m m'
    · rw [if_pos (hvalues.mpr hin)]
      refine ⟨_, rfl, ?_⟩
      rw [hvalues']
      exact ⟨fun hin' => ⟨hkeys, hin, hin'⟩, fun hall => hall.2.2⟩
    · rw [if_neg (fun hc => hin (hvalues.mp hc))]
      refine ⟨false, rfl, fun hc => absurd hc Bool.false_ne_true, ?_⟩
      intro hall
      exact absurd hall.2.1 hin
  · rw [if_neg (fun hc => hkeys (hloop.mp hc))]
    refine ⟨false, rfl, fun hc => absurd hc Bool.false_ne_true, ?_⟩
    intro hall
    exact absurd hall.1 hkeys

/-! ### Against the pairs -/

theorem SameKeys.size_eq {m m' : Map K V} (h : Valid m) (h' : Valid m')
    (hk : SameKeys m m') : m.size = m'.size := by
  have hset : (m.getKeys.map of).toFinset = (m'.getKeys.map of).toFinset := by
    ext q
    obtain ⟨k, rfl⟩ : ∃ k, of k = q := Quotient.exists_rep q
    rw [List.mem_toFinset, List.mem_toFinset, mem_keys_iff h, mem_keys_iff h', hk k]
  have hcard := congrArg Finset.card hset
  rw [List.toFinset_card_of_nodup h.nodup_keys, List.toFinset_card_of_nodup h'.nodup_keys] at hcard
  simp only [getKeys, List.length_map] at hcard
  rw [h.size_eq, h'.size_eq, hcard]

omit [LawfulHashKey K] in
theorem SamePairs.valuesIn {veq : V → V → Bool}
    (hsymm : ∀ {v w}, veq v w = true → veq w v = true) {m m' : Map K V}
    (h : SamePairs veq m m') : ValuesIn veq m m' ∧ ValuesIn veq m' m := by
  constructor
  · intro k v hv
    obtain ⟨v', hv'⟩ := Option.isSome_iff_exists.mp ((h.1 k).mp (Option.isSome_of_eq_some hv))
    exact ⟨k, v', hv', hsymm (h.2 k v v' hv hv')⟩
  · intro k v' hv'
    obtain ⟨v, hv⟩ := Option.isSome_iff_exists.mp ((h.1 k).mpr (Option.isSome_of_eq_some hv'))
    exact ⟨k, v, hv, h.2 k v v' hv hv'⟩

/-- `equals` returns, and what it returns is whether the maps have the same pairs. -/
def EqualsRight (veq : V → V → Bool) (same : Bool) (m m' : Map K V) : Prop :=
  ∃ b, m.equals veq same m' = some b ∧ (b = true ↔ SamePairs veq m m')

/-- Where the maps have the same keys and the same values, no key has another value. -/
def Paired (veq : V → V → Bool) (m m' : Map K V) : Prop :=
  SameKeys m m' → ValuesIn veq m m' → ValuesIn veq m' m → EqualValues veq m m'

theorem equalsRight_iff {veq : V → V → Bool} (hveq : Equivalence fun v w => veq v w = true)
    {m m' : Map K V} (h : Valid m) (h' : Valid m') (hs : m.size = m'.size) :
    EqualsRight veq false m m' ↔ m.size < 2 ^ 31 ∧ Paired veq m m' := by
  by_cases hlt : m.size < 2 ^ 31
  · obtain ⟨b, hb, hiff⟩ := equals_spec veq h h' hs hlt
    unfold EqualsRight
    constructor
    · intro hr
      obtain ⟨b', hb', hiff'⟩ := hr
      obtain rfl : b = b' := Option.some.inj (hb.symm.trans hb')
      refine ⟨hlt, ?_⟩
      intro hkeys hin hin'
      exact (hiff'.mp (hiff.mpr ⟨hkeys, hin, hin'⟩)).2
    · intro hp
      refine ⟨b, hb, ?_⟩
      rw [hiff]
      constructor
      · intro hall
        exact ⟨hall.1, hp.2 hall.1 hall.2.1 hall.2.2⟩
      · intro hpairs
        exact ⟨hpairs.1, hpairs.valuesIn hveq.symm⟩
  · refine ⟨fun hr => ?_, fun hp => absurd hp.1 hlt⟩
    obtain ⟨b, hb, -⟩ := hr
    rw [equals_overflow veq h hs hlt] at hb
    cases hb

/-- **`equals` tells whether two maps have the same pairs exactly when they are one
object, differ in size, or (an `int` counting their entries) have no key that takes
another value while their keys and values are the same.** -/
theorem equals_right_iff {n n' : ℕ} (hn : 0 < n) (hn' : 0 < n') {calls calls' : List (Call K V)}
    {rs rs' : List (Reply V)} {m m' : Map K V}
    (hm : serve answer (new n) calls = some (rs, m))
    (hm' : serve answer (new n') calls' = some (rs', m'))
    {veq : V → V → Bool} (hveq : Equivalence fun v w => veq v w = true)
    {same : Bool} (hsame : same = true → m = m') :
    EqualsRight veq same m m' ↔
      same = true ∨ m.size ≠ m'.size ∨ m.size < 2 ^ 31 ∧ Paired veq m m' := by
  have h := valid_of_serve hn hm
  have h' := valid_of_serve hn' hm'
  cases same with
  | true =>
    obtain rfl := hsame rfl
    refine ⟨fun _ => Or.inl rfl, fun _ => ⟨true, rfl, fun _ => ?_, fun _ => rfl⟩⟩
    refine ⟨fun k => Iff.rfl, ?_⟩
    intro k v v' hv hv'
    obtain rfl := Option.some.inj (hv.symm.trans hv')
    exact hveq.refl v
  | false =>
    by_cases hs : m.size = m'.size
    · rw [equalsRight_iff hveq h h' hs]
      simp [hs]
    · refine ⟨fun _ => Or.inr (Or.inl hs), fun _ => ⟨false, equals_of_size_ne veq hs, ?_⟩⟩
      refine ⟨fun hc => absurd hc Bool.false_ne_true, ?_⟩
      intro hp
      exact absurd (SameKeys.size_eq h h' hp.1) hs

theorem equivalence_equals : Equivalence fun v w : CStr => HashKey.equals v w = true where
  refl := LawfulHashKey.refl
  symm := LawfulHashKey.symm
  trans := LawfulHashKey.trans

/-- Two maps with one entry each, of other capacities. -/
theorem equals_right_iff_one :
    EqualsRight HashKey.equals false ((new 4 : Map CStr CStr).put (numeral 1) (numeral 2)).1
      ((new 7 : Map CStr CStr).put (numeral 1) (numeral 2)).1 := by
  have hput : serve answer (new 4 : Map CStr CStr) [.put (some (numeral 1)) (some (numeral 2))] =
      some ([.value none], ((new 4 : Map CStr CStr).put (numeral 1) (numeral 2)).1) := rfl
  have hput' : serve answer (new 7 : Map CStr CStr) [.put (some (numeral 1)) (some (numeral 2))] =
      some ([.value none], ((new 7 : Map CStr CStr).put (numeral 1) (numeral 2)).1) := rfl
  refine (equals_right_iff (by omega) (by omega) hput hput' equivalence_equals
    (fun h => absurd h Bool.false_ne_true)).mpr (Or.inr (Or.inr ⟨by decide, ?_⟩))
  -- the one value of the first map, and the one of the second
  intro _ _ _ k v v' hv hv'
  rw [get_put (by decide), get_new] at hv hv'
  obtain ⟨-, hv⟩ := Option.ite_none_right_eq_some.mp hv
  obtain ⟨-, hv'⟩ := Option.ite_none_right_eq_some.mp hv'
  cases hv
  cases hv'
  exact equivalence_equals.refl _

/-- The calls that put the values `v` and `w` under `1` and `2`. -/
def putTwo (v w : ℕ) : List (Call CStr CStr) :=
  [.put (some (numeral 1)) (some (numeral v)), .put (some (numeral 2)) (some (numeral w))]

/-- **Two maps with exchanged values are equal for `equals`.** -/
theorem equals_exchanged : ∃ rs rs' m m',
    serve answer (new 4) (putTwo 1 2) = some (rs, m) ∧
      serve answer (new 4) (putTwo 2 1) = some (rs', m') ∧
      m.equals HashKey.equals false m' = some true ∧ ¬ SamePairs HashKey.equals m m' := by
  refine ⟨_, _, _, _, rfl, rfl, by decide +kernel, ?_⟩
  intro h
  have heq : HashKey.equals (numeral 1) (numeral 2) = true :=
    h.2 (numeral 1) _ _ (by decide +kernel) (by decide +kernel)
  exact absurd heq (by decide +kernel)

end Map

end Eau2
